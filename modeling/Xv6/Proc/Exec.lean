/-
# Xv6.Proc.Exec — `exec` and `sys_exec`.

`sys_exec` copies the arguments into pages of its own, `exec` builds the new address space beside the
old one, commits, and frees the old one, and `sys_exec` frees the argument pages.  The file system is
a parameter: what `namei` and `readi` find at a path.
-/
import Xv6.Mem.Bytewise
import Xv6.Proc.Stack

namespace Xv6

open Lib Lib.Store Lib.Prog Multiset Option

variable {root tf : Nat}

/-! ## Definitions -/

/-- Fetch the word at `addr` from process `i`. -/
def fetchaddr (i : Fin NPROC) (addr : Nat) : Prog Kernel (Option Nat) := do
  let p := (← get).proc i
  -- both tests needed, in case of overflow
  if addr ≥ p.sz ∨ (addr + 8) % 2 ^ 64 > p.sz then
    pure none
  else
    let pt ← deref p.pagetable
    let (r, b) ← onMach (copyin pt addr 8)
    if r ≠ 0 then
      pure none
    else
      pure (some (load 8 (asStore b) 0).toNat)

/-- Fetch the nul-terminated string at `addr` from process `i`: the sign of the result, and the bytes
that went into the buffer. -/
def fetchstr (i : Fin NPROC) (addr max : Nat) : Prog Kernel (Int × List Byte) := do
  let pt ← deref ((← get).proc i).pagetable
  onMach (copyinstr pt addr max)

/-- What follows the last slash of a path. -/
def lastElem : List Byte → List Byte → List Byte
  | [], last => last
  | c :: s, last =>
    if c = 0 then
      last
    else if c = 0x2f then
      lastElem s s
    else
      lastElem s last

/-- `p->pagetable = pagetable; p->sz = sz`. -/
def Proc.commit (p : Proc) (img : Image) : Proc :=
  { p with pagetable := some img.pagetable, sz := img.sz, guard := some img.guard }

/-- Replace the memory of process `i` by the program at `path`. -/
def exec (fs : List Byte → Option (List Byte)) (i : Fin NPROC) (path : List Byte)
    (argv : List Nat) : Prog Kernel Int := do
  match fs path with
  | none => pure (-1)
  | some ip =>
    let p := (← get).proc i
    match ← onMach (buildImage ip argv (p.trapframe.getD 0) (p.usyscall.getD 0)) with
    | none => pure (-1)
    | some img =>
      let tf ← deref p.trapframe
      onMach (storeWord 8 (tf + TF_A1) (BitVec.ofNat 64 img.sp))
      -- save program name for debugging
      setProc i fun p => { p with name := safestrcpy (lastElem path path) 16 }
      -- commit to the user image
      setProc i fun p => p.commit img
      onMach (storeWord 8 (tf + TF_EPC) (BitVec.ofNat 64 img.entry))
      onMach (storeWord 8 (tf + TF_SP) (BitVec.ofNat 64 img.sp))
      let oldpagetable ← deref p.pagetable
      onMach (procFreepagetable oldpagetable p.sz)
      -- for pid 1 `vmprint` prints the page table
      pure img.argc

/-- The loop of `sys_exec`: `n` slots of `argv` are left; `false` for `goto bad`. -/
def fetchArgs (i : Fin NPROC) (uargv : Nat) : Nat → List Nat → Prog Kernel (Bool × List Nat)
  | 0, argv => pure (false, argv)
  | n + 1, argv => do
    match ← fetchaddr i ((uargv + 8 * argv.length) % 2 ^ 64) with
    | none => pure (false, argv)
    | some uarg =>
      if uarg = 0 then
        pure (true, argv)
      else
        match ← onMach kalloc with
        | none => pure (false, argv)
        | some pa =>
          let (r, b) ← fetchstr i uarg PGSIZE
          onMach (memput pa (asStore b) b.length)
          if r < 0 then
            pure (false, argv ++ [pa])
          else
            fetchArgs i uargv n (argv ++ [pa])

/-- Free the argument pages. -/
def kfreeArgs : List Nat → Prog Kernel Unit
  | [] => pure ()
  | pa :: argv => do
    onMach (kfree pa)
    kfreeArgs argv

/-- `sys_exec`, with the addresses of the path and of `argv`. -/
def sysExec (fs : List Byte → Option (List Byte)) (i : Fin NPROC) (upath uargv : Nat) :
    Prog Kernel Int := do
  let (r, path) ← fetchstr i upath MAXPATH
  if r < 0 then
    pure (-1)
  else
    let (ok, argv) ← fetchArgs i uargv MAXARG []
    if ok then
      let ret ← exec fs i path argv
      kfreeArgs argv
      pure ret
    else
      kfreeArgs argv
      pure (-1)

/-! ## `exec` -/

variable {k k' : Kernel} {X : Multiset Nat} {Y : Fin NFILE → Int} {i : Fin NPROC}

/-- A write to the trapframe of process `i`. -/
theorem KInv.wp_tfWord (h : KInv k X Y ∅) (htf : (k.proc i).trapframe = some tf)
    (hoff : off + 8 ≤ PGSIZE) (v : BitVec 64) :
    wp (onMach (storeWord 8 (tf + off) v)) (fun _ k' => KInv k' X Y ∅ ∧ (∀ j ≠ i, Same k k' j) ∧
      MachOnly k k' ∧ Touches {tf} k.mach k'.mach ∧ Shared k k' i ∧
      k'.mach.mem = store 8 k.mach.mem (tf + off) v) k := by
  have hpage := (h.idle_proc i).page tf (mem_add.mpr (.inr (mem_add.mpr (.inl
    (mem_add.mpr (.inl (Proc.mem_pages (.inl htf))))))))
  refine wp_mono (wp_onMach (wp_storeWord (n := 8) v hpage.1 (Nat.le_add_right tf off) ?_)) ?_
  · rw [Nat.add_assoc]
    exact Nat.add_le_add_left hoff tf
  rintro ⟨⟩ k1 ⟨⟨hmem, ht, hf, hr⟩, e⟩
  obtain ⟨h1, same⟩ := ((Work.refl h i).write_page h e (.inl htf) ht hf hr).kinv h ∅
    (fun _ _ _ => Finset.notMem_empty _) fun _ => by
      rw [e.proc]
      exact h.settled i (Finset.notMem_empty i)
  exact ⟨h1, same, e, ht, .of_touches ht (h.trapframe_ne htf) (by rw [e.proc]), hmem⟩

/-- The three words that `exec` writes to a trapframe. -/
theorem load_trapframe (m : Store) (tf : Nat) (a1 epc sp : BitVec 64) :
    let m' := store 8 (store 8 (store 8 m (tf + TF_A1) a1) (tf + TF_EPC) epc) (tf + TF_SP) sp
    load 8 m' (tf + TF_A1) = a1 ∧ load 8 m' (tf + TF_EPC) = epc ∧ load 8 m' (tf + TF_SP) = sp := by
  have hne : TF_EPC + 8 ≤ TF_SP ∧ TF_SP + 8 ≤ TF_A1 := by decide
  refine ⟨?_, ?_, load_store ..⟩
  · rw [load_store_of_disjoint _ _ (by omega), load_store_of_disjoint _ _ (by omega), load_store]
  · rw [load_store_of_disjoint _ _ (by omega), load_store]

/-- An address space is as it was if its table was not written. -/
theorem Space.touch {s s' : Mach} {trampoline sz us q : Nat} {guard : Option Nat}
    (hs : Space s.mem trampoline root sz tf us guard) (ht : Touches {q} s s')
    (hq : q ∉ ptPages s.mem root) : Space s'.mem trampoline root sz tf us guard ∧
      spacePages s'.mem root sz = spacePages s.mem root sz := by
  have hagree : ptRadix.Agree (ptPages s.mem root) s.mem s'.mem := by
    refine agree_eqOff ht.mem fun p hp => ⟨dvd_of_mem_nodes hs.root_dvd hp, fun hin => hq ?_⟩
    rwa [← mem_singleton.mp hin]
  exact ⟨hs.congr hagree, spacePages_congr hagree sz⟩

/-- **The commit**: process `i` gets the new address space, and the old one is held outside. -/
theorem KInv.commit
    (h : KInv k (spacePages k.mach.mem img.pagetable img.sz + X) Y ∅)
    (hrun : (k.proc i).state = .RUNNABLE) (hr : (k.proc i).pagetable = some root)
    (htf : (k.proc i).trapframe = some tf) (hus : (k.proc i).usyscall = some us)
    (hs : Space k.mach.mem k.mach.trampoline img.pagetable img.sz tf us (some img.guard))
    (e : ProcOnly i ((k.proc i).commit img) k k') :
    KInv k' (spacePages k.mach.mem root (k.proc i).sz + X) Y ∅ ∧ ∀ j ≠ i, Same k k' j := by
  have hof : ((k.proc i).commit img).ofile = (k.proc i).ofile := rfl
  have hset : ((k.proc i).commit img).Settled := by
    refine ⟨fun hun => ?_, fun _ => some_ne_none _, fun hz => ?_⟩
    · exact absurd (hrun.symm.trans hun) (by decide)
    · exact absurd (hrun.symm.trans hz) (by decide)
  refine h.step i ?_ ⟨fun r hr' => ?_, fun hr' => absurd hr' (some_ne_none _)⟩ hof (fun _ hj _ => hj)
    (fun _ => hset) e.mach e.proc e.ftable
  · rw [Proc.pages_eq hr htf hus, Proc.pages_eq (p := (k.proc i).commit img) rfl htf hus]
    have hsum : spacePages k.mach.mem root (k.proc i).sz + {tf} + {us} +
        (spacePages k.mach.mem img.pagetable img.sz + X) =
        spacePages k.mach.mem img.pagetable img.sz + {tf} + {us} +
        (spacePages k.mach.mem root (k.proc i).sz + X) := by abel
    rw [hsum]
    exact Moves.refl _ _
  · cases hr'
    exact ⟨tf, us, htf, hus, hs⟩

/-- Pages that are held outside are not pages of a process. -/
theorem KInv.notMem_held (h : KInv k X Y ∅) (hq : q ∈ (k.proc i).pages k.mach.mem) :
    q ∉ X := by
  have hnd := (nodup_add.mp h.idle.nodup).2.1
  refine disjoint_left.mp (nodup_add.mp hnd).2.2 ?_
  rw [k.held_eq i]
  exact mem_add.mpr (.inl hq)

/-- The image is installed in process `i`. -/
structure Installed (path : List Byte) (ip : List Byte) (argv : List Nat) (i : Fin NPROC) (img : Image)
    (k k' : Kernel) : Prop where
  proc : k'.proc = Function.update k.proc i
    { (k.proc i).commit img with name := safestrcpy (lastElem path path) 16 }
  image : ImageOf k.mach ip argv img k'.mach
  a1 : ∀ tf, (k.proc i).trapframe = some tf →
    load 8 k'.mach.mem (tf + TF_A1) = BitVec.ofNat 64 img.sp
  sp : ∀ tf, (k.proc i).trapframe = some tf →
    load 8 k'.mach.mem (tf + TF_SP) = BitVec.ofNat 64 img.sp
  epc : ∀ tf, (k.proc i).trapframe = some tf →
    load 8 k'.mach.mem (tf + TF_EPC) = BitVec.ofNat 64 img.entry

/-- How `exec` ends: the image of the file is installed; or there is no file or no image, and nothing
but free pages was written, which are the same as before. -/
inductive ExecEnds (fs : List Byte → Option (List Byte)) (i : Fin NPROC) (path : List Byte)
    (argv : List Nat) (k : Kernel) (r : Int) (k' : Kernel) : Prop
  | done (ip : List Byte) (img : Image) (hfile : fs path = some ip) (hr : r = img.argc)
      (himg : Installed path ip argv i img k k')
  | failed (hr : r = -1) (hm : Moves 0 0 k.mach k'.mach) (he : MachOnly k k')
      (hno : ∀ ip, fs path = some ip → ∃ s, buildImage ip argv ((k.proc i).trapframe.getD 0)
        ((k.proc i).usyscall.getD 0) k.mach = .ok (none, s))

/-- **`exec`** keeps the invariant, whatever the file and the arguments are. -/
theorem wp_exec (h : KInv k X Y ∅) (hrun : (k.proc i).state = .RUNNABLE)
    (fs : List Byte → Option (List Byte)) (path : List Byte)
    (hargs : ∀ a ∈ argv, a ∈ X) :
    wp (exec fs i path argv) (fun r k' => (KInv k' X Y ∅ ∧ (∀ j ≠ i, Same k k' j) ∧ Shared k k' i) ∧
      ExecEnds fs i path argv k r k') k := by
  obtain ⟨root, tf, us, hr, htf, hus, hs⟩ := h.live (i := i) (by rw [hrun]; decide)
  rw [exec]
  cases hfile : fs path with
  | none =>
    refine wp_pure ⟨⟨h, fun j _ => Same.refl k j, Shared.refl k i⟩,
      .failed rfl (Moves.refl _ _) ⟨rfl, rfl, rfl, rfl⟩ fun ip hip => ?_⟩
    cases hfile.symm.trans hip
  | some ip =>
    dsimp only
    refine wp_bind (wp_get ?_)
    rw [htf, hus, getD_some, getD_some]
    have hidle := h.idle_space hr htf hus
    rw [add_comm (spacePages _ _ _), add_assoc] at hidle
    have hpage := fun q hq => (h.idle_proc i).page q (mem_add.mpr (.inr
      (mem_add.mpr (.inl (mem_add.mpr (.inl hq))))))
    have hT' : k.mach.trampoline < 2 ^ 64 := by
      have := h.trampoline.2
      have := h.kend.2
      unfold PHYSTOP KERNBASE at this
      omega
    have hheld : ∀ a ∈ argv, a ∈ spacePages k.mach.mem root (k.proc i).sz + ({tf} + (X + k.rest i)) :=
      fun a ha => by simp [hargs a ha]
    refine wp_seq (wp_onMach (wp_run (wp_buildImage hidle h.kend.1 h.trampoline.1 hT'
      (hpage tf (Proc.mem_pages (.inl htf))) (hpage us (Proc.mem_pages (.inr hus))) ip hheld))) ?_
    rintro r k1 ⟨⟨hrun1, ⟨rfl, m1⟩ | ⟨img, rfl, b, himg⟩⟩, e1⟩
    · obtain ⟨h1, same1⟩ := h.mach (m1.frame_eq X (zero_add X).symm (zero_add X).symm) e1
      refine wp_pure ⟨⟨h1, fun j _ => same1 j, (same1 i).shared⟩, .failed rfl m1 e1 fun ip' hip => ?_⟩
      obtain rfl := some.inj (hfile.symm.trans hip)
      rw [htf, hus]
      exact ⟨_, hrun1⟩
    obtain ⟨h1, same1⟩ := h.mach (b.moves.frame_eq X (zero_add X).symm rfl) e1
    set P := spacePages k1.mach.mem img.pagetable img.sz with hP
    have hp1 : k1.proc i = k.proc i := by rw [e1.proc]
    have htf1 : (k1.proc i).trapframe = some tf := by rw [hp1, htf]
    -- `p->trapframe->a1`
    refine wp_bind (wp_deref rfl ?_)
    refine wp_seq (h1.wp_tfWord htf1 (by decide) _) ?_
    rintro ⟨⟩ k2 ⟨h2, same2, e2, t2, s2, m2⟩
    have hnew : tf ∉ ptPages k1.mach.mem img.pagetable := fun hin =>
      h1.notMem_held (Proc.mem_pages (.inl htf1))
        (mem_add.mpr (.inl (mem_add.mpr (.inl hin))))
    obtain ⟨hs2, hP2⟩ := b.space.touch t2 hnew
    -- the name
    refine wp_seq (wp_setProc i _ k2) ?_
    rintro ⟨⟩ k3 e3
    have hset2 := h2.settled i (Finset.notMem_empty i)
    obtain ⟨h3, same3⟩ := h2.relabel ∅ e3 ⟨rfl, rfl, rfl, rfl, rfl, rfl⟩
      (fun _ hj _ => hj) fun _ => ⟨hset2.unused, hset2.used, hset2.zombie⟩
    have hp3 : (k.proc i).Alike (k3.proc i) ∧ (k3.proc i).state = .RUNNABLE := by
      rw [e3.self, e2.proc, hp1]
      exact ⟨⟨rfl, rfl, rfl, rfl, rfl, rfl⟩, hrun⟩
    -- the commit
    refine wp_seq (wp_setProc i _ k3) ?_
    rintro ⟨⟩ k4 e4
    rw [hP, ← hP2, ← e3.mach] at h3
    have htr3 : k3.mach.trampoline = k.mach.trampoline := by
      rw [e3.mach, t2.trampoline, b.moves.touches.trampoline]
    rw [← e3.mach, ← htr3] at hs2
    obtain ⟨⟨hpt, htfeq, huseq, hsz, -⟩, hrun3⟩ := hp3
    rw [hr] at hpt
    rw [htf] at htfeq
    rw [hus] at huseq
    obtain ⟨h4, same4⟩ := h3.commit hrun3 hpt htfeq huseq hs2 e4
    -- the old table is still as it was
    obtain ⟨_, _, ho1, ho2, hold⟩ := (h3.proc i).space root hpt
    rw [hsz] at hold h4
    have htf4 : (k4.proc i).trapframe = some tf := by
      rw [e4.self]
      exact htfeq
    have hold4 : tf ∉ ptPages k3.mach.mem root := fun hin =>
      h4.notMem_held (Proc.mem_pages (.inl htf4))
        (mem_add.mpr (.inl (mem_add.mpr (.inl hin))))
    -- `p->trapframe->epc` and `p->trapframe->sp`
    refine wp_seq (h4.wp_tfWord htf4 (by decide) _) ?_
    rintro ⟨⟩ k5 ⟨h5, same5, e5, t5, s5, m5⟩
    rw [e4.mach] at t5
    have htf5 : (k5.proc i).trapframe = some tf := by rw [e5.proc, htf4]
    refine wp_seq (h5.wp_tfWord htf5 (by decide) _) ?_
    rintro ⟨⟩ k6 ⟨h6, same6, e6, t6, s6, m6⟩
    -- the old address space is freed
    obtain ⟨hold6, hO⟩ := hold.touch (t5.trans t6) hold4
    rw [← hO] at h6
    refine wp_bind (wp_deref hr ?_)
    have hidle6 := h6.idle
    rw [add_left_comm] at hidle6
    refine wp_seq (wp_onMach (hold6.wp_free hidle6)) ?_
    rintro ⟨⟩ k7 ⟨m7, e7⟩
    obtain ⟨h7, same7⟩ := h6.mach (m7.frame_eq X rfl (zero_add X).symm) e7
    have s4 : Shared k3 k4 i := ⟨by rw [e4.self]; rfl, fun _ _ x _ => by rw [e4.mach]⟩
    have hshared : Shared k k6 i :=
      ((((same1 i).shared.trans s2).trans (same3 i).shared).trans s4).trans (s5.trans s6)
    -- the new address space and the trapframe are pages of the process, which were not freed
    have hmach4 : k4.mach = k2.mach := e4.mach.trans e3.mach
    have hkept6 : Kept P k1.mach.mem k6.mach.mem := fun x hx => by
      have htf : PGROUNDDOWN x ∉ ({tf}) := fun hin =>
        h1.notMem_held (Proc.mem_pages (.inl htf1))
          (mem_add.mpr (.inl (mem_singleton.mp hin ▸ hx)))
      rw [t6.mem x htf, t5.mem x htf, e3.mach, t2.mem x htf]
    have hpt6 : (k6.proc i).pagetable = some img.pagetable ∧ (k6.proc i).sz = img.sz ∧
        (k6.proc i).trapframe = some tf := by
      rw [e6.proc, e5.proc, e4.self]
      exact ⟨rfl, rfl, htfeq⟩
    have hkept7 : Kept P k1.mach.mem k7.mach.mem := fun x hx => by
      refine ((same7 i).kept x (mem_add.mpr (.inl (mem_add.mpr (.inl ?_))))).trans
        (hkept6 x hx)
      have hagree := (hkept6.mono (subset_of_le (le_add_right _ _))).agree
        b.space.root_dvd
      rw [hpt6.1, elim_some, hpt6.2.1, spacePages_congr hagree]
      exact hx
    have hword : ∀ off, off + 8 ≤ PGSIZE → load 8 k7.mach.mem (tf + off) = load 8 k6.mach.mem (tf + off) :=
      fun off hoff => (same7 i).kept.load (Proc.mem_pages (.inl hpt6.2.2))
        (hpage tf (Proc.mem_pages (.inl htf))).1 off hoff
    have htf' : ∀ {tf'}, (k.proc i).trapframe = some tf' → tf' = tf := fun ht =>
      some.inj (ht.symm.trans htf)
    refine wp_pure ⟨⟨h7, fun j hj => ?_, hshared.trans (same7 i).shared⟩,
      .done ip img hfile rfl ⟨?_, himg.kept b.space.root_dvd hkept7, fun tf' ht => ?_, fun tf' ht => ?_,
        fun tf' ht => ?_⟩⟩
    · have hmid := ((same3 j).trans (same4 j hj)).trans ((same5 j hj).trans (same6 j hj))
      exact (((same1 j).trans (same2 j hj)).trans hmid).trans (same7 j)
    · rw [e7.proc, e6.proc, e5.proc, e4.proc, e3.self, e3.proc, e2.proc, e1.proc,
        Function.update_idem]
      rfl
    · rw [htf' ht, hword _ (by decide), m6, m5, hmach4, m2]
      exact (load_trapframe ..).1
    · rw [htf' ht, hword _ (by decide), m6, m5, hmach4, m2]
      exact (load_trapframe ..).2.2
    · rw [htf' ht, hword _ (by decide), m6, m5, hmach4, m2]
      exact (load_trapframe ..).2.1

/-! ## `sys_exec` -/

theorem wp_fetchaddr (hr : (k.proc i).pagetable = some root) (addr : Nat) :
    wp (fetchaddr i addr) (fun _ k' => k' = k) k := by
  rw [fetchaddr]
  refine wp_bind (wp_get ?_)
  dsimp only
  split
  · exact wp_pure rfl
  · refine wp_bind (wp_deref hr ?_)
    refine wp_bind (wp_zoom ⟨_, _, copyin_eq k.mach root addr 8, ?_⟩)
    split
    · exact wp_pure rfl
    · exact wp_pure rfl

theorem wp_fetchstr (hr : (k.proc i).pagetable = some root) (addr max : Nat) :
    wp (fetchstr i addr max) (fun r k' => k' = k ∧ r.2.length ≤ max) k := by
  rw [fetchstr]
  refine wp_bind (wp_get (wp_bind (wp_deref hr ?_)))
  exact wp_zoom ⟨_, _, copyinstr_eq k.mach root addr max, rfl, length_copyinstr_le ..⟩

/-- **The loop of `sys_exec`** takes pages out of the free list and holds them. -/
theorem wp_fetchArgs (uargv n : Nat) (argv : List Nat) (h : KInv k ((argv : Multiset Nat) + X) Y ∅)
    (hr : (k.proc i).pagetable = some root) :
    wp (fetchArgs i uargv n argv) (fun r k' => Moves (argv : Multiset Nat) r.2
      k.mach k'.mach ∧ MachOnly k k') k := by
  induction n generalizing k argv with
  | zero => exact wp_pure ⟨Moves.refl _ _, MachOnly.refl k⟩
  | succ n ih =>
    rw [fetchArgs]
    refine wp_seq (wp_fetchaddr hr _) ?_
    rintro r _ rfl
    cases r with
    | none => exact wp_pure ⟨Moves.refl _ _, MachOnly.refl _⟩
    | some uarg =>
      dsimp only
      split
      · exact wp_pure ⟨Moves.refl _ _, MachOnly.refl _⟩
      refine wp_seq (wp_onMach (wp_kalloc_moves h.idle)) ?_
      rintro r k1 ⟨⟨rfl, m1⟩ | ⟨pa, rfl, hpage, m1⟩, e1⟩
      · exact wp_pure ⟨m1.frame_eq _ (zero_add _).symm (zero_add _).symm, e1⟩
      have hr1 : (k1.proc i).pagetable = some root := by rw [e1.proc, hr]
      refine wp_seq (wp_fetchstr hr1 uarg PGSIZE) ?_
      rintro ⟨r, b⟩ _ ⟨rfl, hlen⟩
      refine wp_seq (wp_onMach (wp_memput (asStore b) hpage.1 le_rfl
        (Nat.add_le_add_left hlen pa))) ?_
      rintro ⟨⟩ k2 ⟨⟨ht2, hf2, hre2⟩, e2⟩
      -- the new page is the last of the argument pages
      have hargs : ((argv ++ [pa] : List Nat)) = {pa} + (argv : Multiset Nat) := by
        rw [← coe_add, coe_singleton, add_comm]
      have m2 : Moves (argv : Multiset Nat) ((argv ++ [pa] : List Nat)) _ k2.mach :=
        (m1.trans (ht2.moves hf2 hre2)).frame_eq _ (zero_add _).symm hargs
      have e := e1.trans e2
      split
      · exact wp_pure ⟨m2, e⟩
      · refine wp_mono (ih _ (h.mach (m2.frame X) e).1 (by rw [e2.proc, hr1])) ?_
        rintro r k3 ⟨m3, e3⟩
        exact ⟨m2.trans m3, e.trans e3⟩

theorem wp_kfreeArgs (argv : List Nat) (h : KInv k ((argv : Multiset Nat) + X) Y ∅) :
    wp (kfreeArgs argv) (fun _ k' => Moves (argv : Multiset Nat) 0 k.mach k'.mach ∧ MachOnly k k') k := by
  induction argv generalizing k with
  | nil => exact wp_pure ⟨Moves.refl _ _, MachOnly.refl k⟩
  | cons pa argv ih =>
    rw [← cons_coe, ← singleton_add] at h ⊢
    have hidle := h.idle
    rw [add_assoc, add_left_comm, singleton_add] at hidle
    refine wp_seq (wp_onMach (wp_kfree_moves hidle)) ?_
    rintro ⟨⟩ k1 ⟨m1, e1⟩
    have m1' := m1.frame_eq (argv : Multiset Nat) rfl (zero_add _).symm
    refine wp_mono (ih (h.mach (m1'.frame X) e1).1) ?_
    rintro ⟨⟩ k2 ⟨m2, e2⟩
    exact ⟨m1'.trans m2, e1.trans e2⟩

/-- How `sys_exec` ends: it has read a path and arguments, and the image is installed; or the processes
and the set of free pages are as before. -/
inductive SysExecEnds (fs : List Byte → Option (List Byte)) (i : Fin NPROC) (upath uargv : Nat)
    (k : Kernel) (r : Int) (k' : Kernel) : Prop
  | done (c : Int) (path ip : List Byte) (argv : List Nat) (img : Image) (k₁ : Kernel)
      (hpath : fetchstr i upath MAXPATH k = .ok ((c, path), k)) (hfile : fs path = some ip)
      (hargs : fetchArgs i uargv MAXARG [] k = .ok ((true, argv), k₁)) (hr : r = img.argc)
      (hproc : k₁.proc = k.proc) (himg : Installed path ip argv i img k₁ k')
  | failed (hr : r = -1) (hproc : k'.proc = k.proc) (hsame : ∀ j, Same k k' j)
      (hfree : (k'.mach.freelist : Multiset Nat) = k.mach.freelist)

/-- The argument pages are given back. -/
theorem Installed.quiet
    (h : Installed path ip argv i img k k') (h' : KInv k' X Y ∅) (e : MachOnly k' k'')
    (hsame : Same k' k'' i) (htf : (k.proc i).trapframe = some tf) :
    Installed path ip argv i img k k'' := by
  have hself : (k'.proc i).pagetable = some img.pagetable ∧ (k'.proc i).sz = img.sz ∧
      (k'.proc i).trapframe = some tf := by
    rw [h.proc, Function.update_self]
    exact ⟨rfl, rfl, htf⟩
  obtain ⟨hpt, hsz, htf'⟩ := hself
  obtain ⟨_, _, -, -, hs⟩ := (h'.proc i).space _ hpt
  have hpage := (h'.idle_proc i).page tf (mem_add.mpr (.inr (mem_add.mpr (.inl
    (mem_add.mpr (.inl (Proc.mem_pages (.inl htf'))))))))
  have hword : ∀ tf', (k.proc i).trapframe = some tf' → ∀ off, off + 8 ≤ PGSIZE →
      load 8 k''.mach.mem (tf' + off) = load 8 k'.mach.mem (tf' + off) := by
    intro tf'' ht off hoff
    obtain rfl := some.inj (htf.symm.trans ht)
    exact hsame.kept.load (Proc.mem_pages (.inl htf')) hpage.1 off hoff
  refine ⟨e.proc.trans h.proc, h.image.kept hs.root_dvd (hsame.kept.mono fun q hq => ?_),
    fun tf' ht => (hword tf' ht _ (by decide)).trans (h.a1 tf' ht),
    fun tf' ht => (hword tf' ht _ (by decide)).trans (h.sp tf' ht),
    fun tf' ht => (hword tf' ht _ (by decide)).trans (h.epc tf' ht)⟩
  rw [Proc.pages, hpt, hsz]
  exact mem_add.mpr (.inl (mem_add.mpr (.inl hq)))

section

variable (h : KInv k X Y ∅) (hrun : (k.proc i).state = .RUNNABLE)
  (fs : List Byte → Option (List Byte))

include h hrun fs

/-- **`sys_exec`** keeps the invariant, whatever the user passes. -/
theorem wp_sysExec_ends (upath uargv : Nat) :
    wp (sysExec fs i upath uargv) (fun r k' => (KInv k' X Y ∅ ∧ (∀ j ≠ i, Same k k' j) ∧ Shared k k' i) ∧
      SysExecEnds fs i upath uargv k r k') k := by
  obtain ⟨root, tf, us, hr, htf, hus, hs⟩ := h.live (i := i) (by rw [hrun]; decide)
  -- on every way that fails, pages were taken and given back
  have fail : ∀ {k' : Kernel}, Moves 0 0 k.mach k'.mach → MachOnly k k' →
      (KInv k' X Y ∅ ∧ (∀ j ≠ i, Same k k' j) ∧ Shared k k' i) ∧
        SysExecEnds fs i upath uargv k (-1) k' := by
    intro k' m e
    obtain ⟨h', same⟩ := h.mach (m.frame_eq X (zero_add X).symm (zero_add X).symm) e
    exact ⟨⟨h', fun j _ => same j, (same i).shared⟩,
      .failed rfl e.proc same (by simpa using m.pages)⟩
  rw [sysExec]
  refine wp_seq (wp_run (wp_fetchstr hr upath MAXPATH)) ?_
  rintro ⟨c, path⟩ k0 ⟨hpath, rfl, -⟩
  dsimp only
  split
  · exact wp_pure (fail (Moves.refl _ _) (MachOnly.refl _))
  have h0 : KInv k0 (([] : List Nat) + X) Y ∅ := by
    rw [coe_nil, zero_add]
    exact h
  refine wp_seq (wp_run (wp_fetchArgs uargv MAXARG [] h0 hr)) ?_
  rintro ⟨ok, argv⟩ k1 ⟨hfetch, m1, e1⟩
  obtain ⟨h1, same1⟩ := h0.mach (m1.frame X) e1
  cases ok with
  | true =>
    rw [if_pos rfl]
    refine wp_seq (wp_exec h1 (by rwa [e1.proc]) fs path fun a ha =>
      mem_add.mpr (.inl ha)) ?_
    rintro ret k2 ⟨⟨h2, same2, s2⟩, hends⟩
    refine wp_seq (wp_kfreeArgs argv h2) ?_
    rintro ⟨⟩ k3 ⟨m3, e3⟩
    obtain ⟨h3, same3⟩ := h2.mach (m3.frame_eq X rfl (zero_add X).symm) e3
    rcases hends with ⟨ip, img, hfile, rfl, himg⟩ | ⟨rfl, m2, e2, -⟩
    · have htf1 : (k1.proc i).trapframe = some tf := by rw [e1.proc, htf]
      exact wp_pure ⟨⟨h3, fun j hj => ((same1 j).trans (same2 j hj)).trans (same3 j),
        ((same1 i).shared.trans s2).trans (same3 i).shared⟩,
        .done c path ip argv img k1 hpath hfile hfetch rfl e1.proc (himg.quiet h2 e3 (same3 i) htf1)⟩
    · have m2' := m2.frame_eq (argv : Multiset Nat) (zero_add _).symm (zero_add _).symm
      exact wp_pure (fail ((m1.trans m2').trans m3) ((e1.trans e2).trans e3))
  | false =>
    refine wp_seq (wp_kfreeArgs argv h1) ?_
    rintro ⟨⟩ k2 ⟨m2, e2⟩
    exact wp_pure (fail (m1.trans m2) (e1.trans e2))

theorem wp_sysExec (upath uargv : Nat) :
    wp (sysExec fs i upath uargv)
      (fun _ k' => KInv k' X Y ∅ ∧ (∀ j ≠ i, Same k k' j) ∧ Shared k k' i) k :=
  wp_mono (wp_sysExec_ends h hrun fs upath uargv) fun _ _ h' => h'.1

end

end Xv6
