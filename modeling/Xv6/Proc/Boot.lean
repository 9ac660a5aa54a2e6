/-
# Xv6.Proc.Boot — from power-on to the first process.

`main` hands memory to the allocator, takes the pages that the kernel keeps for good (its page table,
the kernel stacks, the rings of the disk), and makes the first process.  `userinit` does not look at
what `mappages` returns: when that fails, the first process has a size but no page, and its memory is
no address space of that size.  Otherwise the invariant holds.
-/
import Xv6.Proc.Exec
import Xv6.Proc.Exit
import Xv6.Proc.Fork

namespace Xv6

open Lib Lib.Store Lib.Prog Multiset Finset Nat

variable {kend trampoline : Nat}

/-! ## Definitions -/

/-- An entry of the process table in the zeroed data segment. -/
def noProc : Proc :=
  { state := .UNUSED, killed := false, xstate := 0, pid := 0, parent := none, sz := 0,
    pagetable := none, trapframe := none, usyscall := none, ofile := fun _ => none, name := [],
    guard := none }

/-- An entry of the file table in the zeroed data segment. -/
def noFile : File := { type := .FD_NONE, ref := 0, readable := false, writable := false, pipe := 0 }

/-- The kernel when `main` starts; `fails` says which calls of `kalloc` will fail. -/
def cold (kend trampoline : Nat) (mem : Store) (fails : List Bool) : Kernel :=
  { mach := { kend, trampoline, mem, freelist := [], fails, refreed := false }
    proc := fun _ => noProc, ftable := fun _ => noFile, nextpid := 1, initproc := none }

/-- The pages that the kernel allocates at boot and never frees; there is a `panic` if one is
missing. -/
def kallocs : Nat → Prog Kernel (List Nat)
  | 0 => pure []
  | n + 1 => do
    match ← onMach kalloc with
    | none => kpanic "kalloc"
    | some pa => do
      let pages ← kallocs n
      pure (pa :: pages)

/-- What `main` does to memory and processes, with `n` permanent pages. -/
def boot (n : Nat) : Prog Kernel (List Nat) := do
  onMach kinit
  let pages ← kallocs n
  userinit
  pure pages

/-- The first process has its page: `userinit` found memory for the table. -/
def firstPage (k : Kernel) : Bool :=
  (k.initproc.bind fun i => (k.proc i).pagetable).any fun root =>
    decide (ptEntry k.mach.mem root 0 ≠ 0)

/-! ## The allocator -/

variable {s : Mach}

theorem freerangeLoop_run (n p : Nat) (hp : PGSIZE ∣ p) (hlo : s.kend ≤ p)
    (hhi : p + n * PGSIZE ≤ PHYSTOP) (hnew : ∀ q ∈ s.freelist, q < p) (hre : s.refreed = false) :
    wp (freerangeLoop n p) (fun _ s' => (s'.freelist : Multiset Nat) =
      (((List.range n).map fun i => p + i * PGSIZE : List Nat) : Multiset Nat) + s.freelist ∧
      s'.refreed = false ∧ s'.kend = s.kend ∧ s'.trampoline = s.trampoline) s := by
  induction n generalizing p s with
  | zero => exact wp_pure ⟨by simp, hre, rfl, rfl⟩
  | succ n ih =>
    rw [freerangeLoop]
    have hpos : 0 < PGSIZE := by decide
    rw [succ_mul] at hhi
    refine wp_seq (kfree_spec ⟨hp, hlo, by omega⟩) ?_
    rintro ⟨⟩ s1 ⟨hfree, ht, hre1⟩
    have hnot : p ∉ s.freelist := fun hin => absurd (hnew p hin) (lt_irrefl p)
    refine wp_mono (ih (p + PGSIZE) (Dvd.dvd.add hp dvd_rfl) ?_ ?_ ?_ ?_) ?_
    · rw [ht.kend]
      omega
    · omega
    · intro q hq
      rw [hfree] at hq
      rcases List.mem_cons.mp hq with rfl | hin
      · omega
      · have := hnew q hin
        omega
    · rw [hre1, hre, List.contains_eq_mem, decide_eq_false hnot]
      rfl
    · rintro ⟨⟩ s2 ⟨hfree2, hre2, hk2, ht2⟩
      refine ⟨?_, hre2, hk2.trans ht.kend, ht2.trans ht.trampoline⟩
      have hmap : (fun i => p + PGSIZE + i * PGSIZE) = (fun i => p + i * PGSIZE) ∘ Nat.succ := by
        funext i
        rw [Function.comp_apply, succ_mul]
        omega
      rw [hfree2, hfree, List.range_succ_eq_map, List.map_cons, List.map_map, ← hmap, zero_mul,
        add_zero, ← cons_coe, ← cons_coe, add_cons, cons_add]

theorem PGROUNDUP_kend (h : kend ≤ PHYSTOP) :
    PGSIZE ∣ PGROUNDUP kend ∧ kend ≤ PGROUNDUP kend ∧ PGROUNDUP kend ≤ PHYSTOP := by
  refine ⟨Dvd.intro_left _ rfl, ?_, ?_⟩
  · unfold PHYSTOP KERNBASE at h
    unfold PGROUNDUP PGSIZE
    omega
  · have htop : PHYSTOP = PHYSTOP / PGSIZE * PGSIZE := by decide
    rw [htop]
    refine mul_le_mul_right PGSIZE ?_
    unfold PHYSTOP KERNBASE PGSIZE at *
    omega

/-- **`kinit`** puts every page after the kernel on the free list. -/
theorem wp_kinit (hk : s.kend ≤ PHYSTOP) (hfree : s.freelist = []) (hre : s.refreed = false) :
    wp kinit (fun _ s' => (s'.freelist : Multiset Nat) = (ramPages s.kend : Multiset Nat) ∧
      s'.refreed = false ∧ s'.kend = s.kend ∧ s'.trampoline = s.trampoline) s := by
  rw [kinit]
  refine wp_bind (wp_get ?_)
  obtain ⟨hdvd, hlo, hhi⟩ := PGROUNDUP_kend hk
  refine wp_mono (freerangeLoop_run _ _ hdvd hlo ?_ (by simp [hfree]) hre) ?_
  · have := div_mul_le_self (PHYSTOP - PGROUNDUP s.kend) PGSIZE
    omega
  · rintro ⟨⟩ s' ⟨hf, hr⟩
    rw [hfree, coe_nil, add_zero] at hf
    exact ⟨hf, hr⟩

/-! ## The first process -/

variable {k k' : Kernel} {X : Multiset Nat} {n : Nat}

theorem wp_kinit_cold (mem : Store) (fails : List Bool) (hk : KERNBASE ≤ kend ∧ kend ≤ PHYSTOP)
    (ht : PGSIZE ∣ trampoline ∧ trampoline < kend) :
    wp (onMach kinit) (fun _ k => KInv k 0 0 ∅) (cold kend trampoline mem fails) := by
  refine wp_mono (wp_onMach (wp_kinit hk.2 rfl rfl)) ?_
  rintro ⟨⟩ k ⟨⟨hfree, hre, hkend, htramp⟩, e⟩
  have hproc : k.proc = fun _ => noProc := e.proc
  have hft : k.ftable = fun _ => noFile := e.ftable
  have hslots : ∀ f, (slots k.proc f).card = 0 := fun f => by
    refine card_eq_zero.mpr (eq_empty_of_forall_notMem fun x hx => ?_)
    rw [mem_slots, hproc] at hx
    cases hx
  have hnone : ∀ f, (k.ftable f).type = .FD_NONE := fun f => by
    rw [hft]
    rfl
  have hend : ∀ pi w f, ¬IsEnd k.ftable pi w f := fun pi w f hf =>
    nomatch (hnone f).symm.trans hf.1
  have hpipes : pipes k.ftable = ∅ := by
    refine eq_empty_of_forall_notMem fun pi hpi => ?_
    obtain ⟨w, f, hf⟩ := mem_pipes.mp hpi
    exact hend pi w f hf
  have hheld : k.held = 0 := by
    have hpages : ∀ i, (k.proc i).pages k.mach.mem = 0 := fun i => by
      rw [hproc]
      rfl
    rw [Kernel.held, hpipes, sum_eq_zero fun i _ => hpages i, empty_val, add_zero]
  refine ⟨?_, ?_, ?_, hre, fun i => ?_, fun i _ => ?_, fun f => ?_, fun f _ => hnone f, fun f _ => ?_,
    fun pi w f g hf => absurd hf (hend pi w f), fun f hf => ?_, fun pi hpi => ?_⟩
  · rw [hkend]
    exact hk
  · rw [hkend, htramp]
    exact ht
  · rw [hheld, add_zero, add_zero, hfree, hkend]
  · rw [hproc]
    exact ProcOk.of_none rfl rfl
  · rw [hproc]
    exact ⟨fun _ => ⟨rfl, rfl, rfl, fun _ => rfl⟩, fun hne => absurd rfl hne, fun _ _ => rfl⟩
  · rw [hslots, hft]
    rfl
  · rw [hslots]
    exact le_max_left 0 _
  · exact nomatch (hnone f).symm.trans hf
  · rw [hpipes] at hpi
    exact absurd hpi (notMem_empty pi)

theorem wlp_kallocs (h : KInv k X 0 ∅) (n : Nat) :
    wlp (kallocs n) (fun r k' => KInv k' ((r : Multiset Nat) + X) 0 ∅) k := by
  induction n generalizing k X with
  | zero => exact wlp_pure (by rwa [coe_nil, zero_add])
  | succ n ih =>
    rw [kallocs]
    refine wlp_seq (wp_onMach (wp_kalloc_moves h.idle)).wlp ?_
    rintro r k1 ⟨⟨rfl, m1⟩ | ⟨pa, rfl, hpage, m1⟩, e1⟩
    · exact wlp_stop
    obtain ⟨h1, -⟩ := h.mach (m1.frame_eq _ (zero_add _).symm rfl) e1
    refine wlp_seq (ih h1) ?_
    rintro pages k2 h2
    refine wlp_pure ?_
    rwa [← cons_coe, cons_add, ← add_cons, ← singleton_add]

/-- **`uvmfirst`** maps page 0; or it finds no page for the table, and then nothing is mapped and the
page that it filled is lost. -/
theorem Space.wlp_uvmfirst {root tf us : Nat} {F : Multiset Nat}
    (hs : Space s.mem trampoline root 0 tf us none) (h : Idle s (spacePages s.mem root 0 + F))
    (src : List Byte) :
    wlp (uvmfirst root src) (fun _ s' =>
      (Moves (spacePages s.mem root 0) (spacePages s'.mem root PGSIZE) s s' ∧
        Space s'.mem trampoline root PGSIZE tf us none) ∨
      ∃ p, Moves (spacePages s.mem root 0) (spacePages s'.mem root 0 + {p}) s s' ∧
        Space s'.mem trampoline root 0 tf us none) s := by
  obtain ⟨h1, h2, h3, h4⟩ := vUSYSCALL_lt
  have hown : Own s root 0 := hs.own' h
  have hone : npages PGSIZE = 1 := by decide
  rw [uvmfirst]
  split
  · exact wlp_stop
  rename_i hlen
  refine wlp_seq hown.wp_kalloc.wlp ?_
  rintro r t ⟨hsame, ⟨rfl, -, -⟩ | ⟨p, rfl, hpf, hto, hu, hfree⟩⟩
  · exact wlp_stop
  refine Prog.wp.wlp ?_
  refine wp_bind (wp_modify ?_)
  have hzero : ptEntry s.mem root 0 = 0 := hs.unmapped (zero_le 0) (by decide)
  have hmap := hown.wp_newPage (v := 0) (PTE_W ||| PTE_R ||| PTE_X ||| PTE_U) (by decide)
    (by rw [hzero]; exact BitVec.zero_and) hpf hto hu hsame hfree fun _ => 0
  rw [zero_mul] at hmap
  have hpage : s.IsPage p := hown.tblOk.free p hpf
  have hfit : p + src.length ≤ p + PGSIZE := by omega
  refine wp_seq hmap ?_
  rintro r s1 (⟨rfl, hnew⟩ | ⟨rfl, hu1, hsame1⟩)
  · refine wp_mono (wp_memput (fun i => src.getD i 0) hpage.1 le_rfl hfit) ?_
    rintro ⟨⟩ s2 ⟨ht, hf, hre⟩
    have hent := hnew.entry
    have he0 : ptEntry s1.mem root 0 = leafPte p (PTE_W ||| PTE_R ||| PTE_X ||| PTE_U) := by
      rw [hent 0 (by decide), if_pos rfl]
    have hmapped : mapped (ptEntry s1.mem root) 0 (npages PGSIZE) = [p] := by
      rw [hone, mapped_succ, he0, PTE2PA_leafPte hpage (by decide)]
      rfl
    have hs1 : Space s1.mem trampoline root PGSIZE tf us none := by
      refine ⟨hs.root_dvd, hnew.uvm.linked, by decide, ?_, fun v hv _ => ?_⟩
      · rw [hone]
        refine hs.layout.resize (by decide) (fun v hv => ?_) (fun v hv hlt => ?_) fun v hv hge => ?_
        · obtain rfl : v = 0 := by omega
          rw [he0, getLsbD_leafPte p _ (by omega), getLsbD_leafPte p _ (by omega)]
          decide
        · rw [hent v (by omega), if_neg (by omega)]
          exact hs.unmapped (zero_le v) hlt
        · rw [hent v hv, if_neg]
          rintro rfl
          exact absurd hge (by decide)
      · obtain rfl : v = 0 := by omega
        rw [he0, getLsbD_leafPte p _ (by omega)]
        decide
    have hown1 : Own s1 root {p} := hown.uvm hnew.uvm
    obtain ⟨hs2, hpages⟩ := hs1.write hown1 ht
    refine .inl ⟨?_, hs2⟩
    have m1 := hnew.uvm.moves
    rw [add_zero, ← spacePages_zero] at m1
    have hsp : spacePages s1.mem root PGSIZE = ptPages s1.mem root + {p} := by
      rw [spacePages, hmapped]
      rfl
    rw [hpages, hsp]
    refine m1.trans ((ht.mono ?_).moves hf hre)
    exact subset_of_le (le_add_left _ _)
  · refine wp_mono (wp_memput (fun i => src.getD i 0) hpage.1 le_rfl hfit) ?_
    rintro ⟨⟩ s2 ⟨ht, hf, hre⟩
    have hs1 := (hs.same hu1.linked fun w _ => hsame1 w).1
    obtain ⟨hs2, hpages⟩ := hs1.write (hown.uvm hu1) ht
    refine .inr ⟨p, ?_, hs2⟩
    have m1 := hu1.moves
    rw [add_zero, ← spacePages_zero] at m1
    rw [hpages, spacePages_zero s1.mem]
    refine m1.trans ((ht.mono ?_).moves hf hre)
    exact subset_of_le (le_add_left _ _)

/-- **`userinit`** sets the invariant up if it found memory; the first process sees its pid. -/
theorem wlp_userinit (h : KInv k X 0 ∅) :
    wlp userinit (fun _ k' => firstPage k' = true → KInv k' X 0 ∅ ∧
      ∃ i, k'.ShowsPid i ∧ ∀ j ≠ i, k'.proc j = k.proc j) k := by
  rw [userinit]
  refine wlp_seq (wp_allocproc h).wlp ?_
  rintro r k1 (⟨rfl, -⟩ | ⟨i, rfl, hun, w1, hnew, hpid1⟩)
  · exact wlp_seq (P := fun _ _ => True) (fun _ _ _ => trivial) fun _ _ _ => wlp_bind wlp_stop
  obtain ⟨h1, -⟩ := w1.kinv_new h hnew
  refine wlp_seq (P := fun _ k2 => k2.mach = k1.mach ∧ k2.proc = k1.proc ∧ k2.ftable = k1.ftable ∧
    k2.initproc = some i) (wp_modify ⟨rfl, rfl, rfl, rfl⟩).wlp ?_
  rintro ⟨⟩ k2 ⟨hm2, hp2, hf2, hi2⟩
  have hset : ∀ j ∉ (∅ : Finset (Fin NPROC)), (k2.proc j).Settled := fun j hj => by
    rw [hp2]
    exact h1.settled j hj
  obtain ⟨h2, -⟩ := h1.fields _ hm2 hf2 (fun j => by rw [hp2]; exact Proc.Alike.refl _) hset
  rw [← hp2] at hnew
  obtain ⟨root, tf, us, hr, htf, hus, hs⟩ := h2.live (i := i) (by rw [hnew.state]; decide)
  rw [hnew.size, hnew.guard] at hs
  refine wlp_bind (wp_deref rfl ?_).wlp
  refine wlp_bind (wp_get ?_).wlp
  refine wlp_bind (wp_deref hr ?_).wlp
  have hidle := h2.idle_space hr htf hus
  rw [hnew.size, add_assoc] at hidle
  refine wlp_seq (wlp_onMach (hs.wlp_uvmfirst hidle initcode)) ?_
  rintro ⟨⟩ k3 ⟨hfirst, e3⟩
  refine Prog.wp.wlp ?_
  refine wp_seq (wp_setProc i _ k3) ?_
  rintro ⟨⟩ k4 e4
  have htf4 : (k4.proc i).trapframe = some tf := by
    rw [e4.self, e3.proc, htf]
  refine wp_bind (wp_get (wp_bind (wp_deref htf4 ?_)))
  -- the trapframe
  have hpage := h2.idle.page tf (mem_add.mpr (.inr (mem_add.mpr (.inl (by
    rw [k2.held_eq i]
    exact mem_add.mpr (.inl (Proc.mem_pages (.inl htf))))))))
  have hepc : tf + TF_EPC + 8 ≤ tf + PGSIZE := Nat.add_le_add_left (by decide : TF_EPC + 8 ≤ PGSIZE) tf
  have hsp : tf + TF_SP + 8 ≤ tf + PGSIZE := Nat.add_le_add_left (by decide : TF_SP + 8 ≤ PGSIZE) tf
  refine wp_seq (wp_onMach (wp_storeWord (n := 8) 0 hpage.1 (le_add_right tf TF_EPC) hepc)) ?_
  rintro ⟨⟩ k5 ⟨⟨-, ht5, hf5, hre5⟩, e5⟩
  refine wp_seq (wp_onMach (wp_storeWord (n := 8) (BitVec.ofNat 64 PGSIZE) hpage.1
    (le_add_right tf TF_SP) hsp)) ?_
  rintro ⟨⟩ k6 ⟨⟨-, ht6, hf6, hre6⟩, e6⟩
  refine wp_mono (wp_setProc i _ k6) ?_
  rintro ⟨⟩ k7 e7 hmapped
  have hp6 : k6.proc i = { k2.proc i with sz := PGSIZE } := by
    rw [e6.proc, e5.proc, e4.self, e3.proc]
  rcases hfirst with ⟨m3, hs3⟩ | ⟨p, m3, hs3⟩
  · have w4 : Work i k2 k4 := by
      rw [← e4.mach] at m3 hs3
      refine (Work.refl h2 i).resize PGSIZE hr htf hus ?_ ?_ ?_ ?_ ?_
      · rw [e4.proc, e3.proc]
      · rw [e4.ftable, e3.ftable]
      · rw [e4.initproc, e3.initproc]
      · rw [hnew.size]
        exact m3
      · rw [hnew.guard]
        exact hs3
    have htf5 : (k5.proc i).trapframe = some tf := by rw [e5.proc, htf4]
    have w6 := (w4.write_page h2 e5 (.inl htf4) ht5 hf5 hre5).write_page h2 e6 (.inl htf5) ht6 hf6
      hre6
    obtain ⟨h6, -⟩ := w6.kinv h2 {i} (fun _ _ _ => notMem_empty _) fun hi =>
      absurd (Finset.mem_singleton_self i) hi
    have hset7 : Proc.Settled { k6.proc i with
        name := [0x69, 0x6e, 0x69, 0x74, 0x63, 0x6f, 0x64, 0x65], state := .RUNNABLE } := by
      refine ⟨fun hz => (nomatch hz), fun _ => ?_, fun hz => (nomatch hz)⟩
      rw [hp6]
      exact hnew.pagetable
    obtain ⟨h7, same7⟩ := h6.relabel ∅ e7 ⟨rfl, rfl, rfl, rfl, rfl, rfl⟩
      (fun j _ hj hin => hj (Finset.mem_singleton.mp hin)) fun _ => hset7
    refine ⟨h7, i, ?_, fun j hj => ?_⟩
    · have hne := h2.trapframe_ne htf
      have hshared : Shared k2 k6 i := by
        rw [← hnew.size, ← e4.mach] at m3
        refine (h2.shared_space hr htf hus m3 (by rw [e4.self, e3.proc])).trans ?_
        refine (Shared.of_touches ht5 ?_ (by rw [e5.proc])).trans
          (Shared.of_touches ht6 ?_ (by rw [e6.proc]))
        · rwa [e4.self, e3.proc]
        · rwa [e5.proc, e4.self, e3.proc]
      have hpid2 : k2.ShowsPid i := by
        rw [Kernel.ShowsPid, hm2, hp2]
        exact hpid1
      exact (hshared.trans (same7 i).shared).showsPid h2 (by rw [e7.self, hp6]) hpid2
    · rw [e7.ne hj, e6.proc, e5.proc, e4.ne hj, e3.proc, hp2, w1.proc j hj]
  · -- page 0 is not mapped, and the writes to the trapframe do not change that
    exfalso
    have hidle3 := hidle.moves (m3.frame _)
    have hq : tf ∉ ptPages k3.mach.mem root := fun hin => by
      have hnd := (nodup_add.mp hidle3.nodup).2.1
      have hmem : tf ∈ spacePages k3.mach.mem root 0 + {p} := by
        rw [spacePages_zero]
        exact mem_add.mpr (.inl hin)
      exact disjoint_left.mp (nodup_add.mp hnd).2.2 hmem (by simp)
    rw [e4.mach] at ht5
    have hs6 := (hs3.touch (ht5.trans ht6) hq).1
    have hzero : ptEntry k7.mach.mem root 0 = 0 := by
      rw [e7.mach]
      exact hs6.unmapped (zero_le 0) (by decide)
    have hinit : k7.initproc = some i := by
      rw [e7.initproc, e6.initproc, e5.initproc, e4.initproc, e3.initproc, hi2]
    have hroot : (k7.proc i).pagetable = some root := by
      rw [e7.self, hp6, hr]
    rw [firstPage, hinit, Option.bind_some, hroot, Option.any_some, hzero] at hmapped
    exact absurd hmapped (by decide)

/-! A part of the kernel that is not the machine is kept by what only the machine does. -/

section Preserves

variable {γ : Type} {p : Kernel → γ} (hp : ∀ m k, p { k with mach := m } = p k)
include hp

theorem preserves_onMach {α : Type} {x : Prog Mach α} : Preserves p (onMach x) := .zoom hp

theorem preserves_kallocs (n : Nat) : Preserves p (kallocs n) := by
  induction n with
  | zero => exact .pure
  | succ n ih =>
    refine .bind (preserves_onMach hp) fun o => ?_
    split
    · exact .stop
    · exact .bind ih fun _ => .pure

end Preserves

/-- **After `main`** the invariant holds, with the permanent pages held outside the tables. -/
theorem boot_kinv {mem : Store} {fails : List Bool} {pages : List Nat}
    (hk : KERNBASE ≤ kend ∧ kend ≤ PHYSTOP) (ht : PGSIZE ∣ trampoline ∧ trampoline < kend)
    (hboot : boot n (cold kend trampoline mem fails) = .ok (pages, k)) (hfirst : firstPage k = true) :
    KInv k pages 0 ∅ ∧ ∃ i, k.ShowsPid i ∧ ∀ j ≠ i, k.proc j = noProc := by
  have hrun : wlp (boot n) (fun pages k => firstPage k = true →
      KInv k pages 0 ∅ ∧ ∃ i, k.ShowsPid i ∧ ∀ j ≠ i, k.proc j = noProc)
      (cold kend trampoline mem fails) := by
    rw [boot]
    refine wlp_seq (wlp_and (wp_kinit_cold mem fails hk ht).wlp (preserves_onMach (p := Kernel.proc) (fun _ _ => rfl) _)) ?_
    rintro _ k1 ⟨h1, hp1⟩
    refine wlp_seq (wlp_and (wlp_kallocs h1 n) (preserves_kallocs (p := Kernel.proc) (fun _ _ => rfl) n k1)) ?_
    rintro pages k2 ⟨h2, hp2⟩
    rw [add_zero] at h2
    refine wlp_seq (wlp_userinit h2) fun _ k3 h3 => wlp_pure fun hk3 => ?_
    rw [hp2, hp1] at h3
    exact h3 hk3
  exact hrun pages k hboot hfirst

end Xv6
