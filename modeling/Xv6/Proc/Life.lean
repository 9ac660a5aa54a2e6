/-
# Xv6.Proc.Life — `allocproc`, `freeproc`, `growproc`, `fork` and `wait`.

Each function keeps the invariant of the kernel, on every way out, and leaves the processes it is not
about as they are.
-/
import Xv6.Proc.Inv

namespace Xv6

open Lib Lib.Store Lib.Prog Function Multiset Option

variable {p : Proc} {a n root tf us : Nat} {α : Type} {A : Multiset Nat} {s : Mach}

variable {k k' k'' : Kernel} {X : Multiset Nat} {Y : Fin NFILE → Int} {E : Finset (Fin NPROC)}
  {i j : Fin NPROC} {F : Multiset Nat}

/-! ## Rules -/

/-- From `k` to `k'` only the memory changed. -/
structure MachOnly (k k' : Kernel) : Prop where
  proc : k'.proc = k.proc
  ftable : k'.ftable = k.ftable
  nextpid : k'.nextpid = k.nextpid
  initproc : k'.initproc = k.initproc

theorem MachOnly.refl (k : Kernel) : MachOnly k k := ⟨rfl, rfl, rfl, rfl⟩

theorem MachOnly.trans {k k' k'' : Kernel} (h : MachOnly k k') (h' : MachOnly k' k'') :
    MachOnly k k'' :=
  ⟨h'.proc.trans h.proc, h'.ftable.trans h.ftable, h'.nextpid.trans h.nextpid,
    h'.initproc.trans h.initproc⟩

/-- From `k` to `k'` process `i` became `p`, and nothing else changed. -/
structure ProcOnly (i : Fin NPROC) (p : Proc) (k k' : Kernel) : Prop where
  mach : k'.mach = k.mach
  proc : k'.proc = update k.proc i p
  ftable : k'.ftable = k.ftable
  nextpid : k'.nextpid = k.nextpid
  initproc : k'.initproc = k.initproc

theorem ProcOnly.self (h : ProcOnly i p k k') : k'.proc i = p := by
  rw [h.proc, update_self]

theorem ProcOnly.ne (h : ProcOnly i p k k') (hj : j ≠ i) : k'.proc j = k.proc j := by
  rw [h.proc, update_of_ne hj]

theorem wp_onMach {x : Prog Mach α} {P : α → Mach → Prop} (h : wp x P k.mach) :
    wp (onMach x) (fun a k' => P a k'.mach ∧ MachOnly k k') k :=
  wp_zoom (wp_mono h fun _ _ hP => ⟨hP, rfl, rfl, rfl, rfl⟩)

theorem wlp_onMach {x : Prog Mach α} {P : α → Mach → Prop} (h : wlp x P k.mach) :
    wlp (onMach x) (fun a k' => P a k'.mach ∧ MachOnly k k') k :=
  wlp_zoom fun a m ha => ⟨h a m ha, rfl, rfl, rfl, rfl⟩

theorem wp_setProc (i : Fin NPROC) (g : Proc → Proc) (k : Kernel) :
    wp (setProc i g) (fun _ k' => ProcOnly i (g (k.proc i)) k k') k :=
  wp_modify ⟨rfl, rfl, rfl, rfl, rfl⟩

theorem wp_deref {o : Option α} {a : α} {Q : α → Kernel → Prop} (ho : o = some a) (h : Q a k) :
    wp (deref o) Q k := by
  subst ho
  exact wp_pure h

/-! ## Working on one process -/

/-- From `k` to `k'` a call worked on process `i` only, and left it with an address space. -/
structure Work (i : Fin NPROC) (k k' : Kernel) : Prop where
  proc : ∀ j ≠ i, k'.proc j = k.proc j
  ftable : k'.ftable = k.ftable
  initproc : k'.initproc = k.initproc
  moves : Moves ((k.proc i).pages k.mach.mem) ((k'.proc i).pages k'.mach.mem) k.mach k'.mach
  ok : ProcOk k'.mach.mem k'.mach.trampoline (k'.proc i)
  ofile : (k'.proc i).ofile = (k.proc i).ofile

/-- Work that the tables and the memory do not show. -/
theorem Work.of_eq (h : KInv k X Y E) (i : Fin NPROC) (hmach : k'.mach = k.mach)
    (hproc : k'.proc = k.proc) (hftable : k'.ftable = k.ftable)
    (hinit : k'.initproc = k.initproc) : Work i k k' where
  proc j _ := by rw [hproc]
  ftable := hftable
  initproc := hinit
  moves := by
    rw [hmach, hproc]
    exact Moves.refl _ _
  ok := by
    rw [hmach, hproc]
    exact h.proc i
  ofile := by rw [hproc]

theorem Work.refl (h : KInv k X Y E) (i : Fin NPROC) : Work i k k :=
  Work.of_eq h i rfl rfl rfl rfl

theorem Work.trans (w : Work i k k') (w' : Work i k' k'') : Work i k k'' where
  proc j hj := (w'.proc j hj).trans (w.proc j hj)
  ftable := w'.ftable.trans w.ftable
  initproc := w'.initproc.trans w.initproc
  moves := w.moves.trans w'.moves
  ok := w'.ok
  ofile := w'.ofile.trans w.ofile

/-- Writing fields of process `i` that are not about memory. -/
theorem Work.set (w : Work i k k') (e : ProcOnly i p k' k'')
    (hpages : p.pages k'.mach.mem = (k'.proc i).pages k'.mach.mem)
    (hok : ProcOk k'.mach.mem k'.mach.trampoline p) (hof : p.ofile = (k'.proc i).ofile) :
    Work i k k'' := by
  refine w.trans ⟨fun j hj => e.ne hj, e.ftable, e.initproc, ?_, ?_, ?_⟩
  · rw [e.self, e.mach, hpages]
    exact Moves.refl _ _
  · rw [e.self, e.mach]
    exact hok
  · rw [e.self, hof]

theorem Work.kinv (w : Work i k k') (h : KInv k X Y E) (E' : Finset (Fin NPROC))
    (hE : ∀ j ∉ E', j ≠ i → j ∉ E) (hset : i ∉ E' → (k'.proc i).Settled) :
    KInv k' X Y E' ∧ ∀ j ≠ i, Same k k' j := by
  refine h.step i (w.moves.frame X) w.ok w.ofile hE hset rfl ?_ w.ftable
  funext j
  by_cases hj : j = i
  · rw [hj, update_self]
  · rw [update_of_ne hj, w.proc j hj]

section

variable (h : KInv k X Y E) (w : Work i k k')

include h w

theorem KInv.idle_work : Idle k'.mach ((k'.proc i).pages k'.mach.mem + (X + k.rest i)) := by
  have := h.idle_proc i
  rw [add_assoc] at this
  exact this.moves (w.moves.frame _)

/-- What pages leave the free list for does not matter to process `i`. -/
theorem Work.kept {s' : Mach} (hm : Moves 0 A k'.mach s') :
    (k'.proc i).pages s'.mem = (k'.proc i).pages k'.mach.mem ∧
      ProcOk s'.mem s'.trampoline (k'.proc i) := by
  have hkept : Kept ((k'.proc i).pages k'.mach.mem) k'.mach.mem s'.mem := fun x hx => by
    refine hm.eqOff_frame (F := (k'.proc i).pages k'.mach.mem + (X + k.rest i)) ?_
      (mem_add.mpr (.inl hx))
    rw [zero_add]
    exact h.idle_work w
  rw [hm.touches.trampoline]
  exact (w.ok.kept hkept).symm

/-- Then no page left the free list. -/
theorem Work.mach (hm : Moves 0 0 k'.mach k''.mach) (e : MachOnly k' k'') : Work i k k'' := by
  obtain ⟨hpages, hok⟩ := w.kept h hm
  refine w.trans ⟨fun j _ => by rw [e.proc], e.ftable, e.initproc, ?_, ?_, by rw [e.proc]⟩
  · rw [e.proc, hpages]
    have := hm.frame ((k'.proc i).pages k'.mach.mem)
    rwa [zero_add] at this
  · rw [e.proc]
    exact hok

/-- Then pages left the free list, and process `i` became `p`, which has them. -/
theorem Work.take {k₁ k₂ : Kernel}
    (hm : Moves 0 A k'.mach k₁.mach) (e₁ : MachOnly k' k₁) (e₂ : ProcOnly i p k₁ k₂)
    (hpages : p.pages k₁.mach.mem = (k'.proc i).pages k₁.mach.mem + A)
    (hok : ProcOk k₁.mach.mem k₁.mach.trampoline p) (hof : p.ofile = (k'.proc i).ofile) :
    Work i k k₂ := by
  obtain ⟨hsame, -⟩ := w.kept h hm
  refine w.trans ⟨fun j hj => ?_, ?_, ?_, ?_, ?_, ?_⟩
  · rw [e₂.ne hj, e₁.proc]
  · rw [e₂.ftable, e₁.ftable]
  · rw [e₂.initproc, e₁.initproc]
  · rw [e₂.self, e₂.mach, hpages, hsame, add_comm]
    have := hm.frame ((k'.proc i).pages k'.mach.mem)
    rwa [zero_add] at this
  · rw [e₂.self, e₂.mach]
    exact hok
  · rw [e₂.self, hof]

end

/-- Then pages of process `i` that are not part of its table were written. -/
theorem Work.write (w : Work i k k') (e : MachOnly k' k'') (ht : Touches A k'.mach k''.mach)
    (hfree : k''.mach.freelist = k'.mach.freelist) (hre : k''.mach.refreed = k'.mach.refreed)
    (hA : A ⊆ (k'.proc i).pages k'.mach.mem)
    (hA' : ∀ q ∈ A, ∀ root, (k'.proc i).pagetable = some root → q ∉ ptPages k'.mach.mem root) :
    Work i k k'' := by
  have hagree : ∀ root, (k'.proc i).pagetable = some root →
      ptRadix.Agree (ptPages k'.mach.mem root) k'.mach.mem k''.mach.mem := fun root hr => by
    obtain ⟨tf, us, -, -, hs⟩ := w.ok.space root hr
    exact agree_eqOff ht.mem fun p hp =>
      ⟨dvd_of_mem_nodes hs.root_dvd hp, fun hq => hA' p hq root hr hp⟩
  obtain ⟨hok, hpages⟩ := w.ok.congr hagree
  refine w.trans ⟨fun j _ => by rw [e.proc], e.ftable, e.initproc, ?_, ?_, by rw [e.proc]⟩
  · rw [e.proc, hpages]
    exact (ht.mono hA).moves hfree hre
  · rw [e.proc, ht.trampoline]
    exact hok

/-- A write to the trapframe or to the shared page. -/
theorem Work.write_page (h : KInv k X Y E) (w : Work i k k') (e : MachOnly k' k'') {q : Nat}
    (hq : (k'.proc i).trapframe = some q ∨ (k'.proc i).usyscall = some q)
    (ht : Touches {q} k'.mach k''.mach) (hfree : k''.mach.freelist = k'.mach.freelist)
    (hre : k''.mach.refreed = k'.mach.refreed) : Work i k k'' := by
  have hnd : ((k'.proc i).pages k'.mach.mem).Nodup := by
    refine nodup_of_le ?_ (h.idle_work w).nodup
    exact (le_add_right _ _).trans (le_add_left _ _)
  refine w.write e ht hfree hre (singleton_subset.mpr (Proc.mem_pages hq)) ?_
  intro x hx root hr
  rw [mem_singleton.mp hx]
  exact Proc.notMem_ptPages hnd hr hq

theorem Proc.pages_eq {m : Store} (hr : p.pagetable = some root) (htf : p.trapframe = some tf)
    (hus : p.usyscall = some us) : p.pages m = spacePages m root p.sz + {tf} + {us} := by
  rw [Proc.pages, hr, htf, hus]
  rfl

/-- Then the address space changed, and with it what the process says about it. -/
theorem Work.space (w : Work i k k') (root' : Nat) (hr : (k'.proc i).pagetable = some root)
    (htf : (k'.proc i).trapframe = some tf) (hus : (k'.proc i).usyscall = some us)
    (hproc : ∀ j ≠ i, k''.proc j = k'.proc j) (hftable : k''.ftable = k'.ftable)
    (hinit : k''.initproc = k'.initproc) (hr' : (k''.proc i).pagetable = some root')
    (htf' : (k''.proc i).trapframe = some tf) (hus' : (k''.proc i).usyscall = some us)
    (hof : (k''.proc i).ofile = (k'.proc i).ofile)
    (hm : Moves (spacePages k'.mach.mem root (k'.proc i).sz)
      (spacePages k''.mach.mem root' (k''.proc i).sz) k'.mach k''.mach)
    (hs : Space k''.mach.mem k'.mach.trampoline root' (k''.proc i).sz tf us (k''.proc i).guard) :
    Work i k k'' := by
  refine w.trans ⟨hproc, hftable, hinit, ?_, ⟨fun r hr => ?_, fun hr => ?_⟩, hof⟩
  · rw [Proc.pages_eq hr htf hus, Proc.pages_eq hr' htf' hus', add_assoc, add_assoc]
    exact hm.frame _
  · rw [hr'] at hr
    cases hr
    rw [hm.touches.trampoline]
    exact ⟨tf, us, htf', hus', hs⟩
  · rw [hr'] at hr
    cases hr

/-- Then the address space got another size. -/
theorem Work.resize (w : Work i k k') (sz : Nat) {root tf us : Nat}
    (hr : (k'.proc i).pagetable = some root)
    (htf : (k'.proc i).trapframe = some tf) (hus : (k'.proc i).usyscall = some us)
    (hproc : k''.proc = update k'.proc i { k'.proc i with sz := sz })
    (hftable : k''.ftable = k'.ftable) (hinit : k''.initproc = k'.initproc)
    (hm : Moves (spacePages k'.mach.mem root (k'.proc i).sz) (spacePages k''.mach.mem root sz)
      k'.mach k''.mach)
    (hs : Space k''.mach.mem k'.mach.trampoline root sz tf us (k'.proc i).guard) :
    Work i k k'' := by
  have hself : k''.proc i = { k'.proc i with sz := sz } := by rw [hproc, update_self]
  refine w.space root hr htf hus (fun j hj => ?_) hftable hinit ?_ ?_ ?_ ?_ ?_ ?_
  · rw [hproc, update_of_ne hj]
  all_goals rw [hself]
  all_goals assumption

/-- A live process stays one. -/
theorem Work.kinv_live (w : Work i k k') (h : KInv k X Y ∅) (hlive : (k.proc i).state ≠ .UNUSED)
    (hstate : (k'.proc i).state = (k.proc i).state) (hpt : (k'.proc i).pagetable ≠ none) :
    KInv k' X Y ∅ ∧ ∀ j ≠ i, Same k k' j := by
  refine w.kinv h ∅ (fun _ _ _ => Finset.notMem_empty _) fun _ =>
    ⟨fun hun => ?_, fun _ => hpt, ?_⟩
  · exact absurd (hstate ▸ hun) hlive
  · rw [hstate, w.ofile]
    exact (h.settled i (Finset.notMem_empty i)).zombie

/-- The address space changed, with the same size. -/
theorem KInv.respace (h : KInv k X Y E) (e : MachOnly k k') (hr : (k.proc i).pagetable = some root)
    (htf : (k.proc i).trapframe = some tf) (hus : (k.proc i).usyscall = some us)
    (hm : Moves (spacePages k.mach.mem root (k.proc i).sz)
      (spacePages k'.mach.mem root (k.proc i).sz) k.mach k'.mach)
    (hs : Space k'.mach.mem k.mach.trampoline root (k.proc i).sz tf us (k.proc i).guard) :
    KInv k' X Y E ∧ ∀ j ≠ i, Same k k' j := by
  have w : Work i k k' := by
    refine (Work.refl h i).resize _ hr htf hus ?_ e.ftable e.initproc hm hs
    rw [e.proc]
    exact (update_eq_self i k.proc).symm
  refine w.kinv h E (fun j hj _ => hj) fun hi => ?_
  rw [e.proc]
  exact h.settled i hi

/-- What a live process has. -/
theorem KInv.live (h : KInv k X Y ∅) (hlive : (k.proc i).state ≠ .UNUSED) :
    ∃ root tf us, (k.proc i).pagetable = some root ∧ (k.proc i).trapframe = some tf ∧
      (k.proc i).usyscall = some us ∧
      Space k.mach.mem k.mach.trampoline root (k.proc i).sz tf us (k.proc i).guard := by
  obtain ⟨root, hr⟩ := ne_none_iff_exists'.mp
    ((h.settled i (Finset.notMem_empty i)).used hlive)
  obtain ⟨tf, us, htf, hus, hs⟩ := (h.proc i).space root hr
  exact ⟨root, tf, us, hr, htf, hus, hs⟩

theorem wp_storeWord {p : Nat} (v : BitVec (8 * n)) (hp : PGSIZE ∣ p) (h₁ : p ≤ a)
    (h₂ : a + n ≤ p + PGSIZE) :
    wp (storeWord n a v) (fun _ s' => s'.mem = store n s.mem a v ∧ Touches {p} s s' ∧
      s'.freelist = s.freelist ∧ s'.refreed = s.refreed) s :=
  wp_modify ⟨rfl, ⟨rfl, rfl, eqOff_store _ _ hp h₁ h₂⟩, rfl, rfl⟩

theorem wp_memmove {p : Nat} (src : Nat) (hp : PGSIZE ∣ p) (h₁ : p ≤ a) (h₂ : a + n ≤ p + PGSIZE) :
    wp (memmove a src n) (fun _ s' => Touches {p} s s' ∧ s'.freelist = s.freelist ∧
      s'.refreed = s.refreed) s :=
  wp_modify ⟨⟨rfl, rfl, eqOff_fill s.mem (fun i => s.mem (src + i)) hp h₁ h₂⟩, rfl, rfl⟩

theorem wp_memput {p : Nat} (src : Nat → Byte) (hp : PGSIZE ∣ p) (h₁ : p ≤ a)
    (h₂ : a + n ≤ p + PGSIZE) :
    wp (memput a src n) (fun _ s' => Touches {p} s s' ∧ s'.freelist = s.freelist ∧
      s'.refreed = s.refreed) s :=
  wp_modify ⟨⟨rfl, rfl, eqOff_fill s.mem src hp h₁ h₂⟩, rfl, rfl⟩

/-! ## `freeproc` -/

theorem wp_kfreeIf {o : Option Nat} (h : Idle k.mach (o.elim 0 ({·}) + F)) :
    wp (kfreeIf o) (fun _ k' => Moves (o.elim 0 ({·})) 0 k.mach k'.mach ∧ MachOnly k k') k := by
  cases o with
  | none => exact wp_pure ⟨Moves.refl _ _, rfl, rfl, rfl, rfl⟩
  | some p =>
    refine wp_onMach (wp_kfree_moves (F := F) ?_)
    rwa [← singleton_add]

theorem wp_procFreepagetableIf {o : Option Nat} {sz : Nat}
    (h : Idle k.mach ((o.elim 0 fun root => spacePages k.mach.mem root sz) + F))
    (hs : ∀ root, o = some root → ∃ trampoline tf us guard,
      Space k.mach.mem trampoline root sz tf us guard) :
    wp (procFreepagetableIf sz o) (fun _ k' =>
      Moves (o.elim 0 fun root => spacePages k.mach.mem root sz) 0 k.mach k'.mach ∧
      MachOnly k k') k := by
  cases o with
  | none => exact wp_pure ⟨Moves.refl _ _, rfl, rfl, rfl, rfl⟩
  | some root =>
    obtain ⟨_, _, _, _, hs⟩ := hs root rfl
    exact wp_onMach (hs.wp_free h)

/-- What `freeproc` leaves of a process. -/
def Proc.freed (p : Proc) : Proc :=
  { p with
    trapframe := none, usyscall := none, pagetable := none, sz := 0, pid := 0, parent := none,
    name := [], killed := false, xstate := 0, state := .UNUSED, guard := none }

theorem Proc.freed_pages (p : Proc) (m : Store) : p.freed.pages m = 0 := rfl

theorem Proc.freed_settled (h : ∀ fd, p.ofile fd = none) : p.freed.Settled :=
  ⟨fun _ => ⟨rfl, rfl, rfl, h⟩, fun hne => absurd rfl hne, fun hz => nomatch hz⟩

theorem procOk_freed (m : Store) (trampoline : Nat) (p : Proc) : ProcOk m trampoline p.freed :=
  ⟨fun _ hr => (nomatch hr), fun _ => rfl⟩

theorem ProcOk.of_none {m : Store} {trampoline : Nat} (hpt : p.pagetable = none) (hsz : p.sz = 0) :
    ProcOk m trampoline p :=
  ⟨fun _ hr => (nomatch hpt.symm.trans hr), fun _ => hsz⟩

/-- The pages of a process go back to the free list. -/
theorem wp_freePages (h : Idle k.mach ((k.proc i).pages k.mach.mem + F))
    (hp : ProcOk k.mach.mem k.mach.trampoline (k.proc i)) :
    wp (freeproc i) (fun _ k' => Work i k k' ∧ k'.proc i = (k.proc i).freed ∧
      k'.nextpid = k.nextpid) k := by
  rw [Proc.pages] at h
  set S := (k.proc i).pagetable.elim 0 fun root => spacePages k.mach.mem root (k.proc i).sz with hS
  set T : Multiset Nat := (k.proc i).trapframe.elim 0 ({·}) with hT
  set U : Multiset Nat := (k.proc i).usyscall.elim 0 ({·}) with hU
  rw [freeproc]
  -- the trapframe
  refine wp_bind (wp_get ?_)
  have h0 : Idle k.mach (T + (S + U + F)) := by
    rwa [← add_assoc, add_comm T, add_right_comm S]
  refine wp_seq (wp_kfreeIf h0) ?_
  rintro ⟨⟩ k1 ⟨m1, e1⟩
  have h1 : Idle k1.mach (U + (S + F)) := by
    have := h0.moves (m1.frame _)
    rwa [zero_add, add_comm S, add_assoc] at this
  refine wp_seq (wp_setProc i _ k1) ?_
  rintro ⟨⟩ k2 e2
  -- the shared page
  refine wp_bind (wp_get ?_)
  rw [e2.self, e1.proc]
  rw [← e2.mach] at h1
  refine wp_seq (wp_kfreeIf h1) ?_
  rintro ⟨⟩ k3 ⟨m3, e3⟩
  have h3 : Idle k3.mach (S + F) := by
    have := h1.moves (m3.frame _)
    rwa [zero_add] at this
  have m13 : Moves (T + U) 0 k.mach k3.mach := by
    have := m1.frame U
    rw [zero_add, ← e2.mach] at this
    exact this.trans m3
  refine wp_seq (wp_setProc i _ k3) ?_
  rintro ⟨⟩ k4 e4
  -- the page table, which is still as it was
  have hkept : Kept S k.mach.mem k3.mach.mem := fun x hx =>
    m13.eqOff_frame (F := S + F) (by rwa [← add_assoc, add_comm (T + U), ← add_assoc])
      (mem_add.mpr (.inl hx))
  have hagree : ∀ root, (k.proc i).pagetable = some root →
      ptRadix.Agree (ptPages k.mach.mem root) k.mach.mem k3.mach.mem := fun root hr => by
    obtain ⟨tf, us, -, -, hs⟩ := hp.space root hr
    refine (hkept.mono ?_).agree hs.root_dvd
    rw [hS, hr]
    exact subset_of_le (le_add_right _ _)
  have hpages : ((k.proc i).pagetable.elim 0 fun root =>
      spacePages k3.mach.mem root (k.proc i).sz) = S := by
    cases hr : (k.proc i).pagetable with
    | none => rw [hS, hr, elim_none, elim_none]
    | some root =>
      rw [hS, hr, elim_some, elim_some, spacePages_congr (hagree root hr)]
  refine wp_bind (wp_get (wp_bind (wp_get ?_)))
  rw [e4.self, e3.proc, e2.self, e1.proc]
  have h4 : Idle k4.mach (((k.proc i).pagetable.elim 0 fun root =>
      spacePages k4.mach.mem root (k.proc i).sz) + F) := by
    rwa [e4.mach, hpages]
  refine wp_seq (wp_procFreepagetableIf h4 fun root hr => ?_) ?_
  · obtain ⟨tf, us, -, -, hs⟩ := hp.space root hr
    rw [e4.mach]
    exact ⟨_, _, _, _, hs.congr (hagree root hr)⟩
  rintro ⟨⟩ k5 ⟨m5, e5⟩
  refine wp_mono (wp_setProc i _ k5) ?_
  rintro ⟨⟩ k6 e6
  have hself : k6.proc i = (k.proc i).freed := by
    rw [e6.self, e5.proc, e4.self, e3.proc, e2.self, e1.proc]
    rfl
  refine ⟨⟨fun j hj => ?_, ?_, ?_, ?_, ?_, ?_⟩, hself, ?_⟩
  · rw [e6.ne hj, e5.proc, e4.ne hj, e3.proc, e2.ne hj, e1.proc]
  · rw [e6.ftable, e5.ftable, e4.ftable, e3.ftable, e2.ftable, e1.ftable]
  · rw [e6.initproc, e5.initproc, e4.initproc, e3.initproc, e2.initproc, e1.initproc]
  · rw [e4.mach, hpages] at m5
    have := m13.frame S
    rw [zero_add] at this
    rw [hself, Proc.freed_pages, e6.mach, Proc.pages, ← hS, ← hT, ← hU, add_assoc, add_comm]
    exact this.trans m5
  · rw [hself]
    exact procOk_freed _ _ _
  · rw [hself]
    rfl
  · rw [e6.nextpid, e5.nextpid, e4.nextpid, e3.nextpid, e2.nextpid, e1.nextpid]

/-! ## `allocproc` -/

/-- A process that `allocproc` has just made. -/
structure Proc.New (p : Proc) : Prop where
  state : p.state = .USED
  pagetable : p.pagetable ≠ none
  size : p.sz = 0
  guard : p.guard = none
  ofile : ∀ fd, p.ofile fd = none

theorem Work.kinv_new (w : Work i k k') (h : KInv k X Y ∅) (hnew : (k'.proc i).New) :
    KInv k' X Y ∅ ∧ ∀ j ≠ i, Same k k' j := by
  refine w.kinv h ∅ (fun _ _ _ => Finset.notMem_empty _) fun _ => ⟨fun hs => ?_, fun _ =>
    hnew.pagetable, fun hs => ?_⟩
  · exact nomatch hnew.state.symm.trans hs
  · exact nomatch hnew.state.symm.trans hs

/-- From `k` to `k'` no process changed; an unused one may have been tried. -/
structure Unchanged (k k' : Kernel) : Prop where
  proc : ∀ j, (k.proc j).state ≠ .UNUSED → k'.proc j = k.proc j
  unused : ∀ j, (k.proc j).state = .UNUSED → (k'.proc j).state = .UNUSED
  ftable : k'.ftable = k.ftable
  initproc : k'.initproc = k.initproc
  same : ∀ j, Same k k' j

/-- The way out of `allocproc`, and of `fork` when it fails: what was made is freed. -/
theorem wp_unalloc {r : α} (h : KInv k X Y ∅) (w : Work i k k') (hun : (k.proc i).state = .UNUSED) :
    wp (do freeproc i; pure r) (fun r' k'' => r' = r ∧ KInv k'' X Y ∅ ∧ Unchanged k k'') k' := by
  refine wp_seq (wp_freePages (h.idle_work w) w.ok) ?_
  rintro ⟨⟩ k'' ⟨w', hfreed, -⟩
  obtain ⟨hpt, htf, hus, hof⟩ := (h.settled i (Finset.notMem_empty i)).unused hun
  have w'' := w.trans w'
  obtain ⟨hk, hsame⟩ := w''.kinv h ∅ (fun _ _ _ => Finset.notMem_empty _) fun _ => by
    rw [hfreed]
    exact Proc.freed_settled fun fd => by rw [w.ofile, hof]
  refine wp_pure ⟨rfl, hk, fun j hj => ?_, fun j hj => ?_, w''.ftable, w''.initproc, fun j => ?_⟩
  · exact w''.proc j fun hji => hj (hji ▸ hun)
  · by_cases hji : j = i
    · rw [hji, hfreed]
      rfl
    · rw [w''.proc j hji, hj]
  · by_cases hji : j = i
    · subst hji
      have hpages : (k.proc j).pages k.mach.mem = 0 := by
        rw [Proc.pages, hpt, htf, hus]
        rfl
      refine ⟨?_, ?_, ?_, ?_, ?_, ?_⟩
      · rw [hfreed, hpt]
        rfl
      · rw [hfreed, htf]
        rfl
      · rw [hfreed, hus]
        rfl
      · rw [hfreed, (h.proc j).size hpt]
        rfl
      · rw [hfreed, hpages]
        rfl
      · rw [hpages]
        exact fun x hx => absurd hx (notMem_zero _)
    · exact hsame j hji

theorem wp_allocpid (k : Kernel) :
    wp allocpid (fun r k' => r = k.nextpid ∧ k'.mach = k.mach ∧ k'.proc = k.proc ∧
      k'.ftable = k.ftable ∧ k'.initproc = k.initproc) k :=
  wp_bind (wp_get (wp_bind (wp_modify (wp_pure ⟨rfl, rfl, rfl, rfl, rfl⟩))))

/-- The page that process `i` shares with the user shows its pid. -/
def Kernel.ShowsPid (k : Kernel) (i : Fin NPROC) : Prop :=
  ∀ us, (k.proc i).usyscall = some us → load 4 k.mach.mem us = (k.proc i).pid

theorem Shared.showsPid (s : Shared k k' i) (h : KInv k X Y E)
    (hpid : (k'.proc i).pid = (k.proc i).pid) (hk : k.ShowsPid i) : k'.ShowsPid i := by
  intro us hus
  rw [s.usyscall] at hus
  have hpage := (h.idle_proc i).page us (mem_add.mpr (.inr (mem_add.mpr (.inl
    (mem_add.mpr (.inl (Proc.mem_pages (.inr hus))))))))
  have hload := (s.kept us hus).load (n := 4) (mem_singleton_self us) hpage.1 0 (by decide)
  rw [Nat.add_zero] at hload
  rw [hload, hpid, hk us hus]

/-- **`allocproc`** makes a process out of an unused one, or changes none. -/
theorem wp_allocproc (h : KInv k X Y ∅) :
    wp allocproc (fun r k' => (r = none ∧ KInv k' X Y ∅ ∧ Unchanged k k') ∨
      ∃ i, r = some i ∧ (k.proc i).state = .UNUSED ∧ Work i k k' ∧ (k'.proc i).New ∧
        k'.ShowsPid i) k := by
  rw [allocproc]
  refine wp_bind (wp_get ?_)
  cases hfind : (List.finRange NPROC).find? fun i => decide ((k.proc i).state = .UNUSED) with
  | none =>
    exact wp_pure (.inl ⟨rfl, h, fun _ _ => rfl, fun _ hj => hj, rfl, rfl, Same.refl k⟩)
  | some i =>
    have hun : (k.proc i).state = .UNUSED := by simpa using List.find?_some hfind
    obtain ⟨hpt, htf, hus, hof⟩ := (h.settled i (Finset.notMem_empty i)).unused hun
    have hsz := (h.proc i).size hpt
    refine wp_seq (wp_allocpid k) ?_
    rintro pid k1 ⟨-, hm1, hp1, hf1, hi1⟩
    have w1 : Work i k k1 := Work.of_eq h i hm1 hp1 hf1 hi1
    refine wp_seq (wp_setProc i _ k1) ?_
    rintro ⟨⟩ k2 e2
    rw [hp1] at e2
    have w2 : Work i k k2 := by
      refine w1.set e2 ?_ (ProcOk.of_none hpt hsz) ?_
      · rw [hp1]
        rfl
      · rw [hp1]
    -- the trapframe
    refine wp_seq (wp_onMach (wp_kalloc_moves (h.idle_work w2))) ?_
    rintro r k3 ⟨⟨rfl, m3⟩ | ⟨tf, rfl, htfp, m3⟩, e3⟩
    · exact wp_mono (wp_unalloc h (w2.mach h m3 e3) hun) fun _ _ hr => .inl hr
    refine wp_seq (wp_setProc i _ k3) ?_
    rintro ⟨⟩ k4 e4
    rw [e3.proc, e2.self] at e4
    have w4 : Work i k k4 := by
      refine w2.take h m3 e3 e4 ?_ (ProcOk.of_none hpt hsz) (by rw [e2.self])
      simp only [e2.self, Proc.pages, hpt, htf, hus, elim_none, elim_some, zero_add,
        add_zero]
    -- the shared page
    refine wp_seq (wp_onMach (wp_kalloc_moves (h.idle_work w4))) ?_
    rintro r k5 ⟨⟨rfl, m5⟩ | ⟨us, rfl, husp, m5⟩, e5⟩
    · exact wp_mono (wp_unalloc h (w4.mach h m5 e5) hun) fun _ _ hr => .inl hr
    refine wp_seq (wp_setProc i _ k5) ?_
    rintro ⟨⟩ k6 e6
    rw [e5.proc, e4.self] at e6
    have w6 : Work i k k6 := by
      refine w4.take h m5 e5 e6 ?_ (ProcOk.of_none hpt hsz) (by rw [e4.self])
      simp only [e4.self, Proc.pages, hpt, hus, elim_none, elim_some, add_zero]
    have hword : us + 4 ≤ us + PGSIZE := Nat.add_le_add_left (by decide) us
    refine wp_seq (wp_onMach (wp_storeWord (n := 4) pid husp.1 le_rfl hword)) ?_
    rintro ⟨⟩ k7 ⟨⟨hst7, ht7, hf7, hr7⟩, e7⟩
    have w7 : Work i k k7 := w6.write_page h e7 (.inr (by rw [e6.self])) ht7 hf7 hr7
    -- the page table
    have htramp := w7.moves.touches.trampoline
    obtain ⟨hT, hT'⟩ := h.trampoline
    refine wp_seq (wp_onMach (wp_newSpace (h.idle_work w7) ?_ ?_ ?_ ?_)) ?_
    · rwa [htramp]
    · rw [htramp]
      have := h.kend.2
      unfold PHYSTOP KERNBASE at this
      omega
    · exact w7.moves.isPage.mpr (w2.moves.isPage.mp htfp)
    · exact w7.moves.isPage.mpr (w4.moves.isPage.mp husp)
    rintro r k8 ⟨⟨rfl, m8⟩ | ⟨root, rfl, m8, hs⟩, e8⟩
    · exact wp_mono (wp_unalloc h (w7.mach h m8 e8) hun) fun _ _ hr => .inl hr
    refine wp_seq (wp_setProc i _ k8) ?_
    rintro ⟨⟩ k9 e9
    rw [e8.proc, e7.proc, e6.self] at e9
    have w9 : Work i k k9 := by
      refine w7.take h m8 e8 e9 ?_ ⟨fun r hr => ?_, fun hr => by cases hr⟩ ?_
      · simp only [e7.proc, e6.self, Proc.pages, hpt, hsz, elim_none, elim_some,
          zero_add]
        rw [add_assoc, add_comm]
      · cases hr
        rw [m8.touches.trampoline]
        refine ⟨tf, us, rfl, rfl, ?_⟩
        rw [show (k.proc i).sz = 0 from hsz]
        exact hs
      · rw [e7.proc, e6.self]
    refine wp_pure (.inr ⟨i, rfl, hun, w9, ?_, fun us' hus' => ?_⟩)
    · rw [e9.self]
      exact ⟨rfl, some_ne_none root, hsz, rfl, hof⟩
    · rw [e9.self] at hus' ⊢
      obtain rfl := some.inj hus'
      have hus7 : (k7.proc i).usyscall = some us := by rw [e7.proc, e6.self]
      have hkept : Kept {us} k7.mach.mem k8.mach.mem := fun x hx => by
        refine m8.eqOff_frame (F := (k7.proc i).pages k7.mach.mem + (X + k.rest i)) ?_ ?_
        · rw [zero_add]
          exact h.idle_work w7
        · rw [mem_singleton.mp hx]
          exact mem_add.mpr (.inl (Proc.mem_pages (.inr hus7)))
      have hload := hkept.load (n := 4) (mem_singleton_self us) husp.1 0 (by decide)
      rw [Nat.add_zero] at hload
      rw [e9.mach, hload, hst7]
      exact load_store _ _ _

/-! ## `growproc` -/

section

variable (h : KInv k X Y E) (hr : (k.proc i).pagetable = some root)
  (htf : (k.proc i).trapframe = some tf) (hus : (k.proc i).usyscall = some us)

include h hr htf hus

/-- The pages of the address space, and the rest. -/
theorem KInv.idle_space :
    Idle k.mach (spacePages k.mach.mem root (k.proc i).sz + {us} + ({tf} + (X + k.rest i))) := by
  have := h.idle_proc i
  rwa [Proc.pages_eq hr htf hus, add_right_comm (spacePages _ _ _), add_assoc, add_assoc] at this

/-- Work on the address space leaves the shared page alone. -/
theorem KInv.shared_space {B : Multiset Nat}
    (hm : Moves (spacePages k.mach.mem root (k.proc i).sz) B k.mach k'.mach)
    (hus' : (k'.proc i).usyscall = (k.proc i).usyscall) : Shared k k' i := by
  refine ⟨hus', fun u hu x hx => ?_⟩
  obtain rfl : us = u := some.inj (hus.symm.trans hu)
  have hidle := h.idle_space hr htf hus
  rw [add_assoc] at hidle
  exact hm.eqOff_frame hidle (mem_add.mpr (.inl hx))

end

/-- The trapframe is not the shared page. -/
theorem KInv.trapframe_ne (h : KInv k X Y E) (htf : (k.proc i).trapframe = some tf) :
    (k.proc i).usyscall ≠ some tf := by
  intro hus
  have hnd : ((k.proc i).pages k.mach.mem).Nodup := by
    refine nodup_of_le ?_ (h.idle_proc i).nodup
    rw [add_assoc]
    exact (le_add_right _ _).trans (le_add_left _ _)
  rw [Proc.pages, htf, hus] at hnd
  exact disjoint_left.mp (nodup_add.mp hnd).2.2
    (mem_add.mpr (.inr (mem_singleton_self tf))) (mem_singleton_self tf)

/-- So does a write to another page of the process. -/
theorem Shared.of_touches {q : Nat} (ht : Touches {q} k.mach k'.mach)
    (hq : (k.proc i).usyscall ≠ some q) (hus' : (k'.proc i).usyscall = (k.proc i).usyscall) :
    Shared k k' i := by
  refine ⟨hus', fun us hus x hx => ht.mem x fun hin => hq ?_⟩
  rw [hus, ← mem_singleton.mp hx, mem_singleton.mp hin]

/-- **`growproc`** keeps the invariant, whatever the argument. -/
theorem wp_growproc (h : KInv k X Y ∅) (hlive : (k.proc i).state ≠ .UNUSED) (n : BitVec 32) :
    wp (growproc i n) (fun _ k' => KInv k' X Y ∅ ∧ (∀ j ≠ i, Same k k' j) ∧ Shared k k' i) k := by
  obtain ⟨root, tf, us, hr, htf, hus, hs⟩ := h.live hlive
  have hidle := h.idle_space hr htf hus
  rw [add_assoc] at hidle
  have resized : ∀ {k1 k2 : Kernel} {sz : Nat}, MachOnly k k1 →
      ProcOnly i { k1.proc i with sz := sz } k1 k2 →
      Moves (spacePages k.mach.mem root (k.proc i).sz) (spacePages k1.mach.mem root sz)
        k.mach k1.mach →
      Space k1.mach.mem k.mach.trampoline root sz tf us (k.proc i).guard →
      KInv k2 X Y ∅ ∧ (∀ j ≠ i, Same k k2 j) ∧ Shared k k2 i := by
    intro k1 k2 sz e1 e2 m hs
    rw [← e2.mach] at m hs
    have hshared : Shared k k2 i := h.shared_space hr htf hus m (by rw [e2.self, e1.proc])
    have w : Work i k k2 := by
      refine (Work.refl h i).resize _ hr htf hus ?_ ?_ ?_ m hs
      · rw [e2.proc, e1.proc]
      · rw [e2.ftable, e1.ftable]
      · rw [e2.initproc, e1.initproc]
    obtain ⟨hk, hsame⟩ := w.kinv_live h hlive (by rw [e2.self, e1.proc]) (by
      rw [e2.self, e1.proc]
      exact hr ▸ some_ne_none root)
    exact ⟨hk, hsame, hshared⟩
  rw [growproc]
  refine wp_bind (wp_get ?_)
  by_cases hpos : 0 < n.toInt
  · rw [if_pos hpos]
    refine wp_bind (wp_deref hr ?_)
    refine wp_seq (wp_onMach (hs.wp_grow hidle h.kend.1 (by decide))) ?_
    rintro sz k1 ⟨⟨m1, hs1, -⟩, e1⟩
    by_cases hz : sz = 0
    · rw [if_pos hz]
      rw [sizeAfter, if_pos hz] at m1 hs1
      obtain ⟨hk, hsame⟩ := h.respace e1 hr htf hus m1 hs1
      exact wp_pure ⟨hk, hsame, h.shared_space hr htf hus m1 (by rw [e1.proc])⟩
    · rw [if_neg hz]
      rw [sizeAfter, if_neg hz] at m1 hs1
      refine wp_seq (wp_setProc i _ k1) ?_
      rintro ⟨⟩ k2 e2
      exact wp_pure (resized e1 e2 m1 hs1)
  rw [if_neg hpos]
  by_cases hneg : n.toInt < 0
  · rw [if_pos hneg]
    refine wp_bind (wp_deref hr ?_)
    refine wp_seq (wp_onMach (hs.wp_shrink hidle)) ?_
    rintro sz k1 ⟨⟨-, m1, hs1⟩, e1⟩
    refine wp_seq (wp_setProc i _ k1) ?_
    rintro ⟨⟩ k2 e2
    exact wp_pure (resized e1 e2 m1 hs1)
  · rw [if_neg hneg]
    exact wp_pure ⟨h, fun j _ => Same.refl k j, Shared.refl k i⟩

end Xv6
