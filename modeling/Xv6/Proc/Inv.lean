/-
# Xv6.Proc.Inv — the invariant of the kernel.

Every page that `freerange` handed to the allocator is free, or a page of one process, or a pipe, or
held outside the tables (`X`: the permanent allocations made at boot, and what the call in progress
holds).  `KInv` keeps this account as one multiset equation, together with the shape of every address
space and the reference counts of the open files.  A call in progress may hold file references (`Y`)
and work on processes that are not settled yet (`E`); between calls both are empty.

The step lemma: a function that works on the pages of one process, the pages held outside and the free
pages leaves every other process as it is.
-/
import Xv6.Proc.Space
import Xv6.Proc.Defs
import Mathlib.Algebra.Order.BigOperators.Group.Multiset
import Mathlib.Algebra.BigOperators.Fin

namespace Xv6

open Lib Lib.Store Lib.Prog Multiset Kernel

/-! ## Processes -/

/-- The pages of a process. -/
def Proc.pages (m : Store) (p : Proc) : Multiset Nat :=
  (p.pagetable.elim 0 fun root => spacePages m root p.sz) + p.trapframe.elim 0 ({·}) +
    p.usyscall.elim 0 ({·})

/-- A process that has a page table has a trapframe and a shared page, and the table is an address
space of its size. -/
structure ProcOk (m : Store) (trampoline : Nat) (p : Proc) : Prop where
  space : ∀ root, p.pagetable = some root → ∃ tf us, p.trapframe = some tf ∧ p.usyscall = some us ∧
    Space m trampoline root p.sz tf us p.guard
  size : p.pagetable = none → p.sz = 0

/-- A process that no call is working on: an unused one has nothing, and any other has a page table;
a zombie has no open files. -/
structure Proc.Settled (p : Proc) : Prop where
  unused : p.state = .UNUSED →
    p.pagetable = none ∧ p.trapframe = none ∧ p.usyscall = none ∧ ∀ fd, p.ofile fd = none
  used : p.state ≠ .UNUSED → p.pagetable ≠ none
  zombie : p.state = .ZOMBIE → ∀ fd, p.ofile fd = none

variable {m m' : Store} {root : Nat} {p : Proc} {trampoline : Nat}

theorem Proc.spacePages_le (hr : p.pagetable = some root) : spacePages m root p.sz ≤ p.pages m := by
  rw [Proc.pages, hr, add_assoc]
  exact le_add_right _ _

theorem ProcOk.agree (h : ProcOk m trampoline p) (hk : Kept (p.pages m) m m')
    (hr : p.pagetable = some root) : ptRadix.Agree (ptPages m root) m m' := by
  obtain ⟨tf, us, -, -, hs⟩ := h.space root hr
  refine (hk.mono ?_).agree hs.root_dvd
  exact subset_of_le ((le_add_right _ _).trans (Proc.spacePages_le hr))

/-- The address space depends on the pages of the table only. -/
theorem ProcOk.congr (h : ProcOk m trampoline p)
    (ha : ∀ root, p.pagetable = some root → ptRadix.Agree (ptPages m root) m m') :
    ProcOk m' trampoline p ∧ p.pages m' = p.pages m := by
  refine ⟨⟨fun root hr => ?_, h.size⟩, ?_⟩
  · obtain ⟨tf, us, htf, hus, hs⟩ := h.space root hr
    exact ⟨tf, us, htf, hus, hs.congr (ha root hr)⟩
  · rw [Proc.pages, Proc.pages]
    cases hr : p.pagetable with
    | none => rw [Option.elim_none, Option.elim_none]
    | some root => rw [Option.elim_some, Option.elim_some, spacePages_congr (ha root hr)]

theorem ProcOk.kept (h : ProcOk m trampoline p) (hk : Kept (p.pages m) m m') :
    ProcOk m' trampoline p ∧ p.pages m' = p.pages m :=
  h.congr fun _ => h.agree hk

/-- The trapframe and the shared page are not pages of the table. -/
theorem Proc.notMem_ptPages (hnd : (p.pages m).Nodup) (hr : p.pagetable = some root)
    (hq : p.trapframe = some q ∨ p.usyscall = some q) : q ∉ ptPages m root := by
  have hdis : Disjoint (spacePages m root p.sz)
      (p.trapframe.elim 0 ({·}) + p.usyscall.elim 0 ({·})) := by
    rw [Proc.pages, hr, add_assoc] at hnd
    exact (nodup_add.mp hnd).2.2
  refine fun hin => disjoint_left.mp hdis (mem_add.mpr (.inl hin)) ?_
  rw [mem_add]
  rcases hq with hq | hq
  · exact .inl (hq ▸ mem_singleton_self q)
  · exact .inr (hq ▸ mem_singleton_self q)

/-! ## Open files -/

/-- The descriptors that refer to `f`. -/
def slots (proc : Fin NPROC → Proc) (f : Fin NFILE) : Finset (Fin NPROC × Fin NOFILE) :=
  Finset.univ.filter fun x => (proc x.1).ofile x.2 = some f

theorem mem_slots {proc : Fin NPROC → Proc} :
    x ∈ slots proc f ↔ (proc x.1).ofile x.2 = some f := by
  simp [slots]

theorem slots_congr {proc proc' : Fin NPROC → Proc} (h : ∀ i, (proc' i).ofile = (proc i).ofile)
    (f : Fin NFILE) : slots proc' f = slots proc f := by
  simp only [slots, h]

attribute [irreducible] slots

/-- `f` is the writing (or reading) end of the pipe in page `pi`. -/
def IsEnd (ftable : Fin NFILE → File) (pi : Nat) (writable : Bool) (f : Fin NFILE) : Prop :=
  (ftable f).type = .FD_PIPE ∧ (ftable f).pipe = pi ∧ (ftable f).writable = writable

instance (ftable : Fin NFILE → File) (pi : Nat) (w : Bool) (f : Fin NFILE) :
    Decidable (IsEnd ftable pi w f) := inferInstanceAs (Decidable (_ ∧ _))

/-- The pages of the live pipes. -/
def pipes (ftable : Fin NFILE → File) : Finset Nat :=
  (Finset.univ.filter fun f => (ftable f).type = .FD_PIPE).image fun f => (ftable f).pipe

/-- The reference counts count the descriptors and what the call in progress holds; an end of a pipe
has one file, and its flag in the pipe says whether it has. -/
structure FilesOk (m : Store) (proc : Fin NPROC → Proc) (ftable : Fin NFILE → File)
    (Y : Fin NFILE → Int) : Prop where
  ref : ∀ f, ((ftable f).ref : Int) = (slots proc f).card + Y f
  closed : ∀ f, (ftable f).ref = 0 → (ftable f).type = .FD_NONE
  typed : ∀ f, (ftable f).type = .FD_NONE → ((slots proc f).card : Int) ≤ max 0 (-Y f)
  ends : ∀ pi w f g, IsEnd ftable pi w f → IsEnd ftable pi w g → f = g
  access : ∀ f, (ftable f).type = .FD_PIPE → (ftable f).readable = !(ftable f).writable
  flag : ∀ pi ∈ pipes ftable, ∀ w,
    load 4 m (pi + flagOff w) = if ∃ f, IsEnd ftable pi w f then 1 else 0

/-! ## The invariant -/

/-- The pages of the processes and of the pipes. -/
def Kernel.held (k : Kernel) : Multiset Nat :=
  ∑ i, (k.proc i).pages k.mach.mem + (pipes k.ftable).val

structure KInv (k : Kernel) (X : Multiset Nat) (Y : Fin NFILE → Int) (E : Finset (Fin NPROC)) :
    Prop where
  kend : KERNBASE ≤ k.mach.kend ∧ k.mach.kend ≤ PHYSTOP
  trampoline : PGSIZE ∣ k.mach.trampoline ∧ k.mach.trampoline < k.mach.kend
  account : (k.mach.freelist : Multiset Nat) + (k.held + X) = (ramPages k.mach.kend : Multiset Nat)
  refreed : k.mach.refreed = false
  proc : ∀ i, ProcOk k.mach.mem k.mach.trampoline (k.proc i)
  settled : ∀ i ∉ E, (k.proc i).Settled
  files : FilesOk k.mach.mem k.proc k.ftable Y

/-! ## Steps -/

variable {k k' k'' : Kernel} {X X' : Multiset Nat} {Y : Fin NFILE → Int}
  {E E' : Finset (Fin NPROC)} {i j : Fin NPROC}

theorem KInv.idle (h : KInv k X Y E) : Idle k.mach (k.held + X) where
  nodup := h.account ▸ coe_nodup.mpr (nodup_ramPages _)
  page p hp := by
    rw [h.account] at hp
    exact (mem_ramPages h.kend.2).mp hp

/-- The pages of the pipes and of the processes other than `i`. -/
def Kernel.rest (k : Kernel) (i : Fin NPROC) : Multiset Nat :=
  ∑ j ∈ Finset.univ.erase i, (k.proc j).pages k.mach.mem + (pipes k.ftable).val

theorem Kernel.held_eq (k : Kernel) (i : Fin NPROC) :
    k.held = (k.proc i).pages k.mach.mem + k.rest i := by
  rw [held, rest, ← add_assoc,
    Finset.add_sum_erase _ (fun j => (k.proc j).pages k.mach.mem) (Finset.mem_univ i)]

theorem Kernel.pages_le_rest (hij : j ≠ i) : (k.proc j).pages k.mach.mem ≤ k.rest i := by
  have hj : j ∈ Finset.univ.erase i := Finset.mem_erase.mpr ⟨hij, Finset.mem_univ j⟩
  rw [rest, ← Finset.add_sum_erase _ (fun j => (k.proc j).pages k.mach.mem) hj, add_assoc]
  exact le_add_right _ _

theorem Kernel.pipes_le_rest : (pipes k.ftable).val ≤ k.rest i := le_add_left _ _

theorem KInv.idle_proc (h : KInv k X Y E) (i : Fin NPROC) :
    Idle k.mach ((k.proc i).pages k.mach.mem + X + k.rest i) := by
  have := h.idle
  rwa [k.held_eq i, add_right_comm] at this

/-- From `k` to `k'` process `q` has the same pages with the same contents. -/
structure Same (k k' : Kernel) (q : Fin NPROC) : Prop where
  pagetable : (k'.proc q).pagetable = (k.proc q).pagetable
  trapframe : (k'.proc q).trapframe = (k.proc q).trapframe
  usyscall : (k'.proc q).usyscall = (k.proc q).usyscall
  size : (k'.proc q).sz = (k.proc q).sz
  pages : (k'.proc q).pages k'.mach.mem = (k.proc q).pages k.mach.mem
  kept : Kept ((k.proc q).pages k.mach.mem) k.mach.mem k'.mach.mem

theorem Same.refl (k : Kernel) (q : Fin NPROC) : Same k k q :=
  ⟨rfl, rfl, rfl, rfl, rfl, fun _ _ => rfl⟩

theorem Same.trans (h : Same k k' i) (h' : Same k' k'' i) : Same k k'' i where
  pagetable := h'.pagetable.trans h.pagetable
  trapframe := h'.trapframe.trans h.trapframe
  usyscall := h'.usyscall.trans h.usyscall
  size := h'.size.trans h.size
  pages := h'.pages.trans h.pages
  kept x hx := (h'.kept x (h.pages.symm ▸ hx)).trans (h.kept x hx)

/-- From `k` to `k'` process `q` shares the same page with the user, with the same contents. -/
structure Shared (k k' : Kernel) (q : Fin NPROC) : Prop where
  usyscall : (k'.proc q).usyscall = (k.proc q).usyscall
  kept : ∀ us, (k.proc q).usyscall = some us → Kept {us} k.mach.mem k'.mach.mem

theorem Shared.refl (k : Kernel) (q : Fin NPROC) : Shared k k q := ⟨rfl, fun _ _ _ _ => rfl⟩

theorem Shared.trans (h : Shared k k' i) (h' : Shared k' k'' i) : Shared k k'' i where
  usyscall := h'.usyscall.trans h.usyscall
  kept us hus x hx := (h'.kept us (h.usyscall.trans hus) x hx).trans (h.kept us hus x hx)

theorem Proc.mem_pages
    (hq : p.trapframe = some q ∨ p.usyscall = some q) : q ∈ p.pages m := by
  rw [Proc.pages, mem_add, mem_add]
  rcases hq with hq | hq
  · exact .inl (.inr (hq ▸ mem_singleton_self q))
  · exact .inr (hq ▸ mem_singleton_self q)

theorem Same.shared (h : Same k k' i) : Shared k k' i :=
  ⟨h.usyscall, fun us hus => h.kept.mono fun q hq => by
    rw [mem_singleton.mp hq]
    exact Proc.mem_pages (.inr hus)⟩

theorem FilesOk.congr {proc proc' : Fin NPROC → Proc} {ftable : Fin NFILE → File}
    (h : FilesOk m proc ftable Y) (hof : ∀ i, (proc' i).ofile = (proc i).ofile)
    (hdvd : ∀ pi ∈ pipes ftable, PGSIZE ∣ pi) (hk : Kept (pipes ftable).val m m') :
    FilesOk m' proc' ftable Y where
  ref f := by rw [slots_congr hof, h.ref]
  closed := h.closed
  typed f hf := by
    rw [slots_congr hof]
    exact h.typed f hf
  ends := h.ends
  access := h.access
  flag pi hpi w := by
    rw [← h.flag pi hpi w]
    refine load_congr fun x h1 h2 => hk x ?_
    have hoff : flagOff w + 4 ≤ PGSIZE := by cases w <;> decide
    rwa [PGROUNDDOWN_of_mem (hdvd pi hpi) (by omega) (by omega)]

theorem KInv.pipe_isPage (h : KInv k X Y E) {pi : Nat} (hpi : pi ∈ pipes k.ftable) :
    k.mach.IsPage pi := by
  refine h.idle.page pi (mem_add.mpr (.inr (mem_add.mpr (.inl ?_))))
  exact mem_add.mpr (.inr hpi)

/-- Pages that a run does not get are kept. -/
theorem KInv.kept (h : KInv k X Y E) (hR : k.held + X = A + R)
    (hm : Moves A B k.mach s') : Kept R k.mach.mem s'.mem := fun x hx => by
  have hidle := h.idle
  rw [hR] at hidle
  exact hm.eqOff_frame hidle hx

theorem KInv.account_moves (h : KInv k X Y E) (hR : k.held + X = A + R)
    (hm : Moves A B k.mach k'.mach) (hR' : k'.held + X' = B + R) :
    k'.mach.freelist + (k'.held + X') =
      ramPages k'.mach.kend := by
  rw [hm.touches.kend, ← h.account, hR, hR', ← add_assoc, ← add_assoc, hm.pages]

theorem Kernel.pages_le_held (k : Kernel) (j : Fin NPROC) :
    (k.proc j).pages k.mach.mem ≤ ∑ i, (k.proc i).pages k.mach.mem :=
  Finset.single_le_sum (f := fun i => (k.proc i).pages k.mach.mem)
    (fun _ _ => zero_le _) (Finset.mem_univ j)

/-- A run that works on pages held outside the tables or on pipes leaves the processes as they are;
what it does to the open files is for its caller to say. -/
theorem KInv.step_files (h : KInv k X Y E) {Y' : Fin NFILE → Int}
    (hR : (pipes k.ftable).val + X = A + R) (hR' : (pipes k'.ftable).val + X' = B + R)
    (hm : Moves A B k.mach k'.mach)
    (hproc : ∀ j, ∃ o, k'.proc j = { k.proc j with ofile := o })
    (hset : ∀ j ∉ E', (k'.proc j).Settled)
    (hfiles : Kept R k.mach.mem k'.mach.mem → FilesOk k'.mach.mem k'.proc k'.ftable Y') :
    KInv k' X' Y' E' ∧ ∀ j, Same k k' j := by
  set P := ∑ i, (k.proc i).pages k.mach.mem with hP
  have hheld : k.held + X = A + (P + R) := by
    rw [held, add_assoc, hR, ← hP, add_left_comm]
  have hkept := h.kept hheld hm
  have hkeptj : ∀ j, Kept ((k.proc j).pages k.mach.mem) k.mach.mem k'.mach.mem := fun j =>
    hkept.mono (subset_of_le ((k.pages_le_held j).trans (le_add_right _ _)))
  have htr : k'.mach.trampoline = k.mach.trampoline := hm.touches.trampoline
  -- the file table of a process does not matter to its pages
  have hpages : ∀ j, (k'.proc j).pages k'.mach.mem = (k.proc j).pages k.mach.mem := fun j => by
    obtain ⟨o, ho⟩ := hproc j
    rw [ho]
    exact ((h.proc j).kept (hkeptj j)).2
  refine ⟨⟨?_, ?_, ?_, ?_, fun j => ?_, hset, ?_⟩, fun j => ?_⟩
  · rw [hm.touches.kend]
    exact h.kend
  · rw [hm.touches.kend, htr]
    exact h.trampoline
  · refine h.account_moves hheld hm ?_
    rw [held, Finset.sum_congr rfl fun j _ => hpages j, ← hP, add_assoc, hR',
      add_left_comm]
  · rw [hm.refreed, h.refreed]
  · obtain ⟨o, ho⟩ := hproc j
    rw [ho, htr]
    have := ((h.proc j).kept (hkeptj j)).1
    exact ⟨this.space, this.size⟩
  · exact hfiles (hkept.mono (subset_of_le (le_add_left _ _)))
  · obtain ⟨o, ho⟩ := hproc j
    refine ⟨by rw [ho], by rw [ho], by rw [ho], by rw [ho], hpages j, hkeptj j⟩

/-- **The step lemma.** A run that works on the pages of process `i`, the pages held outside and the
free pages keeps the invariant, if the process is left with an address space of its size. -/
theorem KInv.step (h : KInv k X Y E) (i : Fin NPROC)
    (hm : Moves ((k.proc i).pages k.mach.mem + X) (p'.pages s'.mem + X') k.mach s')
    (hp : ProcOk s'.mem s'.trampoline p') (hof : p'.ofile = (k.proc i).ofile)
    (hE : ∀ j ∉ E', j ≠ i → j ∉ E) (hset : i ∉ E' → p'.Settled)
    (hmach : k'.mach = s') (hproc : k'.proc = Function.update k.proc i p')
    (hftable : k'.ftable = k.ftable) :
    KInv k' X' Y E' ∧ ∀ j ≠ i, Same k k' j := by
  subst hmach
  have hheld : k.held + X = (k.proc i).pages k.mach.mem + X + k.rest i := by
    rw [k.held_eq i, add_right_comm]
  have hkept := h.kept hheld hm
  have hkeptj : ∀ j ≠ i, Kept ((k.proc j).pages k.mach.mem) k.mach.mem k'.mach.mem :=
    fun j hj => hkept.mono (subset_of_le (pages_le_rest hj))
  have hsame : ∀ j ≠ i, k'.proc j = k.proc j := fun j hj => by
    rw [hproc, Function.update_of_ne hj]
  have hself : k'.proc i = p' := by rw [hproc, Function.update_self]
  have htr : k'.mach.trampoline = k.mach.trampoline := hm.touches.trampoline
  have hrest : k'.rest i = k.rest i := by
    rw [rest, rest, hftable]
    refine congrArg (· + _) (Finset.sum_congr rfl fun j hj => ?_)
    have hj := Finset.ne_of_mem_erase hj
    rw [hsame j hj]
    exact ((h.proc j).kept (hkeptj j hj)).2
  refine ⟨⟨?_, ?_, ?_, ?_, fun j => ?_, fun j hj => ?_, ?_⟩, fun j hj => ?_⟩
  · rw [hm.touches.kend]
    exact h.kend
  · rw [hm.touches.kend, htr]
    exact h.trampoline
  · refine h.account_moves hheld hm ?_
    rw [k'.held_eq i, hrest, hself, add_right_comm]
  · rw [hm.refreed, h.refreed]
  · by_cases hj : j = i
    · rw [hj, hself]
      exact hp
    · rw [hsame j hj, htr]
      exact ((h.proc j).kept (hkeptj j hj)).1
  · by_cases hji : j = i
    · subst hji
      rw [hself]
      exact hset hj
    · rw [hsame j hji]
      exact h.settled j (hE j hj hji)
  · rw [hftable]
    refine h.files.congr (fun j => ?_) (fun pi hpi => (h.pipe_isPage hpi).1)
      (hkept.mono (subset_of_le pipes_le_rest))
    by_cases hj : j = i
    · rw [hj, hself, hof]
    · rw [hsame j hj]
  · refine ⟨by rw [hsame j hj], by rw [hsame j hj], by rw [hsame j hj], by rw [hsame j hj], ?_,
      hkeptj j hj⟩
    rw [hsame j hj]
    exact ((h.proc j).kept (hkeptj j hj)).2

end Xv6
