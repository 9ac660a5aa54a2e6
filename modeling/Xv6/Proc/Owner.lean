/-
# Xv6.Proc.Owner — who owns a page.

The account of `KInv` is one equation between multisets: the free pages, the parts of every process,
the pipes and the permanent pages together are the pages of memory.  A page of memory occurs once on
the right, so it occurs in one of the summands, once.
-/
import Xv6.Proc.Run

namespace Xv6

open Lib Lib.Store Lib.Prog Finset

variable {k : Kernel} {pages : List Nat}

/-! ## Owners -/

/-- What a process has pages for. -/
inductive Part where
  | table | user | trapframe | usyscall
  deriving DecidableEq

instance : Fintype Part := ⟨{.table, .user, .trapframe, .usyscall}, by rintro ⟨⟩ <;> decide⟩

/-- Who can own a page: the free list, a process, a live pipe, or the kernel since boot. -/
inductive Owner where
  | free | pipe | boot
  | proc (i : Fin NPROC) (part : Part)
  deriving DecidableEq

def ownerEquiv : Option (Option (Option (Fin NPROC × Part))) ≃ Owner where
  toFun
    | none => .free
    | some none => .boot
    | some (some none) => .pipe
    | some (some (some (i, part))) => .proc i part
  invFun
    | .free => none
    | .boot => some none
    | .pipe => some (some none)
    | .proc i part => some (some (some (i, part)))
  left_inv := by rintro (_ | _ | _ | ⟨i, part⟩) <;> rfl
  right_inv := by rintro (_ | _ | _ | ⟨i, part⟩) <;> rfl

instance : Fintype Owner := .ofEquiv _ ownerEquiv

/-- The pages of a process, part by part. -/
def Proc.part (m : Store) (p : Proc) : Part → Multiset Nat
  | .table => p.pagetable.elim 0 (ptPages m)
  | .user => p.pagetable.elim 0 fun root => (mapped (ptEntry m root) 0 (npages p.sz) : Multiset Nat)
  | .trapframe => p.trapframe.elim 0 ({·})
  | .usyscall => p.usyscall.elim 0 ({·})

/-- The pages of an owner. -/
def Kernel.ownedBy (k : Kernel) (pages : List Nat) : Owner → Multiset Nat
  | .free => k.mach.freelist
  | .pipe => (pipes k.ftable).val
  | .boot => pages
  | .proc i part => (k.proc i).part k.mach.mem part

theorem sum_owner {M : Type} [AddCommMonoid M] (f : Owner → M) :
    ∑ o, f o = f .free + (∑ i, ∑ part, f (.proc i part) + f .pipe + f .boot) := by
  rw [← ownerEquiv.sum_comp, Fintype.sum_option, Fintype.sum_option, Fintype.sum_option,
    Fintype.sum_prod_type]
  show f .free + (f .boot + (f .pipe + ∑ i, ∑ part, f (.proc i part))) = _
  abel

theorem Proc.sum_pages (m : Store) (p : Proc) : ∑ part, p.part m part = p.pages m := by
  have huniv : (univ : Finset Part) = {.table, .user, .trapframe, .usyscall} := rfl
  rw [huniv, sum_insert (by decide), sum_insert (by decide),
    sum_insert (by decide), sum_singleton, ← add_assoc, ← add_assoc, Proc.pages]
  simp only [Proc.part, spacePages]
  cases p.pagetable with
  | none => rfl
  | some root => rfl

theorem KInv.sum_owned (h : KInv k pages 0 ∅) :
    ∑ o, k.ownedBy pages o = ramPages k.mach.kend := by
  rw [sum_owner, ← h.account, Kernel.held]
  simp only [Kernel.ownedBy, Proc.sum_pages]

theorem KInv.sum_count (h : KInv k pages 0 ∅) (hp : p ∈ ramPages k.mach.kend) :
    ∑ o, (k.ownedBy pages o).count p = 1 := by
  rw [← Multiset.count_sum', h.sum_owned, Multiset.coe_count]
  exact List.count_eq_one_of_mem (nodup_ramPages _) hp

/-- A sum of numbers that is 1 has one nonzero term. -/
theorem existsUnique_of_sum_eq_one {ι : Type} [Fintype ι] [DecidableEq ι] {f : ι → Nat} (h : ∑ i, f i = 1) :
    (∃! i, 0 < f i) ∧ ∀ i, f i ≤ 1 := by
  obtain ⟨i, -, hi⟩ := exists_ne_zero_of_sum_ne_zero (h.trans_ne one_ne_zero)
  refine ⟨⟨i, Nat.pos_of_ne_zero hi, fun j hj => ?_⟩, fun j => ?_⟩
  · by_contra hne
    have hpair := sum_le_sum_of_subset (f := f) (subset_univ {i, j})
    rw [sum_pair (Ne.symm hne), h] at hpair
    have hi := Nat.pos_of_ne_zero hi
    omega
  · rw [← h]
    exact single_le_sum (fun _ _ => Nat.zero_le _) (mem_univ j)

/-- **Every page has one owner.** Between any two calls of any run, each page that `freerange` handed
out at boot is in exactly one place, once, and no page was freed while it was free. -/
theorem page_has_one_owner (h : Reachable pages k) :
    (∀ p ∈ ramPages k.mach.kend,
      (∃! o, p ∈ k.ownedBy pages o) ∧ ∀ o, (k.ownedBy pages o).count p ≤ 1) ∧
    k.mach.refreed = false := by
  refine ⟨fun p hp => ?_, h.kinv.refreed⟩
  obtain ⟨hex, hle⟩ := existsUnique_of_sum_eq_one (h.kinv.sum_count hp)
  simp only [Multiset.count_pos] at hex
  exact ⟨hex, hle⟩

/-- A machine with thirty-two pages of memory after the kernel. -/
def small : Kernel := cold (PHYSTOP - 32 * PGSIZE) KERNBASE (fun _ => 0) []

/-- It boots, the first process can run, and the kernel is as a test says. -/
theorem small_boots {P : Kernel → Bool}
    (h : (boot 1).test small (fun _ k => firstPage k &&
      (decide ((k.proc ⟨0, by decide⟩).state = .RUNNABLE) && P k)) = true) :
    ∃ pages k, Booted pages k ∧ (k.proc ⟨0, by decide⟩).state = .RUNNABLE ∧ P k = true := by
  obtain ⟨pages, k, hboot, hk⟩ := of_test h
  obtain ⟨hfirst, hk⟩ := Bool.and_eq_true_iff.mp hk
  obtain ⟨hrun, hP⟩ := Bool.and_eq_true_iff.mp hk
  exact ⟨pages, k, ⟨hfirst, _, _, _, _, _, by decide, by decide, hboot⟩, of_decide_eq_true hrun, hP⟩

theorem small_booted : ∃ pages k, Booted pages k ∧ (k.proc ⟨0, by decide⟩).state = .RUNNABLE := by
  obtain ⟨pages, k, hb, hrun, -⟩ := small_boots (P := fun _ => true) (by decide +kernel)
  exact ⟨pages, k, hb, hrun⟩

theorem page_has_one_owner_small : ∃ pages k, Reachable pages k ∧
    (∀ p ∈ ramPages k.mach.kend,
      (∃! o, p ∈ k.ownedBy pages o) ∧ ∀ o, (k.ownedBy pages o).count p ≤ 1) ∧
    k.mach.refreed = false := by
  obtain ⟨pages, k, hb, -⟩ := small_booted
  have hreach : Reachable pages k := ⟨k, [], hb, rfl⟩
  exact ⟨pages, k, hreach, page_has_one_owner hreach⟩

/-! ## Whole runs -/

/-- The counts in the file table are those of the descriptors; a file is closed when its count is 0; an end
of a pipe has one file, and the flags in the pipe say which ends are open. -/
structure Kernel.FilesCounted (k : Kernel) : Prop where
  ref : ∀ f, (k.ftable f).ref = (slots k.proc f).card
  closed_iff : ∀ f, (k.ftable f).type = .FD_NONE ↔ (k.ftable f).ref = 0
  ends : ∀ pi w f g, IsEnd k.ftable pi w f → IsEnd k.ftable pi w g → f = g
  flag : ∀ f, (k.ftable f).type = .FD_PIPE → ∀ w,
    load 4 k.mach.mem ((k.ftable f).pipe + flagOff w) = 1 ↔ ∃ g, IsEnd k.ftable (k.ftable f).pipe w g

end Xv6
