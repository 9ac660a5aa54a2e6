/-
# Xv6.Proc.Exit — `exit`, `wait`, `kill`.

`exit` leaves a zombie that keeps its memory; `wait` frees it.
-/
import Xv6.Proc.Pipe

namespace Xv6

open Lib Lib.Store Lib.Prog List

variable {k k' : Kernel} {X : Multiset Nat} {Y : Fin NFILE → Int} {E : Finset (Fin NPROC)}
  {f g : Fin NFILE} {i j np : Fin NPROC} {fd : Fin NOFILE}

/-! ## `exit` -/

/-- **The loop of `exit`** closes every descriptor. -/
theorem wp_closeOfiles (h : KInv k X 0 E) (ha : (k.proc i).Active) (fds : List (Fin NOFILE)) :
    wp (closeOfiles i fds) (fun _ k' => KInv k' X 0 E ∧ OfileOnly i k k' ∧
      ∀ fd, (k.proc i).ofile fd = none ∨ fd ∈ fds → (k'.proc i).ofile fd = none) k := by
  induction fds generalizing k with
  | nil => exact wp_pure ⟨h, OfileOnly.refl i k, fun fd hfd => hfd.resolve_right not_mem_nil⟩
  | cons fd fds ih =>
    rw [closeOfiles]
    refine wp_bind (wp_get ?_)
    cases hfd : (k.proc i).ofile fd with
    | none =>
      refine wp_bind (wp_pure (wp_mono (ih h ha) ?_))
      rintro ⟨⟩ k' ⟨h', c, hnone⟩
      refine ⟨h', c, fun fd' hfd' => hnone fd' ?_⟩
      rcases hfd' with hfd' | hfd'
      · exact .inl hfd'
      · rcases mem_cons.mp hfd' with rfl | hin
        · exact .inl hfd
        · exact .inr hin
    | some f =>
      refine wp_bind (wp_seq (h.wp_fileclose (h.fd_open rfl hfd).1) ?_)
      rintro ⟨⟩ k1 ⟨h1, q1⟩
      refine wp_mono (wp_setProc i _ k1) ?_
      rintro ⟨⟩ k2 e2
      obtain ⟨h2, same2⟩ := h1.setFd (by rwa [q1.proc]) e2
        (h1.files.clear (f := f) (by rwa [q1.proc]))
      rw [give_give, neg_add_cancel, give_zero] at h2
      have c2 : OfileOnly i k k2 := q1.setFd e2 same2
      have hself : k2.proc i = (k.proc i).setFd fd none := by
        rw [e2.self, q1.proc]
        rfl
      refine wp_mono (ih h2 (by rw [hself]; exact ha)) ?_
      rintro ⟨⟩ k' ⟨h', c, hnone⟩
      refine ⟨h', c2.trans c, fun fd' hfd' => hnone fd' ?_⟩
      rw [hself]
      by_cases heq : fd' = fd
      · exact .inl (by rw [heq]; exact Function.update_self ..)
      · rcases hfd' with hfd' | hfd'
        · exact .inl ((Function.update_of_ne heq _ _).trans hfd')
        · exact .inr ((mem_cons.mp hfd').resolve_left heq)

theorem wp_reparent (i : Fin NPROC) (k : Kernel) :
    wp (reparent i) (fun _ k' => k'.mach = k.mach ∧ k'.ftable = k.ftable ∧
      k'.initproc = k.initproc ∧ ∀ j, ∃ q, k'.proc j = { k.proc j with parent := q }) k := by
  refine wp_modify ⟨rfl, rfl, rfl, fun j => ?_⟩
  dsimp only
  split
  · exact ⟨_, rfl⟩
  · exact ⟨_, rfl⟩

/-- **`exit`** keeps the invariant: what is left is a zombie with no open files. -/
theorem wp_exit (h : KInv k X 0 ∅) (hrun : (k.proc i).state = .RUNNABLE)
    (hinit : k.initproc ≠ some i) (status : BitVec 32) :
    wp (exit i status) (fun _ k' => KInv k' X 0 ∅ ∧ ∀ j, Same k k' j) k := by
  have ha : (k.proc i).Active := ⟨by rw [hrun]; decide, by rw [hrun]; decide⟩
  rw [exit]
  refine wp_bind (wp_get ?_)
  rw [if_neg hinit]
  refine wp_seq (wp_closeOfiles h ha _) ?_
  rintro ⟨⟩ k1 ⟨h1, c, hnone⟩
  obtain ⟨o, ho⟩ := c.self
  refine wp_seq (wp_reparent i k1) ?_
  rintro ⟨⟩ k2 ⟨hm2, hf2, -, hp2⟩
  refine wp_mono (wp_setProc i _ k2) ?_
  rintro ⟨⟩ k3 e3
  have hset2 : ∀ j, (k2.proc j).Settled := fun j => by
    obtain ⟨q, hq⟩ := hp2 j
    have hset := h1.settled j (Finset.notMem_empty j)
    rw [hq]
    exact ⟨hset.unused, hset.used, hset.zombie⟩
  have hlike : ∀ j, (k1.proc j).Alike (k2.proc j) := fun j => by
    obtain ⟨q, hq⟩ := hp2 j
    rw [hq]
    exact ⟨rfl, rfl, rfl, rfl, rfl, rfl⟩
  obtain ⟨h2, same2⟩ := h1.fields ∅ hm2 hf2 hlike fun j _ => hset2 j
  have hpt : (k2.proc i).pagetable ≠ none := by
    refine (hset2 i).used ?_
    obtain ⟨q, hq⟩ := hp2 i
    rw [hq, ho, hrun]
    decide
  obtain ⟨h3, same3⟩ := h2.relabel ∅ e3 ⟨rfl, rfl, rfl, rfl, rfl, rfl⟩ (fun _ hj _ => hj)
    fun _ => ⟨fun hun => (nomatch hun), fun _ => hpt, fun _ fd => by
      rw [(hlike i).ofile]
      exact hnone fd (.inr (mem_finRange fd))⟩
  exact ⟨h3, fun j => ((c.same j).trans (same2 j)).trans (same3 j)⟩

/-! ## `wait` and `kill` -/

/-- Process `j` had exited; it was freed, and its pages are free. -/
def Reaped (k k' : Kernel) (j : Fin NPROC) : Prop :=
  (k.proc j).state = .ZOMBIE ∧ k'.proc j = (k.proc j).freed ∧
    (k.proc j).pages k.mach.mem ≤ (k'.mach.freelist : Multiset Nat)

/-- **`wait`** frees a zombie child, and leaves every other process but the caller as it is; the
caller keeps its shared page if the status is not stored there. -/
theorem wp_wait (h : KInv k X 0 ∅) (hrun : (k.proc i).state = .RUNNABLE) (addr : Nat) :
    wp (wait i addr) (fun _ k' => KInv k' X 0 ∅ ∧ (∀ j ≠ i, Same k k' j ∨ Reaped k k' j) ∧
      (MissesShared addr 4 → Shared k k' i)) k := by
  obtain ⟨root, tf, us, hr, htf, hus, hs⟩ := h.live (i := i) (by rw [hrun]; decide)
  rw [wait]
  refine wp_bind (wp_get ?_)
  cases hfind : (finRange NPROC).find? fun j =>
      decide ((k.proc j).parent = some i) && decide ((k.proc j).state = .ZOMBIE) with
  | none =>
    dsimp only
    split
    · exact wp_pure ⟨h, fun j _ => .inl (Same.refl k j), fun _ => Shared.refl k i⟩
    · exact wp_pure ⟨h, fun j _ => .inl (Same.refl k j), fun _ => Shared.refl k i⟩
  | some j =>
    have hz : (k.proc j).state = .ZOMBIE := by
      have := find?_some hfind
      simp only [Bool.and_eq_true, decide_eq_true_eq] at this
      exact this.2
    refine wp_bind (wp_deref hr ?_)
    have hcopy : wp (if addr ≠ 0 then onMach (copyout root addr
        (bytesOf (k := 4) (k.proc j).xstate) 4) else pure 0) (fun _ k' => KInv k' X 0 ∅ ∧
          (∀ q ≠ i, Same k k' q) ∧ MachOnly k k' ∧ (MissesShared addr 4 → Shared k k' i)) k := by
      split
      · refine wp_mono (h.wp_copyout hr htf hus hs addr _ 4) ?_
        rintro r k1 ⟨h1, same1, e1, -, -, s1⟩
        exact ⟨h1, same1, e1, s1⟩
      · exact wp_pure ⟨h, fun q _ => Same.refl k q, ⟨rfl, rfl, rfl, rfl⟩, fun _ => Shared.refl k i⟩
    refine wp_seq hcopy ?_
    rintro r k1 ⟨h1, same1, e1, s1⟩
    by_cases hneg : r < 0
    · rw [if_pos hneg]
      exact wp_pure ⟨h1, fun q hq => .inl (same1 q hq), s1⟩
    rw [if_neg hneg]
    have hidle := h1.idle_proc j
    rw [add_assoc] at hidle
    refine wp_seq (wp_freePages hidle (h1.proc j)) ?_
    rintro ⟨⟩ k2 ⟨w, hfreed, -⟩
    rw [e1.proc] at hfreed
    obtain ⟨h2, same2⟩ := w.kinv h1 ∅ (fun _ _ _ => Finset.notMem_empty _) fun _ => by
      rw [hfreed]
      exact Proc.freed_settled ((h.settled j (Finset.notMem_empty j)).zombie hz)
    have hij : i ≠ j := by
      rintro rfl
      exact absurd (hrun.symm.trans hz) (by decide)
    refine wp_pure ⟨h2, fun q hq => ?_, fun hmiss => (s1 hmiss).trans (same2 i hij).shared⟩
    by_cases hqj : q = j
    · subst hqj
      refine .inr ⟨hz, hfreed, ?_⟩
      have hpages := w.moves.pages
      rw [hfreed, Proc.freed_pages, add_zero, (same1 q hq).pages] at hpages
      rw [hpages]
      exact Multiset.le_add_left _ _
    · exact .inl ((same1 q hq).trans (same2 q hqj))

/-- **`kill`** marks a process. -/
theorem wp_kill (h : KInv k X Y ∅) (pid : BitVec 32) :
    wp (kill pid) (fun _ k' => KInv k' X Y ∅ ∧ ∀ j, Same k k' j) k := by
  rw [kill]
  refine wp_bind (wp_get ?_)
  cases (finRange NPROC).find? fun i => decide ((k.proc i).pid = pid) with
  | none => exact wp_pure ⟨h, Same.refl k⟩
  | some i =>
    refine wp_seq (wp_setProc i _ k) ?_
    rintro ⟨⟩ k1 e1
    have hset := h.settled i (Finset.notMem_empty i)
    refine wp_pure (h.relabel _ e1 ⟨rfl, rfl, rfl, rfl, rfl, rfl⟩ (fun _ hj _ => hj) fun _ => ?_)
    by_cases hsl : (k.proc i).state = .SLEEPING
    · simp only [if_pos hsl]
      refine ⟨fun hun => (nomatch hun), fun _ => hset.used ?_, fun hz => (nomatch hz)⟩
      rw [hsl]
      decide
    · simp only [if_neg hsl]
      exact ⟨hset.unused, hset.used, hset.zombie⟩

end Xv6
