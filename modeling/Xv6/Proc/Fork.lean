/-
# Xv6.Proc.Fork — `fork`.

`fork` makes a process with `allocproc`, copies memory and trapframe into it, and then duplicates the
descriptors.  Until the descriptors come, it works on the new process only; a failure frees it again.
-/
import Xv6.Proc.Pipe

namespace Xv6

open Lib Lib.Store Lib.Prog Multiset

variable {k k' : Kernel} {X : Multiset Nat} {Y : Fin NFILE → Int} {E : Finset (Fin NPROC)}
  {f g : Fin NFILE} {i j np : Fin NPROC} {fd : Fin NOFILE}

/-- **The loop of `fork`** over the descriptors, of which the child has none yet. -/
theorem wp_dupOfiles (fds : List (Fin NOFILE)) (hnd : fds.Nodup)
    (h : KInv k X 0 E) (ha : (k.proc np).Active) (hnone : ∀ fd ∈ fds, (k.proc np).ofile fd = none) :
    wp (dupOfiles i np fds) (fun _ k' => KInv k' X 0 E ∧ OfileOnly np k k') k := by
  induction fds generalizing k with
  | nil => exact wp_pure ⟨h, OfileOnly.refl np k⟩
  | cons fd fds ih =>
    obtain ⟨hnotin, hnd⟩ := List.nodup_cons.mp hnd
    rw [dupOfiles]
    refine wp_bind (wp_get ?_)
    cases hfd : (k.proc i).ofile fd with
    | none =>
      exact wp_bind (wp_pure (ih hnd h ha fun fd' hin => hnone fd' (List.mem_cons_of_mem _ hin)))
    | some f0 =>
      obtain ⟨href, htype⟩ := h.fd_open rfl hfd
      refine wp_bind (wp_seq (h.wp_filedup href htype) ?_)
      rintro f k1 ⟨rfl, h1, q1, ht1⟩
      refine wp_mono (wp_setProc np _ k1) ?_
      rintro ⟨⟩ k2 e2
      have hself : k2.proc np = (k.proc np).setFd fd (some f) := by
        rw [e2.self, q1.proc]
        rfl
      have hempty : (k1.proc np).ofile fd = none := by
        rw [q1.proc]
        exact hnone fd List.mem_cons_self
      obtain ⟨h2, same2⟩ := h1.setFd (by rwa [q1.proc]) e2
        (h1.files.fill hempty (by rwa [ht1]))
      rw [give_give, add_neg_cancel, give_zero] at h2
      refine wp_mono (ih hnd h2 (by rw [hself]; exact ha) fun fd' hin => ?_) ?_
      · rw [hself]
        refine (Function.update_of_ne ?_ _ _).trans (hnone fd' (List.mem_cons_of_mem _ hin))
        rintro rfl
        exact hnotin hin
      rintro ⟨⟩ k' ⟨h', c⟩
      exact ⟨h', (q1.setFd e2 same2).trans c⟩

/-- **`fork`** keeps the invariant, whether it succeeds or fails, and leaves every process there was
as it is; the shared page of the child shows its pid. -/
theorem wp_fork (h : KInv k X 0 ∅) (hrun : (k.proc i).state = .RUNNABLE) :
    wp (fork i) (fun _ k' => KInv k' X 0 ∅ ∧ (∀ j, (k.proc j).state ≠ .UNUSED → Same k k' j) ∧
      ∀ j, (k.proc j).state = .UNUSED → (k'.proc j).state = .UNUSED ∨ k'.ShowsPid j) k := by
  have hlive : (k.proc i).state ≠ .UNUSED := by
    rw [hrun]
    decide
  rw [fork]
  refine wp_seq (wp_allocproc h) ?_
  rintro r k1 (⟨rfl, h1, u⟩ | ⟨np, rfl, hun, w1, hnew, hpid1⟩)
  · exact wp_pure ⟨h1, fun j _ => u.same j, fun j hj => .inl (u.unused j hj)⟩
  have hne : i ≠ np := by
    rintro rfl
    exact hlive hun
  obtain ⟨h1, same1⟩ := w1.kinv_new h hnew
  have hi1 := w1.proc i hne
  obtain ⟨root, tf, us, hr, htf, hus, hs⟩ := h1.live (i := i) (by rw [hi1]; exact hlive)
  obtain ⟨nroot, ntf, nus, hnr, hntf, hnus, hns⟩ := h1.live (i := np) (by
    rw [hnew.state]
    decide)
  have hp1 : (k1.proc np).sz = 0 ∧ (k1.proc np).guard = none := ⟨hnew.size, hnew.guard⟩
  rw [hp1.1, hp1.2] at hns
  refine wp_bind (wp_get (wp_bind (wp_deref hr (wp_bind (wp_get (wp_bind (wp_deref hnr ?_)))))))
  have hidle := h1.idle_space hnr hntf hnus
  rw [add_assoc, hp1.1] at hidle
  refine wp_seq (wp_onMach (hs.wp_copy hns hidle ?_)) ?_
  · have hle := Kernel.pages_le_rest (k := k1) hne
    rw [Proc.pages_eq hr htf hus, add_assoc] at hle
    exact ((le_add_right _ _).trans hle).trans
      ((le_add_left _ _).trans ((le_add_left _ _).trans (le_add_left _ _)))
  rintro r k2 ⟨⟨rfl, m2, hs2, -⟩ | ⟨rfl, m2, hs2⟩, e2⟩
  · rw [if_neg (by decide)]
    refine wp_seq (wp_setProc np _ k2) ?_
    rintro ⟨⟩ k3 e3
    rw [e2.proc] at e3
    have w3 : Work np k k3 := by
      refine w1.space nroot hnr hntf hnus (fun j hj => ?_) ?_ ?_ ?_ ?_ ?_ ?_ ?_ ?_
      · rw [e3.ne hj, e2.proc]
      · rw [e3.ftable, e2.ftable]
      · rw [e3.initproc, e2.initproc]
      · rw [e3.self, hnr]
      · rw [e3.self, hntf]
      · rw [e3.self, hnus]
      · rw [e3.self]
      · rw [e3.self, e3.mach, hp1.1]
        exact m2
      · rw [e3.self, e3.mach]
        exact hs2
    -- the trapframe
    have hntf3 : (k3.proc np).trapframe = some ntf := by rw [e3.self, hntf]
    refine wp_bind (wp_deref htf (wp_bind (wp_get (wp_bind (wp_deref hntf3 ?_)))))
    have hpage := (h.idle_work w3).page ntf (mem_add.mpr (.inr
      (mem_add.mpr (.inl (Proc.mem_pages (.inl hntf3))))))
    refine wp_seq (wp_onMach (wp_memmove (p := ntf) tf hpage.1 le_rfl ?_)) ?_
    · exact Nat.add_le_add_left (by decide) ntf
    rintro ⟨⟩ k4 ⟨⟨ht4, hf4, hr4⟩, e4⟩
    have w4 : Work np k k4 := w3.write_page h e4 (.inl hntf3) ht4 hf4 hr4
    have hntf4 : (k4.proc np).trapframe = some ntf := by rw [e4.proc, hntf3]
    refine wp_seq (wp_onMach (wp_storeWord (n := 8) 0 hpage.1 (Nat.le_add_right ntf TF_A0) ?_)) ?_
    · exact Nat.add_le_add_left (by decide : TF_A0 + 8 ≤ PGSIZE) ntf
    rintro ⟨⟩ k5 ⟨⟨-, ht5, hf5, hr5⟩, e5⟩
    have w5 : Work np k k5 := w4.write_page h e5 (.inl hntf4) ht5 hf5 hr5
    -- the descriptors
    have hself : k5.proc np =
        { k1.proc np with sz := (k1.proc i).sz, guard := (k1.proc i).guard } := by
      rw [e5.proc, e4.proc, e3.self]
    have hset : (k5.proc np).Settled := by
      rw [hself]
      exact ⟨(h1.settled np (Finset.notMem_empty np)).unused, fun _ => hnew.pagetable,
        (h1.settled np (Finset.notMem_empty np)).zombie⟩
    obtain ⟨h5, same5⟩ := w5.kinv h ∅ (fun _ _ _ => Finset.notMem_empty _) fun _ => hset
    have hact : (k5.proc np).Active := by
      rw [Proc.Active, hself, hnew.state]
      decide
    refine wp_seq (wp_dupOfiles (i := i) _ (List.nodup_finRange NOFILE) h5 hact fun fd _ => ?_) ?_
    · rw [hself]
      exact hnew.ofile fd
    rintro ⟨⟩ k6 ⟨h6, c6⟩
    -- the rest
    refine wp_seq (wp_setProc np _ k6) ?_
    rintro ⟨⟩ k7 e7
    have hset6 := h6.settled np (Finset.notMem_empty np)
    obtain ⟨h7, same7⟩ := h6.relabel ∅ e7 ⟨rfl, rfl, rfl, rfl, rfl, rfl⟩
      (fun _ hj _ => hj) fun _ => ⟨hset6.unused, hset6.used, hset6.zombie⟩
    have hpt : (k7.proc np).pagetable ≠ none := by
      rw [(same7 np).pagetable, (c6.same np).pagetable, hself]
      exact hnew.pagetable
    refine wp_bind (wp_get (wp_seq (wp_setProc np _ k7) ?_))
    rintro ⟨⟩ k8 e8
    obtain ⟨h8, same8⟩ := h7.relabel ∅ e8 ⟨rfl, rfl, rfl, rfl, rfl, rfl⟩
      (fun _ hj _ => hj) fun _ => ⟨fun hz => (nomatch hz), fun _ => hpt, fun hz => (nomatch hz)⟩
    -- the shared page of the child was written in `allocproc` and not since
    have hne' := h1.trapframe_ne hntf
    have hshared : Shared k1 k5 np := by
      rw [← hp1.1, ← e3.mach] at m2
      refine (h1.shared_space hnr hntf hnus m2 (by rw [e3.self])).trans ?_
      refine (Shared.of_touches ht4 ?_ (by rw [e4.proc])).trans
        (Shared.of_touches ht5 ?_ (by rw [e5.proc]))
      · rwa [e3.self]
      · rwa [e4.proc, e3.self]
    have hshows : k8.ShowsPid np := by
      refine Shared.showsPid (((hshared.trans (c6.same np).shared).trans (same7 np).shared).trans
        (same8 np).shared) h1 ?_ hpid1
      obtain ⟨o, ho⟩ := c6.self
      rw [e8.self, e7.self, ho, hself]
    refine wp_pure ⟨h8, fun j hj => ?_, fun j hj => ?_⟩
    · have hjnp : j ≠ np := by
        rintro rfl
        exact hj hun
      exact (((same5 j hjnp).trans (c6.same j)).trans (same7 j)).trans (same8 j)
    · by_cases hjnp : j = np
      · exact .inr (hjnp ▸ hshows)
      · refine .inl ?_
        rw [e8.ne hjnp, e7.ne hjnp, c6.proc j hjnp, w5.proc j hjnp, hj]
  · -- no memory for the copy
    rw [if_pos (by decide)]
    have w2 : Work np k k2 := by
      refine w1.resize 0 hnr hntf hnus ?_ e2.ftable e2.initproc ?_ ?_
      · rw [e2.proc, ← hp1.1]
        exact (Function.update_eq_self np k1.proc).symm
      · rw [hp1.1]
        exact m2
      · rw [hp1.2]
        exact hs2
    refine wp_mono (wp_unalloc h w2 hun) ?_
    rintro r k3 ⟨-, h3, u⟩
    exact ⟨h3, fun j _ => u.same j, fun j hj => .inl (u.unused j hj)⟩

end Xv6
