/-
# Xv6.Clock — the clock and `sys_sleep` (`kernel/trap.c`, `kernel/sysproc.c`).

`sys_sleep` holds `tickslock` whenever it evaluates the condition of its loop, and gives it back in `sleep`.
So a run is a sequence of clock ticks and of wakeups of the caller, in any order; a wakeup may come without
a tick.  In the condition `ticks - ticks0 < n` the int `n` is converted to an unsigned one.
-/
import Mathlib

namespace Xv6.Clock

open List

/-- A call of `sys_sleep` and the tick counter. -/
structure Sleep where
  ticks : BitVec 32
  ticks0 : BitVec 32
  n : BitVec 32
  /-- What the call has returned; `none` while it sleeps. -/
  ret : Option Int
  deriving DecidableEq, Repr

/-- The loop condition of `sys_sleep`, and what follows it up to the next `sleep`. -/
def evaluate (killed : Bool) (s : Sleep) : Sleep :=
  if s.ticks - s.ticks0 < s.n then
    if killed then { s with ret := some (-1) } else s
  else
    { s with ret := some 0 }

/-- `sys_sleep` up to its first `sleep`. -/
def sysSleep (ticks n : BitVec 32) (killed : Bool) : Sleep := evaluate killed ⟨ticks, ticks, n, none⟩

/-- What can happen while the call sleeps. -/
inductive Act
  | tick
  | wake (killed : Bool)
  deriving DecidableEq, Repr

def clockintr (s : Sleep) : Sleep := { s with ticks := s.ticks + 1 }

def step (s : Sleep) : Act → Sleep
  | .tick => clockintr s
  | .wake killed => if s.ret.isSome then s else evaluate killed s

/-- A run after the first evaluation. -/
def run (s : Sleep) (acts : List Act) : Sleep := acts.foldl step s

/-! ## When the call returns -/

/-- The ticks in a run. -/
def elapsed (acts : List Act) : Nat := acts.count .tick

/-- The loop condition is evaluated at the end of `acts`. -/
def Evaluates (acts : List Act) : Prop := acts = [] ∨ ∃ pre, acts = pre ++ [.wake false]

/-- There was an evaluation by which `max(n, 0)` ticks have passed since the call. -/
def Due (n : BitVec 32) (acts : List Act) : Prop :=
  ∃ pre, pre <+: acts ∧ Evaluates pre ∧ n.toInt.toNat ≤ elapsed pre

/-- A sleep of `n` ticks is right: unless the process is killed, it returns 0 at the first evaluation by which
`n` ticks have passed, and not before. -/
def SleepsRight (n : BitVec 32) : Prop :=
  ∀ ticks acts, .wake true ∉ acts → elapsed acts < 2 ^ 32 →
    (Due n acts → (run (sysSleep ticks n false) acts).ret = some 0) ∧
    (¬Due n acts → (run (sysSleep ticks n false) acts).ret = none)

variable {n : BitVec 32} {acts : List Act}

theorem due_nil : Due n [] ↔ n.toInt.toNat = 0 := by
  constructor
  · rintro ⟨pre, hpre, -, h⟩
    rw [prefix_nil.mp hpre] at h
    exact Nat.le_zero.mp h
  · exact fun h => ⟨[], prefix_rfl, .inl rfl, h.le⟩

theorem due_tick : Due n (acts ++ [.tick]) ↔ Due n acts := by
  refine exists_congr fun pre => ?_
  rw [prefix_concat_iff]
  constructor
  · rintro ⟨rfl | hpre, hev, h⟩
    · rcases hev with he | ⟨l, he⟩
      · exact absurd he (append_ne_nil_of_right_ne_nil _ (cons_ne_nil _ _))
      · exact nomatch (append_inj_right' he rfl)
    · exact ⟨hpre, hev, h⟩
  · exact fun ⟨hpre, h⟩ => ⟨.inr hpre, h⟩

theorem due_wake : Due n (acts ++ [.wake false]) ↔ Due n acts ∨ n.toInt.toNat ≤ elapsed acts := by
  have hel : elapsed (acts ++ [.wake false]) = elapsed acts := by
    rw [elapsed, count_append, elapsed]
    rfl
  constructor
  · rintro ⟨pre, hpre, hev, h⟩
    rcases prefix_concat_iff.mp hpre with rfl | hpre
    · exact .inr (hel ▸ h)
    · exact .inl ⟨pre, hpre, hev, h⟩
  · rintro (⟨pre, hpre, h⟩ | h)
    · exact ⟨pre, hpre.trans (prefix_append _ _), h⟩
    · exact ⟨_, prefix_rfl, .inr ⟨acts, rfl⟩, hel.symm ▸ h⟩

/-- The unsigned difference is the number of ticks, also if the counter has wrapped around. -/
theorem lt_iff_elapsed (ticks : BitVec 32) (hk : k < 2 ^ 32) (hn : 0 ≤ n.toInt) :
    ticks + BitVec.ofNat 32 k - ticks < n ↔ ¬n.toInt.toNat ≤ k := by
  have hsub : ticks + BitVec.ofNat 32 k - ticks = BitVec.ofNat 32 k := by
    rw [BitVec.add_comm, BitVec.add_sub_cancel]
  have hnat : n.toInt = n.toNat := by
    rw [BitVec.toInt_eq_toNat_cond] at hn ⊢
    split at hn <;> omega
  rw [hsub, BitVec.lt_def, BitVec.toNat_ofNat, Nat.mod_eq_of_lt hk, hnat, Int.toNat_natCast, Nat.not_le]

/-- What a run keeps, for a call at the tick `t`. -/
structure Sleeping (t n : BitVec 32) (acts : List Act) (s : Sleep) : Prop where
  now : s.ticks = t + BitVec.ofNat 32 (elapsed acts)
  start : s.ticks0 = t
  bound : s.n = n
  due : Due n acts → s.ret = some 0
  not_due : ¬Due n acts → s.ret = none

/-- **The evaluation** of the condition of a call that has not returned. -/
theorem ret_evaluate (hn : 0 ≤ n.toInt) (hlt : elapsed acts < 2 ^ 32)
    (ht : s.ticks = t + BitVec.ofNat 32 (elapsed acts)) (ht0 : s.ticks0 = t) (hsn : s.n = n)
    (hret : s.ret = none) :
    evaluate false s = { s with ret := if n.toInt.toNat ≤ elapsed acts then some 0 else none } := by
  have hcond : s.ticks - s.ticks0 < s.n ↔ ¬n.toInt.toNat ≤ elapsed acts := by
    rw [ht, ht0, hsn]
    exact lt_iff_elapsed t hlt hn
  rw [evaluate]
  by_cases hle : n.toInt.toNat ≤ elapsed acts
  · rw [if_neg fun h => hcond.mp h hle, if_pos hle]
  · rw [if_pos (hcond.mpr hle), if_neg Bool.false_ne_true, if_neg hle, ← hret]

theorem sleeping_run (t : BitVec 32) (hn : 0 ≤ n.toInt) (hk : .wake true ∉ acts)
    (hlt : elapsed acts < 2 ^ 32) : Sleeping t n acts (run (sysSleep t n false) acts) := by
  induction acts using reverseRecOn with
  | nil =>
    have hnow : t = t + BitVec.ofNat 32 (elapsed []) := (BitVec.add_zero t).symm
    have hev := ret_evaluate (s := ⟨t, t, n, none⟩) hn (by decide) hnow rfl rfl rfl
    have hdue : Due n [] ↔ n.toInt.toNat ≤ elapsed [] := due_nil.trans Nat.le_zero.symm
    have hrun : run (sysSleep t n false) [] = evaluate false ⟨t, t, n, none⟩ := rfl
    rw [hrun, hev]
    exact ⟨hnow, rfl, rfl, fun h => if_pos (hdue.mp h),
      fun h => if_neg fun hle => h (hdue.mpr hle)⟩
  | append_singleton acts a ih =>
    rw [mem_append, not_or] at hk
    have hel : elapsed (acts ++ [a]) = elapsed acts + elapsed [a] := count_append
    have hs := ih hk.1 (by omega)
    have hrun : run (sysSleep t n false) (acts ++ [a]) = step (run (sysSleep t n false) acts) a :=
      foldl_concat ..
    rw [hrun]
    cases a with
    | tick =>
      refine ⟨?_, hs.start, hs.bound, fun h => hs.due (due_tick.mp h), fun h => hs.not_due (due_tick.not.mp h)⟩
      show (run (sysSleep t n false) acts).ticks + 1 = _
      rw [hs.now, hel, BitVec.add_assoc, BitVec.ofNat_add]
      rfl
    | wake killed =>
      obtain rfl : killed = false := by
        cases killed with
        | false => rfl
        | true => exact absurd mem_cons_self hk.2
      have hel : elapsed (acts ++ [.wake false]) = elapsed acts := hel
      have hnow := hel.symm ▸ hs.now
      by_cases hdue : Due n acts
      · have hret := hs.due hdue
        rw [step, hret, if_pos (by decide)]
        exact ⟨hnow, hs.start, hs.bound, fun _ => hret, fun h => absurd (due_wake.mpr (.inl hdue)) h⟩
      · have hret := hs.not_due hdue
        rw [step, hret, if_neg (by decide), ret_evaluate hn (hel ▸ hlt) hs.now hs.start hs.bound hret]
        exact ⟨hnow, hs.start, hs.bound, fun h => if_pos ((due_wake.mp h).resolve_left hdue),
          fun h => if_neg fun hle => h (due_wake.mpr (.inr hle))⟩

/-- **`sys_sleep`** sleeps for the number of ticks it is asked for, for all values of the tick counter and all
orders of ticks and wakeups, iff that number is not negative. -/
theorem sleepsRight_iff (n : BitVec 32) : SleepsRight n ↔ 0 ≤ n.toInt := by
  constructor
  · intro h
    by_contra hneg
    have hdue : Due n [] := due_nil.mpr (by omega)
    have hret := (h 0 [] not_mem_nil (by decide)).1 hdue
    have hlt : (0 : BitVec 32) - 0 < n := by
      show 0 < n.toNat
      refine Nat.pos_of_ne_zero fun h0 => hneg ?_
      rw [BitVec.toInt_eq_toNat_cond, h0]
      decide
    have hnone : (run (sysSleep 0 n false) []).ret = none := by
      show (sysSleep 0 n false).ret = none
      rw [sysSleep, evaluate, if_pos hlt]
      rfl
    cases hnone.symm.trans hret
  · intro hn ticks acts hk hlt
    have hs := sleeping_run ticks hn hk hlt
    exact ⟨hs.due, hs.not_due⟩

/-- `sleep(-1)` does not return at once, nor after a tick. -/
theorem sleep_negative : (-1 : BitVec 32).toInt = -1 ∧ Due (-1) [] ∧
    (run (sysSleep 0 (-1) false) []).ret = none ∧
    (run (sysSleep 0 (-1) false) [.tick, .wake false]).ret = none :=
  ⟨by decide, due_nil.mpr (by decide), by decide, by decide⟩

end Xv6.Clock
