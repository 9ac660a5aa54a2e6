/-
# Xv6.Lib.Trace — runs of a partial step function.

A system is a step function that may refuse an action.  `run` folds it over a list of actions; an
invariant is proved once for one step and holds along every run.
-/
import Mathlib.Logic.Function.Basic
import Mathlib.Tactic.Cases

namespace Xv6.Lib

universe u

variable {σ α ε : Type u}

/-- Run the actions in order; stop at the first one that is refused. -/
def run (step : σ → α → Except ε σ) : σ → List α → Except ε σ
  | s, [] => .ok s
  | s, a :: as => step s a >>= fun s' => run step s' as

variable {step : σ → α → Except ε σ}

theorem run_cons (s : σ) (a : α) (as : List α) :
    run step s (a :: as) = step s a >>= fun s' => run step s' as := rfl

theorem run_cons_ok :
    run step s (a :: as) = .ok s' ↔ ∃ t, step s a = .ok t ∧ run step t as = .ok s' := by
  rw [run_cons]
  cases h : step s a with
  | error e =>
    constructor
    · intro h
      cases h
    · rintro ⟨t, ht, -⟩
      cases ht
  | ok t =>
    constructor
    · intro h
      exact ⟨t, rfl, h⟩
    · rintro ⟨_, ht, h⟩
      cases ht
      exact h

/-- **A run that is refused** was refused at one action, after a run that was not. -/
theorem run_error_iff :
    run step s as = .error e ↔
      ∃ pre a post t, as = pre ++ a :: post ∧ run step s pre = .ok t ∧ step t a = .error e := by
  induction as generalizing s with
  | nil =>
    constructor
    · intro h
      cases h
    · rintro ⟨pre, a, post, t, h, -⟩
      simp at h
  | cons a as ih =>
    rw [run_cons]
    cases hs : step s a with
    | error e' =>
      constructor
      · intro h
        exact ⟨[], a, as, s, rfl, rfl, hs.trans h⟩
      · rintro ⟨pre, b, post, t, heq, hrun, hstep⟩
        cases pre with
        | nil =>
          obtain ⟨rfl, rfl⟩ := List.cons.inj heq
          cases hrun
          exact hs.symm.trans hstep
        | cons c pre =>
          obtain ⟨rfl, -⟩ := List.cons.inj heq
          obtain ⟨u, hu, -⟩ := run_cons_ok.mp hrun
          rw [hs] at hu
          cases hu
    | ok u =>
      refine (ih (s := u)).trans ?_
      constructor
      · rintro ⟨pre, b, post, t, rfl, hrun, hstep⟩
        exact ⟨a :: pre, b, post, t, rfl, run_cons_ok.mpr ⟨u, hs, hrun⟩, hstep⟩
      · rintro ⟨pre, b, post, t, heq, hrun, hstep⟩
        cases pre with
        | nil =>
          obtain ⟨rfl, rfl⟩ := List.cons.inj heq
          cases hrun
          rw [hs] at hstep
          cases hstep
        | cons c pre =>
          obtain ⟨rfl, rfl⟩ := List.cons.inj heq
          obtain ⟨v, hv, hrun⟩ := run_cons_ok.mp hrun
          rw [hs] at hv
          cases hv
          exact ⟨pre, b, post, t, rfl, hrun, hstep⟩

/-- **The invariant rule.** What one step keeps, every run keeps. -/
theorem run_invariant {I : σ → Prop} (hstep : ∀ s a s', I s → step s a = .ok s' → I s')
    (h : run step s as = .ok s') (hs : I s) : I s' := by
  induction as generalizing s with
  | nil =>
    cases h
    exact hs
  | cons a as ih =>
    obtain ⟨t, ht, hrun⟩ := run_cons_ok.mp h
    exact ih hrun (hstep s a t hs ht)

theorem run_append_ok (h : run step s as = .ok t)
    (h' : run step t bs = .ok s') : run step s (as ++ bs) = .ok s' := by
  induction as generalizing s with
  | nil =>
    cases h
    exact h'
  | cons a as ih =>
    obtain ⟨u, hu, hrun⟩ := run_cons_ok.mp h
    exact run_cons_ok.mpr ⟨u, hu, ih hrun⟩

theorem run_concat_ok :
    run step s (as ++ [a]) = .ok s' ↔ ∃ t, run step s as = .ok t ∧ step t a = .ok s' := by
  constructor
  · intro h
    induction as generalizing s with
    | nil =>
      obtain ⟨t, ht, hnil⟩ := run_cons_ok.mp h
      cases hnil
      exact ⟨s, rfl, ht⟩
    | cons b as ih =>
      obtain ⟨u, hu, hrun⟩ := run_cons_ok.mp h
      obtain ⟨t, ht, ha⟩ := ih hrun
      exact ⟨t, run_cons_ok.mpr ⟨u, hu, ht⟩, ha⟩
  · rintro ⟨t, ht, ha⟩
    exact run_append_ok ht (run_cons_ok.mpr ⟨s', ha, rfl⟩)

/-- **The invariant rule, for some steps.** What the steps with `C` keep, every run of such steps
keeps. -/
theorem run_invariant_of {I : σ → Prop} {C : σ → α → Prop}
    (hstep : ∀ s a s', I s → C s a → step s a = .ok s' → I s')
    (h : run step s as = .ok s')
    (hC : ∀ pre a t, pre ++ [a] <+: as → run step s pre = .ok t → C t a) (hs : I s) : I s' := by
  induction as generalizing s with
  | nil =>
    cases h
    exact hs
  | cons a as ih =>
    obtain ⟨t, ht, hrun⟩ := run_cons_ok.mp h
    have hfst : C s a := hC [] a s ⟨as, rfl⟩ rfl
    refine ih hrun (fun pre b u hpre hu => ?_) (hstep s a t hs hfst ht)
    exact hC (a :: pre) b u (List.cons_prefix_cons.mpr ⟨rfl, hpre⟩) (run_cons_ok.mpr ⟨t, ht, hu⟩)

/-! ## Two systems that take the same actions -/

section Agree

variable {τ : Type u} {R : σ → τ → Prop}

/-- Both refuse, or both go on to related states. -/
def Agree (R : σ → τ → Prop) : Except ε σ → Except ε τ → Prop
  | .ok s, .ok t => R s t
  | .error _, .error _ => True
  | _, _ => False

/-- **The simulation rule.** Systems that agree on every action agree on every run. -/
theorem run_agree {step' : τ → α → Except ε τ}
    (hstep : ∀ s t a, R s t → Agree R (step s a) (step' t a)) (h : R s t)
    (as : List α) : Agree R (run step s as) (run step' t as) := by
  induction as generalizing s t with
  | nil => exact h
  | cons a as ih =>
    have hs := hstep s t a h
    rw [run_cons, run_cons]
    cases hx : step s a with
    | error e =>
      cases hy : step' t a with
      | error e' => trivial
      | ok t' =>
        rw [hx, hy] at hs
        exact hs.elim
    | ok s' =>
      cases hy : step' t a with
      | error e' =>
        rw [hx, hy] at hs
        exact hs.elim
      | ok t' =>
        rw [hx, hy] at hs
        exact ih hs

end Agree

/-- What a run that is evaluated ends in. -/
theorem ok_of_map {β : Type*} {x : Except ε σ} {f : σ → β} {b : β}
    (h : x.toOption.map f = some b) : ∃ s, x = .ok s ∧ f s = b := by
  cases x with
  | error e => cases h
  | ok s => exact ⟨s, rfl, Option.some.inj h⟩

/-! ## One component of many -/

section

open Function

variable {ι : Type*} {β : Type*} [DecidableEq ι] {f : ι → β} {i j : ι} {a b : β}

/-- A component after a change of component `i`. -/
theorem update_cases (h : update f i a j = b) : (j = i ∧ a = b) ∨ (j ≠ i ∧ f j = b) := by
  by_cases hj : j = i
  · subst hj
    rw [update_self] at h
    exact .inl ⟨rfl, h⟩
  · rw [update_of_ne hj] at h
    exact .inr ⟨hj, h⟩

/-- What component `i` is not changed to is another component, and was there before. -/
theorem of_update (h : update f i a j = b) (hab : a ≠ b) : j ≠ i ∧ f j = b :=
  (update_cases h).resolve_left fun he => hab he.2

end

end Xv6.Lib
