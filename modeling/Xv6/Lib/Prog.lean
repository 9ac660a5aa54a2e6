/-
# Xv6.Lib.Prog — stateful programs that can stop with a message, and their pre- and postconditions.

A program of type `Prog σ α` takes a state and either returns a value with a new state or stops with
a message.  `wp x Q s` says that `x`, started in `s`, returns and that its result satisfies `Q`;
`wlp x Q s` says only that whatever it returns satisfies `Q`, and `wpe` names the messages it may stop
with.  A specification of a function is a `wp` about it, and callers use it through `wp_bind` and
`wp_mono` without opening the function.
-/
import Mathlib.Tactic.Cases

namespace Xv6.Lib

/-- A program over the state `σ` that can stop with a message. -/
abbrev Prog (σ α : Type) := StateT σ (Except String) α

namespace Prog

variable {σ τ α β : Type}

/-- Stop with a message. -/
def stop (msg : String) : Prog σ α := fun _ => .error msg

/-- Run a program on a part of the state. -/
def zoom (proj : σ → τ) (put : τ → σ → σ) (x : Prog τ α) : Prog σ α := fun s =>
  match x (proj s) with
  | .ok (a, t) => .ok (a, put t s)
  | .error e => .error e

/-- Run a program and test what it returns. -/
def test (x : Prog σ α) (s : σ) (P : α → σ → Bool) : Bool :=
  match x s with
  | .ok (a, s') => P a s'
  | .error _ => false

/-- Run a program and test that it stops with this message. -/
def stops (x : Prog σ α) (s : σ) (msg : String) : Bool :=
  match x s with
  | .ok _ => false
  | .error e => e == msg

/-- `x` returns from `s`, and its result satisfies `Q`. -/
def wp (x : Prog σ α) (Q : α → σ → Prop) (s : σ) : Prop :=
  ∃ a s', x s = .ok (a, s') ∧ Q a s'

/-- If `x` returns from `s`, its result satisfies `Q`. -/
def wlp (x : Prog σ α) (Q : α → σ → Prop) (s : σ) : Prop :=
  ∀ a s', x s = .ok (a, s') → Q a s'

variable {x : Prog σ α} {f : α → Prog σ β} {Q Q' : α → σ → Prop} {s : σ}

/-! ## Running one step -/

theorem bind_ok (h : x s = .ok (a, s')) : (x >>= f) s = f a s' := by
  show (x s >>= fun r => f r.1 r.2) = f a s'
  rw [h]
  rfl

theorem bind_error (h : x s = .error e) : (x >>= f) s = .error e := by
  show (x s >>= fun r => f r.1 r.2) = .error e
  rw [h]
  rfl

theorem bind_eq_ok :
    (x >>= f) s = .ok (b, s'') ↔ ∃ a s', x s = .ok (a, s') ∧ f a s' = .ok (b, s'') := by
  constructor
  · intro h
    cases hx : x s with
    | error e =>
      rw [bind_error hx] at h
      cases h
    | ok r => exact ⟨r.1, r.2, rfl, (bind_ok hx).symm.trans h⟩
  · rintro ⟨a, s', hx, hf⟩
    exact (bind_ok hx).trans hf

/-- What a test that passes has seen. -/
theorem of_test {P : α → σ → Bool} (h : x.test s P = true) : wp x (fun a s' => P a s' = true) s := by
  rw [test] at h
  cases hx : x s with
  | error e =>
    rw [hx] at h
    cases h
  | ok r =>
    rw [hx] at h
    exact ⟨r.1, r.2, hx, h⟩

theorem of_stops (h : x.stops s msg = true) : x s = .error msg := by
  rw [stops] at h
  cases hx : x s with
  | error e =>
    rw [hx] at h
    rw [eq_of_beq h]
  | ok r =>
    rw [hx] at h
    cases h

/-! ## Rules for returning programs -/

theorem wp_of_eq (h : x s = .ok (a, s')) (hQ : Q a s') : wp x Q s :=
  ⟨a, s', h, hQ⟩

theorem wp_mono (h : wp x Q s) (hQ : ∀ a s', Q a s' → Q' a s') : wp x Q' s := by
  obtain ⟨a, s', hx, hq⟩ := h
  exact ⟨a, s', hx, hQ a s' hq⟩

/-- The run that a specification is about. -/
theorem wp_run (h : wp x Q s) : wp x (fun a s' => x s = .ok (a, s') ∧ Q a s') s := by
  obtain ⟨a, s', hx, hq⟩ := h
  exact ⟨a, s', hx, hx, hq⟩

theorem wp_pure (h : Q a s) : wp (pure a) Q s :=
  ⟨a, s, rfl, h⟩

theorem wp_bind {Q : β → σ → Prop} (h : wp x (fun a s' => wp (f a) Q s') s) :
    wp (x >>= f) Q s := by
  obtain ⟨a, s', hx, b, s'', hf, hQ⟩ := h
  exact ⟨b, s'', (bind_ok hx).trans hf, hQ⟩

/-- The rule callers use: the specification of `x`, then the rest from what it promises. -/
theorem wp_seq {Q : β → σ → Prop} {P : α → σ → Prop} (hx : wp x P s)
    (hf : ∀ a s', P a s' → wp (f a) Q s') : wp (x >>= f) Q s :=
  wp_bind (wp_mono hx hf)

theorem wp_get {Q : σ → σ → Prop} (h : Q s s) : wp (get : Prog σ σ) Q s :=
  ⟨s, s, rfl, h⟩

theorem wp_modify {g : σ → σ} {Q : PUnit → σ → Prop} (h : Q ⟨⟩ (g s)) :
    wp (modify g : Prog σ PUnit) Q s :=
  ⟨⟨⟩, g s, rfl, h⟩

theorem wp_zoom {proj : σ → τ} {put : τ → σ → σ}
    (h : wp y (fun a t => Q a (put t s)) (proj s)) : wp (zoom proj put y) Q s := by
  obtain ⟨a, t, hy, hQ⟩ := h
  exact ⟨a, put t s, by simp only [zoom, hy], hQ⟩

theorem wp_map {g : α → β} {Q : σ → Prop} (h : wp x (fun _ => Q) s) :
    wp (g <$> x) (fun _ => Q) s := by
  rw [map_eq_pure_bind]
  exact wp_seq h fun a s' hQ => wp_pure hQ

/-! ## Rules for programs that may stop -/

theorem wp.wlp (h : wp x Q s) : wlp x Q s := by
  obtain ⟨a, s', hx, hQ⟩ := h
  intro b t hb
  cases hx.symm.trans hb
  exact hQ

theorem wlp_bind {Q : β → σ → Prop} (h : wlp x (fun a s' => wlp (f a) Q s') s) :
    wlp (x >>= f) Q s := by
  intro b s'' hb
  obtain ⟨a, s', hx, hf⟩ := bind_eq_ok.mp hb
  exact h a s' hx b s'' hf

theorem wlp_seq {Q : β → σ → Prop} {P : α → σ → Prop} (hx : wlp x P s)
    (hf : ∀ a s', P a s' → wlp (f a) Q s') : wlp (x >>= f) Q s :=
  wlp_bind fun a s' ha => hf a s' (hx a s' ha)

theorem wlp_pure (h : Q a s) : wlp (pure a) Q s := by
  intro b t hb
  cases hb
  exact h

theorem wlp_and (h : wlp x Q s) (h' : wlp x Q' s) : wlp x (fun a s' => Q a s' ∧ Q' a s') s :=
  fun a s' hx => ⟨h a s' hx, h' a s' hx⟩

theorem wlp_map {g : α → β} {Q : σ → Prop} (h : wlp x (fun _ => Q) s) :
    wlp (g <$> x) (fun _ => Q) s := by
  rw [map_eq_pure_bind]
  exact wlp_seq h fun _ _ hQ => wlp_pure hQ

theorem wlp_zoom {proj : σ → τ} {put : τ → σ → σ}
    (h : wlp y (fun a t => Q a (put t s)) (proj s)) : wlp (zoom proj put y) Q s := by
  intro a s' hz
  rw [zoom] at hz
  cases hy : y (proj s) with
  | error e =>
    rw [hy] at hz
    cases hz
  | ok r =>
    obtain ⟨b, t⟩ := r
    rw [hy] at hz
    cases hz
    exact h a t hy

theorem wlp_stop : wlp (stop msg) Q s := by
  intro b t hb
  cases hb

/-! ## Rules for programs that may stop with some messages

`wpe E x Q s` is between the two: `x` returns with `Q`, or stops with a message that `E` allows.  A
specification takes `E` as a parameter and asks that it allow the messages the function can stop with,
so the same specification serves callers that rule a message out and callers that do not care. -/

/-- `x` from `s` returns a result that satisfies `Q`, or stops with a message that satisfies `E`. -/
def wpe (E : String → Prop) (x : Prog σ α) (Q : α → σ → Prop) (s : σ) : Prop :=
  match x s with
  | .ok (a, s') => Q a s'
  | .error e => E e

section wpe

variable {E : String → Prop}

theorem wpe_of_ok (h : x s = .ok (a, s')) (hQ : Q a s') : wpe E x Q s := by
  rw [wpe, h]
  exact hQ

theorem wpe.of_ok (h : wpe E x Q s) (hx : x s = .ok (a, s')) : Q a s' := by
  rwa [wpe, hx] at h

theorem wpe.of_error (h : wpe E x Q s) (hx : x s = .error e) : E e := by
  rwa [wpe, hx] at h

theorem wp.wpe (h : wp x Q s) : wpe E x Q s := by
  obtain ⟨a, s', hx, hQ⟩ := h
  exact wpe_of_ok hx hQ

/-- If no message is possible, the program returns. -/
theorem wpe.returns (h : wpe E x Q s) (hE : ∀ e, ¬E e) : wp x Q s := by
  cases hx : x s with
  | error e => exact absurd (h.of_error hx) (hE e)
  | ok r => exact ⟨r.1, r.2, hx, h.of_ok hx⟩

/-- If no message is allowed, the program returns. -/
theorem wpe.wp (h : wpe (fun _ => False) x Q s) : wp x Q s := h.returns fun _ he => he

theorem wpe_mono (h : wpe E x Q s) (hQ : ∀ a s', Q a s' → Q' a s') : wpe E x Q' s := by
  cases hx : x s with
  | error e =>
    rw [wpe, hx]
    exact h.of_error hx
  | ok r => exact wpe_of_ok hx (hQ _ _ (h.of_ok hx))

theorem wpe_pure (h : Q a s) : wpe E (pure a) Q s := h

theorem wpe_stop (h : E msg) : wpe E (stop msg) Q s := h

theorem wpe_bind {Q : β → σ → Prop} (h : wpe E x (fun a s' => wpe E (f a) Q s') s) :
    wpe E (x >>= f) Q s := by
  cases hx : x s with
  | error e =>
    rw [wpe, bind_error hx]
    exact h.of_error hx
  | ok r =>
    rw [wpe, bind_ok hx]
    exact h.of_ok hx

/-- The rule callers use: the specification of `x`, then the rest from what it promises. -/
theorem wpe_seq {Q : β → σ → Prop} {P : α → σ → Prop} (hx : wpe E x P s)
    (hf : ∀ a s', P a s' → wpe E (f a) Q s') : wpe E (x >>= f) Q s :=
  wpe_bind (wpe_mono hx hf)

theorem wpe_get {Q : σ → σ → Prop} (h : Q s s) : wpe E (get : Prog σ σ) Q s := h

theorem wpe_modify {g : σ → σ} {Q : PUnit → σ → Prop} (h : Q ⟨⟩ (g s)) :
    wpe E (modify g : Prog σ PUnit) Q s := h

theorem wpe_map {g : α → β} {Q : β → σ → Prop} (h : wpe E x (fun a => Q (g a)) s) :
    wpe E (g <$> x) Q s := by
  rw [map_eq_pure_bind]
  exact wpe_seq h fun _ _ hQ => wpe_pure hQ

end wpe

/-! ## What a program does not change -/

/-- Every run of `x` keeps what `p` reads of the state. -/
def Preserves {γ : Type} (p : σ → γ) (x : Prog σ α) : Prop := ∀ s, wlp x (fun _ s' => p s' = p s) s

section Preserves

variable {γ : Type} {p : σ → γ}

protected theorem Preserves.pure {a : α} : Preserves p (pure a : Prog σ α) := fun _ => wlp_pure rfl

protected theorem Preserves.get : Preserves p (get : Prog σ σ) := fun s => (wp_get (Q := fun _ s' => p s' = p s) rfl).wlp

protected theorem Preserves.stop {msg : String} : Preserves p (stop msg : Prog σ α) := fun _ => wlp_stop

protected theorem Preserves.modify {g : σ → σ} (h : ∀ s, p (g s) = p s) : Preserves p (modify g : Prog σ PUnit) :=
  fun s => (wp_modify (Q := fun _ s' => p s' = p s) (h s)).wlp

protected theorem Preserves.bind (hx : Preserves p x) (hf : ∀ a, Preserves p (f a)) : Preserves p (x >>= f) := fun s =>
  wlp_seq (hx s) fun a s' h b s'' hb => (hf a s' b s'' hb).trans h

protected theorem Preserves.map {g : α → β} (hx : Preserves p x) : Preserves p (g <$> x) := by
  rw [map_eq_pure_bind]
  exact .bind hx fun _ => .pure

protected theorem Preserves.zoom {proj : σ → τ} {put : τ → σ → σ} {y : Prog τ α} (h : ∀ t s, p (put t s) = p s) :
    Preserves p (zoom proj put y) := fun s => wlp_zoom fun _ t _ => h t s

protected theorem Preserves.ite {c : Prop} [Decidable c] {y : Prog σ α} (hx : Preserves p x) (hy : Preserves p y) :
    Preserves p (if c then x else y) := by
  split
  · exact hx
  · exact hy

end Preserves

end Prog

end Xv6.Lib
