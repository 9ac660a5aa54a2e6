/-
# Xv6.Lib.Owns — resources of a pool, each held in at most one slot.

`own s` is the resource in slot `s`, if there is one.  `Owns` says that slots hold resources of the
pool, that no resource is in two slots, and that a resource of the pool is marked as used exactly if
some slot holds it.  An allocator marks a resource and puts it into an empty slot, or takes it out of
its slot and clears the mark; both keep `Owns`.
-/
import Mathlib.Data.Finset.Card

namespace Xv6.Lib

open Finset

variable {S B : Type}

/-- The slots hold the used resources of the pool `A`, each in one slot. -/
structure Owns (A used : B → Prop) (own : S → Option B) : Prop where
  pool : ∀ {s b}, own s = some b → A b
  inj : ∀ {s t b}, own s = some b → own t = some b → s = t
  used_iff : ∀ {b}, A b → (used b ↔ ∃ s, own s = some b)

namespace Owns

variable {A used used' : B → Prop} {own own' : S → Option B} {s : S} {b : B}

theorem congr (h : Owns A used own) (hused : ∀ b, A b → (used' b ↔ used b))
    (hown : ∀ s, own' s = own s) : Owns A used' own' := by
  obtain rfl : own' = own := funext hown
  exact ⟨h.pool, h.inj, fun hb => (hused _ hb).trans (h.used_iff hb)⟩

/-- A resource that is not used is in no slot. -/
theorem ne_of_free (h : Owns A used own) (hfree : ¬used b) : own s ≠ some b := fun hs =>
  hfree ((h.used_iff (h.pool hs)).mpr ⟨s, hs⟩)

theorem used_of_own (h : Owns A used own) (hs : own s = some b) : used b :=
  (h.used_iff (h.pool hs)).mpr ⟨s, hs⟩

/-- One slot holds a resource. -/
theorem single (hb : A b) (hself : own s = some b) (hown : ∀ t, t ≠ s → own t = none)
    (hused : ∀ c, A c → (used c ↔ c = b)) : Owns A used own := by
  have hcases : ∀ {t c}, own t = some c → t = s ∧ c = b := by
    intro t c ht
    by_cases hts : t = s
    · subst hts
      exact ⟨rfl, Option.some_inj.mp (ht.symm.trans hself)⟩
    · rw [hown t hts] at ht
      cases ht
  refine ⟨fun ht => (hcases ht).2 ▸ hb, fun ht hu => (hcases ht).1.trans (hcases hu).1.symm,
    fun {c} hc => ?_⟩
  rw [hused c hc]
  constructor
  · rintro rfl
    exact ⟨s, hself⟩
  · rintro ⟨t, ht⟩
    exact (hcases ht).2

section Family

variable {J : Type} {g : J → S} {f : J → B}

/-- Free resources, no two the same, go into empty slots. -/
theorem allocAll (h : Owns A used own) (hf : Function.Injective f)
    (hs : ∀ j, own (g j) = none) (hA : ∀ j, A (f j)) (hfree : ∀ j, ¬used (f j))
    (hused : ∀ c, A c → (used' c ↔ (∃ j, f j = c) ∨ used c))
    (hself : ∀ j, own' (g j) = some (f j))
    (hown : ∀ t, (∀ j, t ≠ g j) → own' t = own t) : Owns A used' own' := by
  have hcases : ∀ {t c}, own' t = some c →
      (∃ j, t = g j ∧ c = f j) ∨ ((∀ j, t ≠ g j) ∧ own t = some c) := by
    intro t c ht
    by_cases hts : ∃ j, t = g j
    · obtain ⟨j, rfl⟩ := hts
      exact .inl ⟨j, rfl, Option.some_inj.mp (ht.symm.trans (hself j))⟩
    · have hne : ∀ j, t ≠ g j := fun j hj => hts ⟨j, hj⟩
      exact .inr ⟨hne, (hown t hne) ▸ ht⟩
  refine ⟨fun {t c} ht => ?_, fun {t u c} ht hu => ?_, fun {c} hc => ?_⟩
  · rcases hcases ht with ⟨j, -, rfl⟩ | ⟨-, ht⟩
    · exact hA j
    · exact h.pool ht
  · rcases hcases ht with ⟨j, rfl, rfl⟩ | ⟨-, ht⟩ <;> rcases hcases hu with ⟨k, rfl, hc⟩ | ⟨-, hu⟩
    · rw [hf hc]
    · exact absurd hu (h.ne_of_free (hfree j))
    · exact absurd (hc ▸ ht) (h.ne_of_free (hfree k))
    · exact h.inj ht hu
  · rw [hused c hc, h.used_iff hc]
    constructor
    · rintro (⟨j, rfl⟩ | ⟨t, ht⟩)
      · exact ⟨g j, hself j⟩
      · refine ⟨t, (hown t fun j hj => ?_).trans ht⟩
        rw [hj, hs j] at ht
        cases ht
    · rintro ⟨t, ht⟩
      rcases hcases ht with ⟨j, -, rfl⟩ | ⟨-, ht⟩
      · exact .inl ⟨j, rfl⟩
      · exact .inr ⟨t, ht⟩

/-- Resources leave their slots and are free. -/
theorem freeAll (h : Owns A used own) (hs : ∀ j, own (g j) = some (f j))
    (hused : ∀ c, A c → (used' c ↔ (∀ j, c ≠ f j) ∧ used c)) (hself : ∀ j, own' (g j) = none)
    (hown : ∀ t, (∀ j, t ≠ g j) → own' t = own t) : Owns A used' own' := by
  have hcases : ∀ {t c}, own' t = some c → (∀ j, t ≠ g j) ∧ own t = some c := by
    intro t c ht
    have hts : ∀ j, t ≠ g j := by
      rintro j rfl
      rw [hself] at ht
      cases ht
    exact ⟨hts, (hown t hts) ▸ ht⟩
  refine ⟨fun ht => h.pool (hcases ht).2, fun ht hu => h.inj (hcases ht).2 (hcases hu).2,
    fun {c} hc => ?_⟩
  rw [hused c hc, h.used_iff hc]
  constructor
  · rintro ⟨hcb, t, ht⟩
    refine ⟨t, (hown t ?_).trans ht⟩
    rintro j rfl
    exact hcb j (Option.some_inj.mp (ht.symm.trans (hs j)))
  · rintro ⟨t, ht⟩
    obtain ⟨hts, ht⟩ := hcases ht
    refine ⟨?_, t, ht⟩
    rintro j rfl
    exact hts j (h.inj ht (hs j))

end Family

/-- A free resource goes into an empty slot. -/
theorem alloc (h : Owns A used own) (hs : own s = none) (hb : A b) (hfree : ¬used b)
    (hused : ∀ c, A c → (used' c ↔ c = b ∨ used c)) (hself : own' s = some b)
    (hown : ∀ t, t ≠ s → own' t = own t) : Owns A used' own' := by
  refine h.allocAll (J := Unit) (Function.injective_of_subsingleton fun _ => b) (fun _ => hs)
    (fun _ => hb) (fun _ => hfree) (fun c hc => ?_) (fun _ => hself) fun t ht => hown t (ht ())
  rw [hused c hc, exists_const, eq_comm]

/-- **As many resources are used as slots hold one.** -/
theorem card_used (h : Owns A used own) [DecidablePred used] {P : Finset B} {T : Finset S}
    (hP : ∀ b, b ∈ P ↔ A b) (hT : ∀ s b, own s = some b → s ∈ T) :
    (P.filter used).card = (T.filter fun s => (own s).isSome).card := by
  symm
  apply card_bij fun s hs => (own s).get (mem_filter.mp hs).2
  · intro s hs
    have hown : own s = some ((own s).get (mem_filter.mp hs).2) := by simp
    exact mem_filter.mpr ⟨(hP _).mpr (h.pool hown), h.used_of_own hown⟩
  · intro s hs t ht he
    have hown : own s = some ((own s).get (mem_filter.mp hs).2) := by simp
    have hown' : own t = some ((own t).get (mem_filter.mp ht).2) := by simp
    exact h.inj hown (he ▸ hown')
  · intro b hb
    obtain ⟨hb, hu⟩ := mem_filter.mp hb
    obtain ⟨s, hs⟩ := (h.used_iff ((hP b).mp hb)).mp hu
    exact ⟨s, mem_filter.mpr ⟨hT s b hs, by simp [hs]⟩, by simp [hs]⟩

end Owns

end Xv6.Lib
