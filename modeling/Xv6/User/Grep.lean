/-
# Xv6.User.Grep — the matcher of `grep` (`user/grep.c`).

A `char *` is what is left of a string from there on, with the byte that ends it; to read when nothing is left
is to read past that byte.  A pattern denotes a sequence of items, and each item a language: `matchRe` looks
for a piece of the text in the language of the sequence.
-/
import Xv6.Lib.Bytes
import Mathlib.Computability.Language

namespace Xv6.Grep

open Lib List

/-! ## `user/grep.c` -/

/-- `'^'` -/
def caret : Byte := 0x5e
/-- `'$'` -/
def dollar : Byte := 0x24
/-- `'*'` -/
def asterisk : Byte := 0x2a
/-- `'.'` -/
def period : Byte := 0x2e

/-- A byte is read that is after the end of the pattern, or of the text. -/
inductive Overread
  | re
  | text
  deriving DecidableEq, Repr

/-- `*s`. -/
def deref (e : Overread) : List Byte → Except Overread Byte
  | [] => .error e
  | c :: _ => .ok c

/-- `matchstar`: search for `c*re` at beginning of text, where `here` is `matchhere` of `re`. -/
def matchstar (c : Byte) (here : List Byte → Except Overread Bool) : List Byte → Except Overread Bool
  | [] => do
    if ← here [] then
      pure true
    else
      let _ ← deref .text []
      pure false
  | t :: text => do
    if ← here (t :: text) then
      pure true
    else if t ≠ 0 ∧ (t = c ∨ c = period) then
      matchstar c here text
    else
      pure false

/-- `matchhere`: search for `re` at beginning of text. -/
def matchhere : List Byte → List Byte → Except Overread Bool
  | [], _ => .error .re
  | [r], _ => if r = 0 then pure true else .error .re
  | r :: r' :: re, text =>
    if r = 0 then
      pure true
    else if r' = asterisk then
      matchstar r (matchhere re) text
    else if r = dollar ∧ r' = 0 then do
      pure (decide ((← deref .text text) = 0))
    else do
      let t ← deref .text text
      if t ≠ 0 ∧ (r = period ∨ r = t) then matchhere (r' :: re) text.tail else pure false

/-- The loop of `match`, which must look at the empty string. -/
def matchLoop (re : List Byte) : List Byte → Except Overread Bool
  | [] => do
    if ← matchhere re [] then
      pure true
    else
      let _ ← deref .text []
      pure false
  | t :: text => do
    if ← matchhere re (t :: text) then
      pure true
    else if t ≠ 0 then
      matchLoop re text
    else
      pure false

/-- `match`. -/
def matchRe (re text : List Byte) : Except Overread Bool := do
  if (← deref .re re) = caret then
    matchhere re.tail text
  else
    matchLoop re text

/-! ## Patterns -/

/-- An item of a pattern. -/
inductive Item
  | star (c : Byte)
  | eol
  | any
  | lit (c : Byte)
  deriving DecidableEq, Repr

/-- A byte that is not followed by `'*'`; `last` says that nothing follows it. -/
def single (c : Byte) (last : Bool) : Item :=
  if c = dollar ∧ last then .eol else if c = period then .any else .lit c

/-- The items of a pattern, from left to right. -/
def items : List Byte → List Item
  | [] => []
  | [c] => [single c true]
  | c :: c' :: re => if c' = asterisk then .star c :: items re else single c false :: items (c' :: re)

/-- The texts of one byte, which satisfies `P`. -/
def one (P : Byte → Prop) : Language Byte := { w | ∃ t, w = [t] ∧ P t }

/-- The language of an item.  A star repeats its byte, and any byte if it is `'.'`. -/
def Item.lang : Item → Language Byte
  | star c => KStar.kstar (one fun t => c = period ∨ t = c)
  | eol => 1
  | any => one fun _ => True
  | lit c => one fun t => t = c

/-- The language of a sequence of items. -/
def lang (l : List Item) : Language Byte := (l.map Item.lang).prod

/-- A prefix of `s` is in the language; it is all of `s` if the items end with `'$'`. -/
def Begins (l : List Item) (s : List Byte) : Prop := ∃ p, p <+: s ∧ p ∈ lang l ∧ (.eol ∈ l → p = s)

/-! ## Prefixes in a language -/

section Pre

variable {L M : Language Byte} {e : Prop} {s : List Byte} {l : List Item} {c : Byte}

/-- A prefix of `s` is in `L`, and it is all of `s` if `e`. -/
def Pre (L : Language Byte) (e : Prop) (s : List Byte) : Prop := ∃ p, p <+: s ∧ p ∈ L ∧ (e → p = s)

theorem begins_iff : Begins l s ↔ Pre (lang l) (.eol ∈ l) s := Iff.rfl

theorem pre_one : Pre 1 e s ↔ (e → s = []) := by
  constructor
  · rintro ⟨p, -, hp, he⟩ h
    rw [← he h]
    exact hp
  · exact fun h => ⟨[], nil_prefix, Language.nil_mem_one, fun he => (h he).symm⟩

theorem pre_add : Pre (L + M) e s ↔ Pre L e s ∨ Pre M e s := by
  constructor
  · rintro ⟨p, hpre, hp, he⟩
    exact hp.imp (fun hL => ⟨p, hpre, hL, he⟩) fun hM => ⟨p, hpre, hM, he⟩
  · rintro (⟨p, hpre, hp, he⟩ | ⟨p, hpre, hp, he⟩)
    · exact ⟨p, hpre, .inl hp, he⟩
    · exact ⟨p, hpre, .inr hp, he⟩

/-- A language of single bytes in front. -/
theorem pre_mul {P : Byte → Prop} : Pre (one P * L) e s ↔
    ∃ t s', s = t :: s' ∧ P t ∧ Pre L e s' := by
  constructor
  · rintro ⟨p, ⟨r, rfl⟩, hp, he⟩
    obtain ⟨_, ⟨t, rfl, ht⟩, q, hq, rfl⟩ := Language.mem_mul.mp hp
    refine ⟨t, q ++ r, rfl, ht, q, ⟨r, rfl⟩, hq, fun h => ?_⟩
    exact (List.cons.inj (he h)).2
  · rintro ⟨t, s', rfl, ht, q, ⟨r, rfl⟩, hq, he⟩
    refine ⟨t :: q, ⟨r, rfl⟩, Language.mem_mul.mpr ⟨[t], ⟨t, rfl, ht⟩, q, hq, rfl⟩, fun h => ?_⟩
    exact congrArg (t :: ·) (he h)

theorem begins_nil : Begins [] s := begins_iff.mpr (pre_one.mpr fun h => nomatch h)

theorem begins_eol : Begins [.eol] s ↔ s = [] := by
  have hlang : lang [.eol] = 1 := mul_one 1
  rw [begins_iff, hlang, pre_one]
  exact ⟨fun h => h mem_cons_self, fun h _ => h⟩

theorem lang_cons (x : Item) (l : List Item) : lang (x :: l) = x.lang * lang l := prod_cons

theorem eol_mem_cons (x : Item) (hx : x ≠ .eol) : .eol ∈ x :: l ↔ .eol ∈ l := by
  rw [mem_cons]
  exact ⟨fun h => h.resolve_left hx.symm, .inr⟩

theorem begins_any : Begins (.any :: l) s ↔ ∃ t s', s = t :: s' ∧ Begins l s' := by
  rw [begins_iff, lang_cons, eol_mem_cons .any nofun, Item.lang, pre_mul]
  exact exists_congr fun t => exists_congr fun s' => and_congr_right fun _ => by rw [true_and]; rfl

theorem begins_lit : Begins (.lit c :: l) s ↔ ∃ s', s = c :: s' ∧ Begins l s' := by
  rw [begins_iff, lang_cons, eol_mem_cons (.lit c) nofun, Item.lang, pre_mul]
  constructor
  · rintro ⟨t, s', rfl, rfl, h⟩
    exact ⟨s', rfl, h⟩
  · rintro ⟨s', rfl, h⟩
    exact ⟨c, s', rfl, rfl, h⟩

/-- An item with a star matches nothing, or one byte and then again. -/
theorem begins_star : Begins (.star c :: l) s ↔
    Begins l s ∨ ∃ t s', s = t :: s' ∧ (c = period ∨ t = c) ∧ Begins (.star c :: l) s' := by
  have hlang : lang (.star c :: l) = lang l + (one fun t => c = period ∨ t = c) * lang (.star c :: l) := by
    rw [lang_cons, ← mul_assoc]
    nth_rewrite 1 [Item.lang, ← Language.one_add_self_mul_kstar_eq_kstar]
    rw [add_mul, one_mul]
    rfl
  rw [begins_iff, eol_mem_cons (.star c) nofun, hlang, pre_add, pre_mul, ← begins_iff]
  refine or_congr_right (exists_congr fun t => exists_congr fun s' => and_congr_right fun _ =>
    and_congr_right fun _ => ?_)
  rw [begins_iff, eol_mem_cons (.star c) nofun]

end Pre

/-! ## The matcher -/

/-- The call returns, and it returns 1 iff `P`. -/
def Returns (x : Except Overread Bool) (P : Prop) : Prop := ∃ b, x = .ok b ∧ (b = true ↔ P)

theorem returns_true {P : Prop} (h : P) : Returns (pure true) P := ⟨true, rfl, fun _ => h, fun _ => rfl⟩

theorem returns_false {P : Prop} (h : ¬P) : Returns (pure false) P :=
  ⟨false, rfl, Bool.noConfusion, fun hP => absurd hP h⟩

theorem deref_bind {α : Type} (e : Overread) (c : Byte) (s : List Byte) (f : Byte → Except Overread α) :
    (do f (← deref e (c :: s))) = f c := rfl

/-- `if(x) return 1; y`. -/
theorem Returns.orElse {P Q : Prop} (hx : Returns x P) (hy : Returns y Q) :
    Returns (do if ← x then pure true else y) (P ∨ Q) := by
  obtain ⟨b, rfl, hb⟩ := hx
  cases b with
  | true => exact ⟨true, rfl, fun _ => .inl (hb.mp rfl), fun _ => rfl⟩
  | false =>
    obtain ⟨d, hd, hQ⟩ := hy
    refine ⟨d, hd, fun h => .inr (hQ.mp h), fun h => hQ.mpr (h.resolve_left fun hP => ?_)⟩
    exact Bool.noConfusion (hb.mpr hP)

variable {re text : List Byte} {c t : Byte}

/-- **`matchstar`** is right if `matchhere` is. -/
theorem returns_matchstar {here : List Byte → Except Overread Bool}
    (hhere : ∀ text, 0 ∉ text → Returns (here (text ++ [0])) (Begins l text)) (ht : 0 ∉ text) :
    Returns (matchstar c here (text ++ [0])) (Begins (.star c :: l) text) := by
  induction text with
  | nil =>
    rw [begins_star]
    refine (hhere [] ht).orElse ?_
    rw [if_neg fun h => h.1 rfl]
    exact returns_false fun ⟨_, _, h, _⟩ => nomatch h
  | cons t text ih =>
    rw [mem_cons, not_or] at ht
    rw [begins_star]
    refine (hhere (t :: text) (by rw [mem_cons, not_or]; exact ht)).orElse ?_
    by_cases hc : t = c ∨ c = period
    · rw [if_pos ⟨Ne.symm ht.1, hc⟩]
      obtain ⟨b, hb, hiff⟩ := ih ht.2
      refine ⟨b, hb, hiff.trans ⟨fun h => ⟨t, text, rfl, hc.symm, h⟩, ?_⟩⟩
      rintro ⟨_, _, he, -, h⟩
      cases he
      exact h
    · rw [if_neg fun h => hc h.2]
      refine returns_false ?_
      rintro ⟨_, _, he, h, -⟩
      cases he
      exact absurd h.symm hc

/-- A byte of the pattern that is not followed by `'*'`. -/
theorem begins_single (hlast : ¬(c = dollar ∧ last = true)) :
    Begins (single c last :: l) text ↔
      ∃ t text', text = t :: text' ∧ (c = period ∨ c = t) ∧ Begins l text' := by
  rw [single, if_neg hlast]
  by_cases hp : c = period
  · rw [if_pos hp, begins_any]
    exact exists_congr fun t => exists_congr fun s => and_congr_right fun _ =>
      ⟨fun h => ⟨.inl hp, h⟩, fun h => h.2⟩
  · rw [if_neg hp, begins_lit]
    constructor
    · rintro ⟨s, rfl, h⟩
      exact ⟨c, s, rfl, .inr rfl, h⟩
    · rintro ⟨t, s, rfl, hc, h⟩
      obtain rfl := hc.resolve_left hp
      exact ⟨s, rfl, h⟩

/-- The last lines of `matchhere`: one byte of the text is compared. -/
theorem returns_byte {rest : List Byte → Except Overread Bool}
    (hrest : ∀ text, 0 ∉ text → Returns (rest (text ++ [0])) (Begins l text)) (ht : 0 ∉ text) :
    Returns (do
      let t ← deref .text (text ++ [0])
      if t ≠ 0 ∧ (c = period ∨ c = t) then rest (text ++ [0]).tail else pure false)
      (∃ t text', text = t :: text' ∧ (c = period ∨ c = t) ∧ Begins l text') := by
  cases text with
  | nil =>
    rw [nil_append, deref_bind, if_neg fun h => h.1 rfl]
    exact returns_false fun ⟨_, _, h, _⟩ => nomatch h
  | cons t text =>
    rw [mem_cons, not_or] at ht
    rw [cons_append, deref_bind]
    by_cases hc : c = period ∨ c = t
    · rw [if_pos ⟨Ne.symm ht.1, hc⟩]
      obtain ⟨b, hb, hiff⟩ := hrest text ht.2
      refine ⟨b, hb, hiff.trans ⟨fun h => ⟨t, text, rfl, hc, h⟩, ?_⟩⟩
      rintro ⟨_, _, he, -, h⟩
      cases he
      exact h
    · rw [if_neg fun h => hc h.2]
      refine returns_false ?_
      rintro ⟨_, _, he, h, -⟩
      cases he
      exact absurd h hc

/-- **`matchhere`** looks for a prefix of the text. -/
theorem returns_matchhere (hre : 0 ∉ re) : ∀ text, 0 ∉ text →
    Returns (matchhere (re ++ [0]) (text ++ [0])) (Begins (items re) text) := by
  induction re using items.induct with
  | case1 => exact fun text _ => returns_true begins_nil
  | case2 c =>
    intro text ht
    have hc : c ≠ 0 := fun h => hre (h ▸ mem_cons_self)
    show Returns (matchhere (c :: 0 :: []) (text ++ [0])) _
    rw [matchhere, if_neg hc, if_neg (by decide), items]
    by_cases hd : c = dollar
    · rw [if_pos ⟨hd, rfl⟩, single, if_pos ⟨hd, rfl⟩, begins_eol]
      cases text with
      | nil => exact returns_true rfl
      | cons t text =>
        rw [mem_cons, not_or] at ht
        rw [cons_append, deref_bind, decide_eq_false (Ne.symm ht.1)]
        exact returns_false nofun
    · rw [if_neg fun h => hd h.1, begins_single fun h => hd h.1]
      exact returns_byte (fun text _ => returns_true begins_nil) ht
  | case3 c re ih =>
    intro text ht
    have hc : c ≠ 0 := fun h => hre (h ▸ mem_cons_self)
    have hre' : 0 ∉ re := fun h => hre (mem_cons_of_mem _ (mem_cons_of_mem _ h))
    rw [cons_append, cons_append, matchhere, if_neg hc, if_pos rfl, items, if_pos rfl]
    exact returns_matchstar (ih hre') ht
  | case4 c c' re hstar ih =>
    intro text ht
    have hc : c ≠ 0 := fun h => hre (h ▸ mem_cons_self)
    have hre' : 0 ∉ c' :: re := fun h => hre (mem_cons_of_mem _ h)
    have hc' : c' ≠ 0 := fun h => hre' (h ▸ mem_cons_self)
    rw [cons_append, cons_append, matchhere, if_neg hc, if_neg hstar, if_neg fun h => hc' h.2,
      items, if_neg hstar, begins_single fun h => Bool.false_ne_true h.2]
    exact returns_byte (ih hre') ht

/-- The loop of **`match`** looks for a suffix. -/
theorem returns_matchLoop (hre : 0 ∉ re) (ht : 0 ∉ text) :
    Returns (matchLoop (re ++ [0]) (text ++ [0])) (∃ s, s <:+ text ∧ Begins (items re) s) := by
  induction text with
  | nil =>
    have hiff : (∃ s, s <:+ [] ∧ Begins (items re) s) ↔ Begins (items re) [] ∨ False := by
      simp
    rw [hiff]
    refine (returns_matchhere hre [] ht).orElse ?_
    rw [if_neg fun h => h rfl]
    exact returns_false id
  | cons t text ih =>
    have hiff : (∃ s, s <:+ t :: text ∧ Begins (items re) s) ↔
        Begins (items re) (t :: text) ∨ ∃ s, s <:+ text ∧ Begins (items re) s := by
      simp [suffix_cons_iff, or_and_right, exists_or]
    rw [hiff]
    refine (returns_matchhere hre _ ht).orElse ?_
    rw [mem_cons, not_or] at ht
    rw [if_pos (Ne.symm ht.1)]
    exact ih ht.2

/-- **`match`** returns. -/
theorem returns_matchRe (hre : 0 ∉ re) (ht : 0 ∉ text) :
    Returns (matchRe (re ++ [0]) (text ++ [0]))
      (∃ s, (if re.head? = some caret then s = text else s <:+ text) ∧
        Begins (items (if re.head? = some caret then re.tail else re)) s) := by
  by_cases hc : re.head? = some caret
  · obtain ⟨re', rfl⟩ : ∃ re', re = caret :: re' := by
      cases re with
      | nil => cases hc
      | cons c re' => exact ⟨re', by rw [Option.some.inj hc]⟩
    simp only [if_pos hc, exists_eq_left]
    exact returns_matchhere (fun h => hre (mem_cons_of_mem _ h)) text ht
  · simp only [if_neg hc]
    cases re with
    | nil => exact returns_matchLoop hre ht
    | cons c re =>
      rw [matchRe, cons_append, deref_bind, if_neg fun h => hc (congrArg some h)]
      exact returns_matchLoop hre ht

/-- **The matcher of `grep`.**  For a pattern and a text without a zero byte, `match` returns without a read
past the end of either, and it returns 1 iff some suffix of the text, which is all of it after a leading
`'^'`, has a prefix in the language of the items of the pattern; after a final `'$'` that prefix is the
whole suffix. -/
theorem matchRe_iff (hre : 0 ∉ re) (ht : 0 ∉ text) : ∃ b, matchRe (re ++ [0]) (text ++ [0]) = .ok b ∧
    (b = true ↔ ∃ s p, (if re.head? = some caret then s = text else s <:+ text) ∧ p <+: s ∧
      p ∈ lang (items (if re.head? = some caret then re.tail else re)) ∧
      (Item.eol ∈ items (if re.head? = some caret then re.tail else re) → p = s)) := by
  obtain ⟨b, hb, hiff⟩ := returns_matchRe hre ht
  refine ⟨b, hb, hiff.trans (exists_congr fun s => ?_)⟩
  exact ⟨fun ⟨hs, p, h⟩ => ⟨p, hs, h⟩, fun ⟨p, hs, h⟩ => ⟨hs, p, h⟩⟩

/-- The pattern `a*$` in the text `xaa`. -/
theorem matchRe_iff_suffix : (0 : Byte) ∉ [0x61, asterisk, dollar] ∧
    matchRe ([0x61, asterisk, dollar] ++ [0]) ([0x78, 0x61, 0x61] ++ [0]) = .ok true ∧
    ∃ s p, s <:+ [0x78, 0x61, 0x61] ∧ p <+: s ∧ p ∈ lang [.star 0x61, .eol] ∧
      (Item.eol ∈ [Item.star 0x61, .eol] → p = s) := by
  have hrun : matchRe ([0x61, asterisk, dollar] ++ [0]) ([0x78, 0x61, 0x61] ++ [0]) = .ok true := by decide
  obtain ⟨b, hb, hiff⟩ := matchRe_iff (show (0 : Byte) ∉ [0x61, asterisk, dollar] by decide)
    (show (0 : Byte) ∉ [0x78, 0x61, 0x61] by decide)
  cases hrun.symm.trans hb
  exact ⟨by decide, hrun, hiff.mp rfl⟩

end Xv6.Grep
