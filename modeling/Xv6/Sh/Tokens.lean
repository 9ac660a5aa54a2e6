/-
# Xv6.Sh.Tokens — a line as the tokens that `gettoken` splits it into.

`At line s ts` says that the tokens from position `s` on are `ts`.  `peek` looks at the first of them,
`gettoken` takes it away, and white space does not count: from here on the parser can be read as a function
of the list of tokens.
-/
import Xv6.Sh.Parse

namespace Xv6.Sh

open Lib List

variable {line : Line} {s e i : Nat} {t : Token Word} {ts : List (Token Word)} {c : Byte}

/-! ## Bytes -/

theorem charAt_of_lt (h : s < line.length) : charAt line s = (line)[s] := by
  rw [charAt, getD_eq_getElem?_getD, getElem?_eq_getElem h]
  rfl

theorem charAt_of_ge (h : line.length ≤ s) : charAt line s = 0 := by
  rw [charAt, getD_eq_getElem?_getD, getElem?_eq_none h]
  rfl

theorem lt_of_charAt (h : charAt line s ≠ 0) : s < line.length := by
  by_contra hge
  exact h (charAt_of_ge (not_lt.mp hge))

theorem charAt_ne_zero (h0 : 0 ∉ line) (h : s < line.length) : charAt line s ≠ 0 := by
  rw [charAt_of_lt h]
  intro he
  exact h0 (he ▸ getElem_mem h)

theorem skip_skip : skip line (skip line s) = skip line s := scan_scan

theorem skip_le (hs : s ≤ line.length) : skip line s ≤ line.length := scan_le hs

theorem not_space_skip (h : skip line s < line.length) : charAt line (skip line s) ∉ whitespace := by
  have hnot : decide ((line)[skip line s] ∈ whitespace) = false := not_of_scan h
  rw [charAt_of_lt h]
  exact of_decide_eq_false hnot

/-! ## One token -/

/-- The byte by which a symbol is told. -/
def Token.first {W : Type} : Token W → Option Byte
  | .bar => some (ch '|')
  | .lparen => some (ch '(')
  | .rparen => some (ch ')')
  | .semi => some (ch ';')
  | .amp => some (ch '&')
  | .lt => some (ch '<')
  | .gt => some (ch '>')
  | .app => some (ch '>')
  | .word _ => none

/-- A word: at least one byte, none of them white space or a symbol, up to such a byte or the end. -/
structure IsWord (line : Line) (w : Word) : Prop where
  lt : w.1 < w.2
  le : w.2 ≤ line.length
  inside : ∀ i, w.1 ≤ i → i < w.2 → charAt line i ∉ whitespace ∧ charAt line i ∉ symbols
  behind : w.2 < line.length → charAt line w.2 ∈ whitespace ∨ charAt line w.2 ∈ symbols

/-- What a token at `s` that ends at `e` looks like. -/
structure Lexed (line : Line) (s : Nat) (t : Token Word) (e : Nat) : Prop where
  lt : s < e
  le : e ≤ line.length
  first : ∀ c, t.first = some c → charAt line s = c
  word : ∀ w, t = .word w → IsWord line w ∧ charAt line s ∉ symbols

theorem lex_word (hs : s < line.length) (hspace : charAt line s ∉ whitespace)
    (hsym : charAt line s ∉ symbols) :
    IsWord line (s, scan line (fun c => c ∉ whitespace ∧ c ∉ symbols) s) := by
  have hp : decide ((line)[s] ∉ whitespace ∧ (line)[s] ∉ symbols) = true := by
    rw [← charAt_of_lt hs]
    exact decide_eq_true ⟨hspace, hsym⟩
  refine ⟨lt_scan hs hp, scan_le hs.le, fun i hi hlt => ?_, fun hlt => ?_⟩
  · have hil := hlt.trans_le (scan_le hs.le)
    have htrue := of_lt_scan hi hlt hil
    rw [charAt_of_lt hil]
    exact of_decide_eq_true htrue
  · have hnot := not_of_scan hlt
    rw [charAt_of_lt hlt]
    by_contra hno
    rw [not_or] at hno
    exact absurd hnot (by rw [decide_eq_true hno]; nofun)

theorem lexed_symbol (hs : e ≤ line.length) (hlt : s < e) (hc : charAt line s = c)
    (ht : t.first = some c) : Lexed line s t e where
  lt := hlt
  le := hs
  first c' hc' := hc.trans (Option.some_inj.mp (ht.symm.trans hc'))
  word w hw := by
    subst hw
    cases ht

theorem lex_spec (hspace : charAt line s ∉ whitespace) (h : lex line s = some (t, e)) :
    Lexed line s t e := by
  simp only [lex] at h
  split at h
  · cases h
  · rename_i h0
    have hs := lt_of_charAt h0
    have hlt := Nat.lt_succ_self s
    -- the cases of the switch, in its order
    split at h
    · cases h
      exact lexed_symbol hs hlt ‹_› rfl
    split at h
    · cases h
      exact lexed_symbol hs hlt ‹_› rfl
    split at h
    · cases h
      exact lexed_symbol hs hlt ‹_› rfl
    split at h
    · cases h
      exact lexed_symbol hs hlt ‹_› rfl
    split at h
    · cases h
      exact lexed_symbol hs hlt ‹_› rfl
    split at h
    · cases h
      exact lexed_symbol hs hlt ‹_› rfl
    split at h
    · rename_i hgt
      split at h
      · rename_i happ
        cases h
        have hs' : s + 1 < line.length := lt_of_charAt (by rw [happ]; decide)
        exact lexed_symbol hs' (hlt.trans (Nat.lt_succ_self _)) hgt rfl
      · cases h
        exact lexed_symbol hs hlt hgt rfl
    · cases h
      have hsym : charAt line s ∉ symbols := by
        intro hmem
        have hall : symbols = [ch '<', ch '|', ch '>', ch '&', ch ';', ch '(', ch ')'] := by decide
        rw [hall] at hmem
        simp only [mem_cons, not_mem_nil, or_false] at hmem
        rcases hmem with hc | hc | hc | hc | hc | hc | hc <;> contradiction
      have hw := lex_word hs hspace hsym
      exact ⟨hw.lt, hw.le, by rintro _ ⟨⟩, fun w' he => by cases he; exact ⟨hw, hsym⟩⟩

theorem lex_ne_none (h0 : 0 ∉ line) (hs : s < line.length) : lex line s ≠ none := by
  simp only [lex]
  rw [if_neg (charAt_ne_zero h0 hs)]
  split_ifs <;> rintro ⟨⟩

theorem lex_of_ge (hs : line.length ≤ s) : lex line s = none := by
  simp only [lex]
  rw [if_pos (charAt_of_ge hs)]

/-! ## All tokens -/

/-- The tokens from `s` on, at most as many as the fuel. -/
def tokensFrom (line : Line) : Nat → Nat → List (Token Word)
  | 0, _ => []
  | fuel + 1, s =>
    match gettoken line s with
    | (none, _) => []
    | (some t, s) => t :: tokensFrom line fuel s

/-- The tokens that `gettoken` splits the line into, from `s` on. -/
def tokens (line : Line) (s : Nat) : List (Token Word) := tokensFrom line (line.length + 1 - s) s

theorem gettoken_some (h : gettoken line s = (some t, e)) :
    s < e ∧ (s ≤ line.length → e ≤ line.length) ∧
      ∃ e', Lexed line (skip line s) t e' ∧ e = skip line e' := by
  simp only [gettoken] at h
  split at h
  · cases h
  · rename_i t' e' hlex
    cases h
    have hs : skip line s < line.length := by
      by_contra hge
      rw [lex_of_ge (not_lt.mp hge)] at hlex
      cases hlex
    have hl := lex_spec (not_space_skip hs) hlex
    exact ⟨le_scan.trans_lt (hl.lt.trans_le le_scan), fun _ => skip_le hl.le, e', hl, rfl⟩

theorem gettoken_of_ge (hs : line.length ≤ s) : gettoken line s = (none, s) := by
  have hskip : skip line s = s := scan_of_ge hs
  simp only [gettoken, hskip, lex_of_ge hs]

theorem tokensFrom_of_ge (hs : line.length ≤ s) (n : Nat) : tokensFrom line n s = [] := by
  cases n with
  | zero => rfl
  | succ n => rw [tokensFrom, gettoken_of_ge hs]

/-- More fuel than there are bytes makes no difference. -/
theorem tokensFrom_congr (hn : line.length + 1 - s ≤ n) (hm : line.length + 1 - s ≤ m) :
    tokensFrom line n s = tokensFrom line m s := by
  induction n generalizing s m with
  | zero => rw [tokensFrom_of_ge (by omega), tokensFrom_of_ge (by omega)]
  | succ n ih =>
    cases m with
    | zero => rw [tokensFrom_of_ge (by omega), tokensFrom_of_ge (by omega)]
    | succ m =>
      rw [tokensFrom, tokensFrom]
      cases hg : gettoken line s with
      | mk o e =>
        cases o with
        | none => rfl
        | some t =>
          have hlt := (gettoken_some hg).1
          simp only [ih (s := e) (m := m) (by omega) (by omega)]

/-- The tokens from `s` on are `ts`. -/
structure At (line : Line) (s : Nat) (ts : List (Token Word)) : Prop where
  le : s ≤ line.length
  eq : tokens line s = ts

/-- Does one of the bytes of `toks` come first? -/
def headIn {W : Type} (toks : String) : List (Token W) → Bool
  | [] => false
  | t :: _ => t.first.any (· ∈ chars toks)

theorem tokens_eq (hs : s ≤ line.length) : tokens line s =
    match gettoken line s with
    | (none, _) => []
    | (some t, s) => t :: tokens line s := by
  obtain ⟨n, hn⟩ : ∃ n, line.length + 1 - s = n + 1 := ⟨line.length - s, by omega⟩
  rw [tokens, hn, tokensFrom]
  cases hg : gettoken line s with
  | mk o e =>
    cases o with
    | none => rfl
    | some t =>
      have hlt := (gettoken_some hg).1
      simp only [tokens, tokensFrom_congr (n := n) (m := line.length + 1 - e) (s := e) (by omega) le_rfl]

namespace At

theorem start (line : Line) : At line 0 (tokens line 0) := ⟨Nat.zero_le _, rfl⟩

theorem skip (h : At line s ts) : At line (skip line s) ts := by
  refine ⟨skip_le h.le, ?_⟩
  rw [← h.eq, tokens_eq h.le, tokens_eq (skip_le h.le)]
  simp only [gettoken, skip_skip]

theorem gettoken (h : At line s (t :: ts)) : ∃ e, gettoken line s = (some t, e) ∧ At line e ts := by
  have heq := h.eq
  rw [tokens_eq h.le] at heq
  cases hg : Sh.gettoken line s with
  | mk o e =>
    rw [hg] at heq
    cases o with
    | none => cases heq
    | some t' =>
      obtain ⟨rfl, htl⟩ := cons.inj heq
      exact ⟨e, rfl, (gettoken_some hg).2.1 h.le, htl⟩

theorem gettoken_nil (h : At line s []) : ∃ e, Sh.gettoken line s = (none, e) ∧ At line e [] := by
  have heq := h.eq
  rw [tokens_eq h.le] at heq
  cases hg : Sh.gettoken line s with
  | mk o e =>
    rw [hg] at heq
    cases o with
    | some t' => cases heq
    | none =>
      refine ⟨e, rfl, ?_⟩
      simp only [Sh.gettoken] at hg
      split at hg
      · cases hg
        exact h.skip.skip
      · cases hg

/-- At the end of the tokens there is only white space left. -/
theorem finish (h0 : 0 ∉ line) (h : At line s []) : Sh.skip line s = line.length := by
  refine le_antisymm (skip_le h.le) (not_lt.mp fun hlt => ?_)
  obtain ⟨e, hg, -⟩ := h.gettoken_nil
  simp only [Sh.gettoken] at hg
  split at hg
  · rename_i hlex
    exact lex_ne_none h0 hlt hlex
  · cases hg

theorem skip_lt (h : At line s (t :: ts)) : Sh.skip line s < line.length := by
  obtain ⟨e, hg, -⟩ := h.gettoken
  obtain ⟨-, -, e', hl, -⟩ := gettoken_some hg
  exact hl.lt.trans_le hl.le

theorem peek (h0 : 0 ∉ line) (h : At line s ts) (toks : String) (htoks : chars toks ⊆ symbols) :
    peek line s toks = (headIn toks ts, Sh.skip line s) := by
  simp only [Sh.peek, Prod.mk.injEq, and_true]
  cases ts with
  | nil =>
    rw [h.finish h0, charAt_of_ge le_rfl]
    rfl
  | cons t ts =>
    obtain ⟨e, hg, -⟩ := h.gettoken
    obtain ⟨-, -, e', hl, -⟩ := gettoken_some hg
    have hne := charAt_ne_zero h0 (hl.lt.trans_le hl.le)
    have hhead : headIn toks (t :: ts) = decide (charAt line (Sh.skip line s) ∈ chars toks) := by
      cases hfirst : t.first with
      | some c => rw [headIn, hfirst, hl.first c hfirst, Option.any_some]
      | none =>
        obtain ⟨w, rfl⟩ : ∃ w, t = .word w := by
          cases t with
          | word w => exact ⟨w, rfl⟩
          | _ => cases hfirst
        exact (decide_eq_false fun hmem => (hl.word w rfl).2 (htoks hmem)).symm
    rw [hhead]
    exact decide_eq_decide.mpr (and_iff_right hne)

end At

/-! ## How many, and which words -/

theorem tokensFrom_length (n : Nat) : (tokensFrom line n s).length ≤ n := by
  induction n generalizing s with
  | zero => exact le_rfl
  | succ n ih =>
    rw [tokensFrom]
    cases gettoken line s with
    | mk o e =>
      cases o with
      | none => exact Nat.zero_le _
      | some t => exact Nat.succ_le_succ ih

theorem tokens_length : (tokens line 0).length ≤ line.length + 1 := tokensFrom_length _

theorem isWord_of_mem_tokensFrom (h : .word w ∈ tokensFrom line n s) :
    IsWord line w := by
  induction n generalizing s with
  | zero => cases h
  | succ n ih =>
    rw [tokensFrom] at h
    cases hg : gettoken line s with
    | mk o e =>
      rw [hg] at h
      cases o with
      | none => cases h
      | some t =>
        rcases mem_cons.mp h with rfl | h
        · obtain ⟨-, -, e', hl, -⟩ := gettoken_some hg
          exact (hl.word w rfl).1
        · exact ih h

end Xv6.Sh
