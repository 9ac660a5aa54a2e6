/-
# Xv6.Lib.Text — numbers and lines as text, and reading them back.

A number is written digit by digit, from the low end by repeated division or from the high end by
repeated shifting.  `value` reads digits from the high end.  Both ways of writing are read back to
the number that was written.
-/
import Mathlib.Data.List.Basic
import Mathlib.Tactic.Ring

namespace Xv6.Lib.Text

open List Nat

variable {α : Type}

/-! ## Reading a numeral -/

/-- The number that the digits `cs` continue, if `a` is what was read so far. -/
def value (val : α → Nat) (b a : Nat) (cs : List α) : Nat :=
  cs.foldl (fun a c => a * b + val c) a

@[simp] theorem value_nil (val : α → Nat) (b a : Nat) : value val b a [] = a := rfl

@[simp] theorem value_cons (val : α → Nat) (b a : Nat) (c : α) (cs : List α) :
    value val b a (c :: cs) = value val b (a * b + val c) cs := rfl

/-! ## Writing by division -/

/-- The digits of `x` in base `b` in front of `acc`, the last one first; at most `n` of them. -/
def numeral (dig : Nat → α) (b : Nat) : Nat → Nat → List α → List α
  | 0, _, acc => acc
  | n + 1, x, acc =>
    if x / b = 0 then
      dig (x % b) :: acc
    else
      numeral dig b n (x / b) (dig (x % b) :: acc)

variable {dig : Nat → α} {val : α → Nat} {b : Nat}

theorem div_lt_pow (h : x < b ^ (n + 1)) : x / b < b ^ n :=
  Nat.div_lt_of_lt_mul (by rwa [mul_comm, ← pow_succ])

/-- A number with digits to spare after one division has more than one of them. -/
theorem pos_of_div_ne_zero (h : x < b ^ (n + 1)) (h0 : x / b ≠ 0) : 0 < n := by
  by_contra hzero
  obtain rfl : n = 0 := by omega
  exact h0 (Nat.lt_one_iff.mp (div_lt_pow h))

/-- **A numeral is read back.** -/
theorem value_numeral (hdig : ∀ k < b, val (dig k) = k) (hb : 1 < b) (n x : Nat) (acc : List α)
    (hx : x < b ^ n) (hn : 0 < n) : value val b 0 (numeral dig b n x acc) = value val b x acc := by
  induction n generalizing x acc with
  | zero => omega
  | succ n ih =>
    have hmod : val (dig (x % b)) = x % b := hdig _ (mod_lt x (by omega))
    rw [numeral]
    split
    · next h0 =>
      have hlt : x < b := (Nat.div_eq_zero_iff.mp h0).resolve_left (by omega)
      simp [mod_eq_of_lt hlt, hdig x hlt]
    · next h0 =>
      rw [ih _ _ (div_lt_pow hx) (pos_of_div_ne_zero hx h0), value_cons, hmod]
      congr 1
      rw [mul_comm]
      exact div_add_mod x b

theorem mem_numeral (hb : 0 < b)
    (h : c ∈ numeral dig b n x acc) : c ∈ acc ∨ ∃ k < b, c = dig k := by
  have hmod : x % b < b := mod_lt x hb
  induction n generalizing x acc with
  | zero => exact .inl h
  | succ n ih =>
    rw [numeral] at h
    split at h
    · rcases mem_cons.mp h with rfl | h
      · exact .inr ⟨_, hmod, rfl⟩
      · exact .inl h
    · rcases ih h (mod_lt _ hb) with h | h
      · rcases mem_cons.mp h with rfl | h
        · exact .inr ⟨_, hmod, rfl⟩
        · exact .inl h
      · exact .inr h

/-- A number below `b ^ k` has at most `k` digits. -/
theorem length_numeral_le (hk : 0 < k) (n : Nat) (acc : List α) (hx : x < b ^ k) :
    (numeral dig b n x acc).length ≤ k + acc.length := by
  induction n generalizing k x acc with
  | zero => exact Nat.le_add_left _ _
  | succ n ih =>
    obtain ⟨k, rfl⟩ : ∃ j, k = j + 1 := ⟨k - 1, by omega⟩
    rw [numeral]
    split
    · rw [List.length_cons]
      omega
    · next h0 =>
      have hlen := ih (pos_of_div_ne_zero hx h0) (dig (x % b) :: acc) (div_lt_pow hx)
      rw [List.length_cons] at hlen
      omega

/-- The numeral of a number other than zero does not begin with the digit zero. -/
theorem head_numeral {n x : Nat} (acc : List α) (hx : x < b ^ n) (h0 : x ≠ 0) :
    ∃ k, 0 < k ∧ k < b ∧ (numeral dig b n x acc).head? = some (dig k) := by
  induction n generalizing x acc with
  | zero => exact absurd (Nat.lt_one_iff.mp hx) h0
  | succ n ih =>
    rw [numeral]
    split
    · next hdiv =>
      have hlt : x < b := by
        rcases Nat.div_eq_zero_iff.mp hdiv with rfl | hlt
        · simp at hx
        · exact hlt
      exact ⟨x, by omega, hlt, by rw [Nat.mod_eq_of_lt hlt, List.head?_cons]⟩
    · next hdiv => exact ih _ (div_lt_pow hx) hdiv

/-! ## Writing by shifting -/

/-- The `n` highest hexadecimal digits of a 64-bit word. -/
def hexDigits (dig : Nat → α) : Nat → BitVec 64 → List α
  | 0, _ => []
  | n + 1, x => dig (x >>> 60).toNat :: hexDigits dig n (x <<< 4)

theorem length_hexDigits (n : Nat) (x : BitVec 64) : (hexDigits dig n x).length = n := by
  induction n generalizing x with
  | zero => rfl
  | succ n ih => simp [hexDigits, ih]

theorem value_hexDigits_from (hdig : ∀ k < 16, val (dig k) = k) (n a : Nat) (x : BitVec 64)
    (hn : n ≤ 16) :
    value val 16 a (hexDigits dig n x) = a * 16 ^ n + x.toNat / 2 ^ (64 - 4 * n) := by
  induction n generalizing a x with
  | zero => simp [hexDigits, div_eq_of_lt x.isLt]
  | succ n ih =>
    have hx := x.isLt
    have hhigh : (x >>> 60).toNat = x.toNat / 2 ^ 60 := by
      rw [BitVec.toNat_ushiftRight, shiftRight_eq_div_pow]
    have hlow : (x <<< 4).toNat = 16 * (x.toNat % 2 ^ 60) := by
      rw [BitVec.toNat_shiftLeft, shiftLeft_eq]
      omega
    rw [hexDigits, value_cons, ih _ _ (by omega), hhigh, hdig _ (by omega), hlow]
    -- The shifted word loses its four high bits, which are the digit just written.
    obtain ⟨k, hk⟩ : ∃ k, k = 60 - 4 * n := ⟨_, rfl⟩
    have hsplit : 2 ^ 60 = 2 ^ k * 16 ^ n := by
      rw [show (16 : Nat) = 2 ^ 4 from rfl, ← pow_mul, ← pow_add]
      congr 1
      omega
    have hdiv : 16 * (x.toNat % 2 ^ 60) / 2 ^ (64 - 4 * n) = x.toNat % 2 ^ 60 / 2 ^ k := by
      rw [show 64 - 4 * n = 4 + k by omega, pow_add]
      exact Nat.mul_div_mul_left _ _ (by norm_num)
    have hsum : x.toNat / 2 ^ k = x.toNat / 2 ^ 60 * 16 ^ n + x.toNat % 2 ^ 60 / 2 ^ k := by
      conv_lhs => rw [← div_add_mod x.toNat (2 ^ 60)]
      nth_rewrite 1 [hsplit]
      rw [mul_assoc, Nat.mul_add_div (Nat.two_pow_pos k), mul_comm]
    rw [hdiv, show 64 - 4 * (n + 1) = k by omega, hsum]
    ring

/-- **All sixteen digits are read back.** -/
theorem value_hexDigits (hdig : ∀ k < 16, val (dig k) = k) (x : BitVec 64) :
    value val 16 0 (hexDigits dig 16 x) = x.toNat := by
  rw [value_hexDigits_from hdig 16 0 x le_rfl]
  simp

theorem mem_hexDigits (h : c ∈ hexDigits dig n x) :
    ∃ k < 16, c = dig k := by
  induction n generalizing x with
  | zero => simp [hexDigits] at h
  | succ n ih =>
    rcases mem_cons.mp h with rfl | h
    · refine ⟨_, ?_, rfl⟩
      rw [BitVec.toNat_ushiftRight, shiftRight_eq_div_pow]
      omega
    · exact ih h

/-! ## Lines -/

/-- The lines of a text, without their ends. -/
def splitLines [DecidableEq α] (eol : α) : List α → List (List α)
  | [] => []
  | c :: cs =>
    if c = eol then
      [] :: splitLines eol cs
    else
      match splitLines eol cs with
      | [] => [[c]]
      | l :: ls => (c :: l) :: ls

theorem splitLines_line [DecidableEq α] (cs : List α) (hl : eol ∉ l) :
    splitLines eol (l ++ eol :: cs) = l :: splitLines eol cs := by
  induction l with
  | nil => simp [splitLines]
  | cons c l ih =>
    simp only [mem_cons, not_or] at hl
    rw [cons_append, splitLines, if_neg (Ne.symm hl.1), ih hl.2]

/-- **A text made of lines splits into them.** -/
theorem splitLines_flatMap [DecidableEq α] {β : Type} (f : β → List α) (ls : List β)
    (h : ∀ l ∈ ls, eol ∉ f l) : splitLines eol (ls.flatMap fun l => f l ++ [eol]) = ls.map f := by
  induction ls with
  | nil => rfl
  | cons l ls ih =>
    rw [flatMap_cons, append_assoc, singleton_append,
      splitLines_line _ (h l mem_cons_self), ih fun l' hl' => h l' (mem_cons_of_mem l hl')]
    rfl

end Xv6.Lib.Text
