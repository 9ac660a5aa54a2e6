/-
# Xv6.User.Printf — the user library's `printf` (`user/printf.c`).

What `vprintf` hands to `putc`, in order.  An argument is a 64-bit register; `%d` and `%x` take its
low 32 bits, and so does `%l`: it fetches a `uint64`, but `printint`'s parameter is an `int`.
`printint` collects its text in a buffer of 16 bytes; `none` is a store past its end.
-/
import Xv6.Lib.Text

namespace Xv6.UserPrintf

open Lib

/-- `digits`. -/
def digits : List Char := "0123456789ABCDEF".toList

def digit (k : Nat) : Char := digits.getD k '0'

/-- `printint`.  A 32-bit number has at most 32 digits, whatever the base. -/
def printint (xx : BitVec 32) (base : Nat) (sgn : Bool) : Option (List Char) :=
  let neg := sgn && xx.msb
  let x := if neg then -xx else xx
  let buf := (if neg then ['-'] else []) ++ Text.numeral digit base 32 x.toNat []
  if buf.length ≤ 16 then some buf else none

def printptr (x : BitVec 64) : List Char :=
  '0' :: 'x' :: Text.hexDigits digit 16 x

/-- What `vprintf` does with the character after a `%`: the text and the arguments left. -/
def conversion (cstr : BitVec 64 → List Char) (c : Char) (ap : List (BitVec 64)) :
    Option (List Char × List (BitVec 64)) :=
  let arg := ap.headD 0
  match c with
  | 'd' => (printint (arg.setWidth 32) 10 true).map (·, ap.tail)
  | 'l' => (printint (arg.setWidth 32) 10 false).map (·, ap.tail)
  | 'x' => (printint (arg.setWidth 32) 16 false).map (·, ap.tail)
  | 'p' => some (printptr arg, ap.tail)
  | 's' => some (if arg = 0 then "(null)".toList else cstr arg, ap.tail)
  | 'c' => some ([Char.ofNat (arg.toNat % 256)], ap.tail)
  | '%' => some (['%'], ap)
  | c => some (['%', c], ap)

/-- `vprintf` from a position in the format on; `state` says whether a `%` stands before it. -/
def vprintf (cstr : BitVec 64 → List Char) (state : Bool) :
    List Char → List (BitVec 64) → Option (List Char)
  | [], _ => some []
  | c :: fmt, ap =>
    if state then
      (conversion cstr c ap).bind fun (txt, ap) => (vprintf cstr false fmt ap).map (txt ++ ·)
    else if c = '%' then
      vprintf cstr true fmt ap
    else
      (vprintf cstr false fmt ap).map (c :: ·)

/-! ## Numerals -/

/-- The value of a digit. -/
def digitVal (c : Char) : Nat := digits.idxOf c

/-- The text consists of digits of the base and its value is `x`. -/
structure Denotes (base x : Nat) (txt : List Char) : Prop where
  digits : ∀ c ∈ txt, ∃ k < base, c = digit k
  value : Text.value digitVal base 0 txt = x

/-- The text is the numeral of `x`, without a superfluous leading zero. -/
structure IsNumeral (base x : Nat) (txt : List Char) : Prop extends Denotes base x txt where
  nonempty : txt ≠ []
  canonical : txt.head? = some '0' → txt = ['0']

theorem digitVal_digit : ∀ k < 16, digitVal (digit k) = k := by decide

theorem digit_ne_zero : ∀ k < 16, 0 < k → digit k ≠ '0' := by decide

variable {base x : Nat}

theorem isNumeral_numeral (h₁ : 1 < base) (h₂ : base ≤ 16) (hx : x < base ^ 32) :
    IsNumeral base x (Text.numeral digit base 32 x []) := by
  have hdig : ∀ k < base, digitVal (digit k) = k := fun k hk => digitVal_digit k (by omega)
  have hvalue := Text.value_numeral hdig h₁ 32 x [] hx (by decide)
  have hmem {c : Char} (hc : c ∈ Text.numeral digit base 32 x []) : ∃ k < base, c = digit k :=
    (Text.mem_numeral (by omega) hc).resolve_left List.not_mem_nil
  by_cases h0 : x = 0
  · have hzero : Text.numeral digit base 32 x [] = ['0'] := by
      subst h0
      rw [Text.numeral, Nat.zero_div, if_pos rfl, Nat.zero_mod]
      rfl
    exact ⟨⟨fun _ => hmem, hvalue⟩, by rw [hzero]; exact List.cons_ne_nil _ _, fun _ => hzero⟩
  · obtain ⟨k, hpos, hlt, hhead⟩ := @Text.head_numeral _ digit base 32 x [] hx h0
    refine ⟨⟨fun _ => hmem, hvalue⟩, fun hnil => ?_, fun hz => ?_⟩
    · rw [hnil] at hhead
      cases hhead
    · rw [hhead] at hz
      exact absurd (Option.some.inj hz) (digit_ne_zero k (by omega) hpos)

/-! ## `printint` -/

/-- **The buffer is large enough.** At most ten digits and a sign are stored. -/
theorem printint_eq (xx : BitVec 32) (sgn : Bool) (h : 10 ≤ base) :
    printint xx base sgn = some ((if sgn && xx.msb then ['-'] else []) ++
      Text.numeral digit base 32 (if sgn && xx.msb then -xx else xx).toNat []) := by
  have hlen (x : BitVec 32) : (Text.numeral digit base 32 x.toNat []).length ≤ 10 := by
    refine Text.length_numeral_le (by decide) 32 [] (lt_of_lt_of_le x.isLt ?_)
    exact le_trans (by decide) (Nat.pow_le_pow_left h 10)
  rw [printint, if_pos]
  rw [List.length_append]
  refine Nat.add_le_add (b := 6) ?_ (hlen _)
  split <;> decide

theorem isNumeral_word (x : BitVec 32) (h₁ : 1 < base) (h₂ : base ≤ 16) :
    IsNumeral base x.toNat (Text.numeral digit base 32 x.toNat []) :=
  isNumeral_numeral h₁ h₂ (lt_of_lt_of_le x.isLt (Nat.pow_le_pow_left h₁ 32))

theorem printint_unsigned (xx : BitVec 32) (h₁ : 10 ≤ base) (h₂ : base ≤ 16) :
    ∃ txt, printint xx base false = some txt ∧ IsNumeral base xx.toNat txt :=
  ⟨_, printint_eq xx false h₁, isNumeral_word xx (by omega) h₂⟩

/-- The most negative `int` is its own negation, and as a `uint` it is its absolute value. -/
theorem printint_signed (xx : BitVec 32) :
    ∃ txt, IsNumeral 10 xx.toInt.natAbs txt ∧
      printint xx 10 true = some (if xx.toInt < 0 then '-' :: txt else txt) := by
  have hneg : xx.toInt < 0 ↔ xx.msb = true := by rw [BitVec.msb_eq_toInt, decide_eq_true_iff]
  rw [printint_eq xx true le_rfl, Bool.true_and]
  by_cases h : xx.msb = true
  · have habs : (-xx).toNat = xx.toInt.natAbs := by
      rw [BitVec.toNat_neg, BitVec.toInt_eq_msb_cond, if_pos h]
      have := BitVec.msb_eq_true_iff_two_mul_ge.mp h
      omega
    refine ⟨_, habs ▸ isNumeral_word (-xx) (by decide) (by decide), ?_⟩
    rw [if_pos h, if_pos h, if_pos (hneg.mpr h), habs]
    rfl
  · have habs : xx.toNat = xx.toInt.natAbs := by
      rw [BitVec.toInt_eq_msb_cond, if_neg h, Int.natAbs_natCast]
    refine ⟨_, habs ▸ isNumeral_word xx (by decide) (by decide), ?_⟩
    rw [if_neg h, if_neg h, if_neg (mt hneg.mp h), habs]
    rfl

/-! ## `vprintf` -/

/-- A conversion in a format: its text, then the rest. -/
theorem vprintf_conversion {cstr : BitVec 64 → List Char}
    (h : conversion cstr c ap = some (txt, ap')) (fmt : List Char) :
    vprintf cstr false ('%' :: c :: fmt) ap = (vprintf cstr false fmt ap').map (txt ++ ·) := by
  rw [vprintf, if_neg (by decide), if_pos rfl, vprintf, if_pos rfl, h]
  rfl

/-- No conversion overruns `printint`'s buffer. -/
theorem exists_conversion (cstr : BitVec 64 → List Char) (c : Char) (ap : List (BitVec 64)) :
    ∃ r, conversion cstr c ap = some r := by
  unfold conversion
  have hprint {xx base sgn} (h : 10 ≤ base) : ∃ r, (printint xx base sgn).map (·, ap.tail) = some r :=
    ⟨_, congrArg (Option.map _) (printint_eq xx sgn h)⟩
  split
  case h_1 | h_2 | h_3 => exact hprint (by decide)
  all_goals exact ⟨_, rfl⟩

theorem exists_vprintf (cstr : BitVec 64 → List Char) (state : Bool) (fmt : List Char)
    (ap : List (BitVec 64)) : ∃ out, vprintf cstr state fmt ap = some out := by
  induction fmt generalizing state ap with
  | nil => exact ⟨[], rfl⟩
  | cons c fmt ih =>
    rw [vprintf]
    split
    · obtain ⟨⟨txt, ap'⟩, hconv⟩ := exists_conversion cstr c ap
      obtain ⟨out, hout⟩ := ih false ap'
      rw [hconv]
      exact ⟨txt ++ out, congrArg (Option.map _) hout⟩
    · split
      · exact ih true ap
      · obtain ⟨out, hout⟩ := ih false ap
        exact ⟨c :: out, congrArg (Option.map _) hout⟩

/-- **Printed numbers are the numbers passed,** for `%l` exactly if the number fits in 32 bits; and
no format and no arguments make `printint` leave its buffer. -/
theorem vprintf_prints_numbers (cstr : BitVec 64 → List Char) (fmt : List Char) (v : BitVec 64)
    (ap : List (BitVec 64)) :
    let emits (c : Char) (txt : List Char) : Prop :=
      vprintf cstr false ('%' :: c :: fmt) (v :: ap) = (vprintf cstr false fmt ap).map (txt ++ ·)
    (∃ txt, IsNumeral 10 (v.setWidth 32).toInt.natAbs txt ∧
        emits 'd' (if (v.setWidth 32).toInt < 0 then '-' :: txt else txt)) ∧
      (∃ txt, IsNumeral 16 (v.setWidth 32).toNat txt ∧ emits 'x' txt) ∧
      (∃ txt, txt.length = 16 ∧ Denotes 16 v.toNat txt ∧ emits 'p' ('0' :: 'x' :: txt)) ∧
      (∃ txt, (IsNumeral 10 v.toNat txt ↔ v.toNat < 2 ^ 32) ∧ emits 'l' txt) ∧
      ∀ state fmt ap, ∃ out, vprintf cstr state fmt ap = some out := by
  obtain ⟨d, hd, hdtxt⟩ := printint_signed (v.setWidth 32)
  obtain ⟨x, hxtxt, hx⟩ := @printint_unsigned 16 (v.setWidth 32) (by decide) le_rfl
  obtain ⟨l, hltxt, hl⟩ := @printint_unsigned 10 (v.setWidth 32) le_rfl (by decide)
  have hemits {c : Char} {txt : List Char} (h : conversion cstr c (v :: ap) = some (txt, ap)) :=
    vprintf_conversion h fmt
  refine ⟨⟨d, hd, hemits ?_⟩, ⟨x, hx, hemits ?_⟩,
    ⟨Text.hexDigits digit 16 v, Text.length_hexDigits 16 v,
      ⟨fun _ => Text.mem_hexDigits, Text.value_hexDigits digitVal_digit v⟩, hemits rfl⟩,
    ⟨l, ⟨fun h => ?_, fun h => ?_⟩, hemits ?_⟩, exists_vprintf cstr⟩
  · exact congrArg (Option.map _) hdtxt
  · exact congrArg (Option.map _) hxtxt
  · rw [← h.value, hl.value]
    exact BitVec.isLt _
  · rwa [BitVec.toNat_setWidth, Nat.mod_eq_of_lt h] at hl
  · exact congrArg (Option.map _) hltxt

/-- `printf("%l", 1L << 32)` prints 0. -/
theorem vprintf_l_drops_high_half :
    vprintf (fun _ => []) false "%l".toList [BitVec.ofNat 64 (2 ^ 32)] = some "0".toList ∧
      ¬IsNumeral 10 (2 ^ 32) "0".toList :=
  ⟨by decide, fun h => absurd h.value (by decide)⟩

end Xv6.UserPrintf
