/-
# Xv6.Printf — the kernel's `printf` (`kernel/printf.c`).

What `printf` hands to `consputc`, in order, as a list of characters.  An argument is a 64-bit
register; `%d` and `%x` take its low 32 bits.  `cstr` is the C string that memory holds at an
address, which only `%s` asks for.
-/
import Xv6.Lib.Text

namespace Xv6.Printf

open Lib

/-- `digits`. -/
def digits : List Char := "0123456789abcdef".toList

def digit (k : Nat) : Char := digits.getD k '0'

/-- `printint`; its buffer has room for sixteen characters. -/
def printint (xx : BitVec 32) (base : Nat) (sign : Bool) : List Char :=
  let sign := sign && xx.msb
  let x := if sign then -xx else xx
  (if sign then ['-'] else []) ++ Text.numeral digit base 16 x.toNat []

def printptr (x : BitVec 64) : List Char :=
  '0' :: 'x' :: Text.hexDigits digit 16 x

/-- `printf`, from a position in the format on. -/
def printf (cstr : BitVec 64 → List Char) : List Char → List (BitVec 64) → List Char
  | [], _ => []
  | ['%'], _ => []
  | '%' :: 'd' :: fmt, ap => printint ((ap.headD 0).setWidth 32) 10 true ++ printf cstr fmt ap.tail
  | '%' :: 'x' :: fmt, ap => printint ((ap.headD 0).setWidth 32) 16 true ++ printf cstr fmt ap.tail
  | '%' :: 'p' :: fmt, ap => printptr (ap.headD 0) ++ printf cstr fmt ap.tail
  | '%' :: 's' :: fmt, ap =>
    (if ap.headD 0 = 0 then "(null)".toList else cstr (ap.headD 0)) ++ printf cstr fmt ap.tail
  | '%' :: '%' :: fmt, ap => '%' :: printf cstr fmt ap
  | '%' :: c :: fmt, ap => '%' :: c :: printf cstr fmt ap
  | c :: fmt, ap => c :: printf cstr fmt ap

/-! ## Reading back -/

/-- The value of a digit. -/
def digitVal (c : Char) : Nat := digits.idxOf c

theorem digitVal_digit : ∀ k < 16, digitVal (digit k) = k := by decide

/-- No digit is one of the characters that end a number. -/
theorem digit_ne : ∀ k < 16, digit k ≠ ':' ∧ digit k ≠ ' ' ∧ digit k ≠ '\n' := by decide

theorem printint_of_nonneg (base : Nat) (sign : Bool) (h : xx.msb = false) :
    printint xx base sign = Text.numeral digit base 16 xx.toNat [] := by
  simp [printint, h]

theorem value_printint (hx : x < 2 ^ 31) :
    Text.value digitVal 10 0 (printint (BitVec.ofNat 32 x) 10 true) = x := by
  have hval : (BitVec.ofNat 32 x).toNat = x := by
    rw [BitVec.toNat_ofNat]
    omega
  have hmsb : (BitVec.ofNat 32 x).msb = false := by
    rw [BitVec.msb_eq_false_iff_two_mul_lt, hval]
    omega
  rw [printint_of_nonneg _ _ hmsb, hval]
  apply Text.value_numeral (fun k hk => digitVal_digit k (by omega)) (by decide) 16 x [] _ (by decide)
  norm_num
  omega

theorem mem_printint (hx : x < 2 ^ 31)
    (hc : c ∈ printint (BitVec.ofNat 32 x) 10 true) : c ≠ ':' ∧ c ≠ ' ' ∧ c ≠ '\n' := by
  have hmsb : (BitVec.ofNat 32 x).msb = false := by
    rw [BitVec.msb_eq_false_iff_two_mul_lt, BitVec.toNat_ofNat]
    omega
  rw [printint_of_nonneg _ _ hmsb] at hc
  rcases Text.mem_numeral (by decide) hc with h | ⟨k, hk, rfl⟩
  · cases h
  · exact digit_ne k (by omega)

end Xv6.Printf
