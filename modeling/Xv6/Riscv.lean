/-
# Xv6.Riscv — pages, page-table entries and the memory layout.

The macros of `kernel/riscv.h` and `kernel/memlayout.h` that the virtual-memory code uses, under
their own names.  An address is a `Nat`; where the C computes in `uint64` the wrap-around is
written out.  A page-table entry is a 64-bit word: ten flag bits below the page number.
-/
import Mathlib.Data.BitVec
import Mathlib.Tactic.NormNum

namespace Xv6

open BitVec

/-! ## `kernel/riscv.h`: pages -/

/-- Bytes per page. -/
def PGSIZE : Nat := 4096

/-- `((sz)+PGSIZE-1) & ~(PGSIZE-1)`, in 64 bits. -/
def PGROUNDUP (sz : Nat) : Nat := (sz + PGSIZE - 1) % 2 ^ 64 / PGSIZE * PGSIZE

/-- `(a) & ~(PGSIZE-1)`. -/
def PGROUNDDOWN (a : Nat) : Nat := a / PGSIZE * PGSIZE

/-- One beyond the highest possible virtual address. -/
def MAXVA : Nat := 2 ^ 38

/-! ## `kernel/riscv.h`: page-table entries -/

/-- A page-table entry, `pte_t`. -/
abbrev Pte := BitVec 64

/-- valid -/
def PTE_V : Pte := 1#64 <<< 0
/-- readable -/
def PTE_R : Pte := 1#64 <<< 1
/-- writable -/
def PTE_W : Pte := 1#64 <<< 2
/-- executable -/
def PTE_X : Pte := 1#64 <<< 3
/-- user can access -/
def PTE_U : Pte := 1#64 <<< 4
/-- accessed -/
def PTE_A : Pte := 1#64 <<< 6

/-- Shift a physical address to the right place for a PTE. -/
def PA2PTE (pa : Nat) : Pte := (BitVec.ofNat 64 pa >>> 12) <<< 10

/-- The physical address of the page that a PTE names. -/
def PTE2PA (pte : Pte) : Nat := ((pte >>> 10) <<< 12).toNat

/-- The ten flag bits. -/
def PTE_FLAGS (pte : Pte) : Pte := pte &&& 0x3FF#64

/-- The 9-bit page table index of `va` at `level`. -/
def PX (level va : Nat) : Nat := va >>> (12 + 9 * level) % 512

/-! ## `kernel/memlayout.h` -/

/-- The first address of RAM. -/
def KERNBASE : Nat := 0x80000000
/-- The end of RAM. -/
def PHYSTOP : Nat := KERNBASE + 128 * 1024 * 1024
/-- The trampoline page, highest in every address space. -/
def TRAMPOLINE : Nat := MAXVA - PGSIZE
/-- The trapframe page, below the trampoline. -/
def TRAPFRAME : Nat := TRAMPOLINE - PGSIZE
/-- The page shared with the kernel, below the trapframe. -/
def USYSCALL : Nat := TRAPFRAME - PGSIZE

/-! ## Flags, one bit at a time -/

/-- `pte & (1 << i)` tests bit `i`. -/
theorem and_bit_eq_zero (hi : i < 64) (pte : Pte) :
    pte &&& 1#64 <<< i = 0 ↔ pte.getLsbD i = false := by
  constructor
  · intro h
    have := congrArg (fun b : Pte => b.getLsbD i) h
    simpa [hi] using this
  · intro h
    apply eq_of_getLsbD_eq
    intro j hj
    by_cases hij : j = i
    · subst hij
      simp [h]
    · simp
      intro _ _ _ _
      omega

theorem and_V_eq_zero (pte : Pte) : pte &&& PTE_V = 0 ↔ pte.getLsbD 0 = false :=
  and_bit_eq_zero (by omega) pte
theorem and_R_eq_zero (pte : Pte) : pte &&& PTE_R = 0 ↔ pte.getLsbD 1 = false :=
  and_bit_eq_zero (by omega) pte
theorem and_W_eq_zero (pte : Pte) : pte &&& PTE_W = 0 ↔ pte.getLsbD 2 = false :=
  and_bit_eq_zero (by omega) pte
theorem and_U_eq_zero (pte : Pte) : pte &&& PTE_U = 0 ↔ pte.getLsbD 4 = false :=
  and_bit_eq_zero (by omega) pte

/-- The word consists of flag bits. -/
def IsFlags (x : Pte) : Prop := PTE_FLAGS x = x

instance (x : Pte) : Decidable (IsFlags x) := inferInstanceAs (Decidable (PTE_FLAGS x = x))

theorem getLsbD_PTE_FLAGS (pte : Pte) (i : Nat) :
    (PTE_FLAGS pte).getLsbD i = (pte.getLsbD i && decide (i < 10)) := by
  have h : (0x3FF#64).getLsbD i = decide (i < 10) := by
    rw [getLsbD_ofNat, show 0x3FF = 2 ^ 10 - 1 by norm_num, Nat.testBit_two_pow_sub_one]
    by_cases hi : i < 10 <;> simp [hi]
    omega
  rw [PTE_FLAGS, getLsbD_and, h]

theorem isFlags_iff (x : Pte) : IsFlags x ↔ ∀ i, 10 ≤ i → x.getLsbD i = false := by
  constructor
  · intro h i hi
    rw [← h, getLsbD_PTE_FLAGS]
    simp [hi]
  · intro h
    apply eq_of_getLsbD_eq
    intro i _
    rw [getLsbD_PTE_FLAGS]
    by_cases hi : i < 10
    · simp [hi]
    · simp [h i (by omega)]

theorem isFlags_PTE_FLAGS (pte : Pte) : IsFlags (PTE_FLAGS pte) :=
  (isFlags_iff _).mpr fun i hi => by simp [getLsbD_PTE_FLAGS, hi]

theorem IsFlags.or (hx : IsFlags x) (hy : IsFlags y) : IsFlags (x ||| y) :=
  (isFlags_iff _).mpr fun i hi => by
    simp [(isFlags_iff x).mp hx i hi, (isFlags_iff y).mp hy i hi]

/-! ## Addresses in entries -/

theorem getLsbD_PA2PTE (pa i : Nat) :
    (PA2PTE pa).getLsbD i = (decide (10 ≤ i ∧ i < 64) && (BitVec.ofNat 64 pa).getLsbD (i + 2)) := by
  rw [PA2PTE, getLsbD_shiftLeft, getLsbD_ushiftRight]
  by_cases h : 10 ≤ i ∧ i < 64
  · rw [show 12 + (i - 10) = i + 2 by omega]
    simp [h, show ¬i < 10 by omega]
  · by_cases h' : i < 10
    · simp [h']
    · simp [show ¬i < 64 by omega]

/-- The page number starts at bit ten. -/
theorem PTE2PA_congr (h : ∀ i, 10 ≤ i → a.getLsbD i = b.getLsbD i) :
    PTE2PA a = PTE2PA b := by
  rw [PTE2PA, PTE2PA]
  congr 1
  apply eq_of_getLsbD_eq
  intro i hi
  simp only [getLsbD_shiftLeft, getLsbD_ushiftRight]
  rw [h _ (by omega)]

theorem PTE2PA_dvd (pte : Pte) : PGSIZE ∣ PTE2PA pte := by
  rw [PTE2PA, toNat_shiftLeft, Nat.shiftLeft_eq]
  exact (Nat.dvd_mod_iff (by decide)).mpr (Dvd.intro_left _ rfl)

theorem PTE2PA_lt (pte : Pte) : PTE2PA pte < 2 ^ 64 := (_ : BitVec 64).isLt

/-- `PTE2PA` undoes `PA2PTE` up to the offset in the page. -/
theorem PTE2PA_PA2PTE (h : pa < 2 ^ 64) : PTE2PA (PA2PTE pa) = PGROUNDDOWN pa := by
  have hb : PA2PTE pa >>> 10 = BitVec.ofNat 64 pa >>> 12 := by
    apply eq_of_getLsbD_eq
    intro i hi
    rw [getLsbD_ushiftRight, getLsbD_PA2PTE, getLsbD_ushiftRight,
      show 10 + i + 2 = 12 + i by omega]
    by_cases hi' : 10 + i < 64
    · simp [hi']
    · rw [BitVec.getLsbD_of_ge (BitVec.ofNat 64 pa) (12 + i) (by omega), Bool.and_false]
  rw [PTE2PA, hb, toNat_shiftLeft, toNat_ushiftRight, toNat_ofNat,
    Nat.mod_eq_of_lt h, Nat.shiftLeft_eq, Nat.shiftRight_eq_div_pow, PGROUNDDOWN, PGSIZE]
  omega

/-- The entry that maps a page with given flags names the page and has the flags. -/
theorem PTE2PA_or (h : pa < 2 ^ 64) (hx : IsFlags x) :
    PTE2PA (PA2PTE pa ||| x) = PGROUNDDOWN pa := by
  rw [← PTE2PA_PA2PTE h]
  refine PTE2PA_congr fun i hi => ?_
  rw [getLsbD_or, (isFlags_iff x).mp hx i hi, Bool.or_false]

theorem PTE_FLAGS_or (pa : Nat) (hx : IsFlags x) : PTE_FLAGS (PA2PTE pa ||| x) = x := by
  apply eq_of_getLsbD_eq
  intro i _
  rw [getLsbD_PTE_FLAGS, getLsbD_or, getLsbD_PA2PTE]
  by_cases hi : i < 10
  · simp [hi]
  · simp [hi, (isFlags_iff x).mp hx i (by omega)]

theorem getLsbD_or_of_lt (pa : Nat) (x : Pte) (hi : i < 10) :
    (PA2PTE pa ||| x).getLsbD i = x.getLsbD i := by
  rw [getLsbD_or, getLsbD_PA2PTE]
  simp [hi]

/-- Clearing flags keeps the page. -/
theorem PTE2PA_and_not (hx : IsFlags x) : PTE2PA (pte &&& ~~~x) = PTE2PA pte :=
  PTE2PA_congr fun i hi => by
    rw [getLsbD_and, getLsbD_not, (isFlags_iff x).mp hx i hi]
    by_cases h : i < 64
    · simp [h]
    · simp [getLsbD_of_ge pte i (by omega)]

end Xv6
