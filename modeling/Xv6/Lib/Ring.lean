/-
# Xv6.Lib.Ring — ring buffers with counters that wrap around.

A buffer of `N` cells is used through two counters of `w` bits, which are only ever incremented or
decremented and are reduced modulo `N` when a cell is looked up.  `RingHolds buf r e l` says that the cells
from `r` to `e` hold the list `l`.  As `N` divides `2 ^ w`, nothing special happens when a counter wraps.
-/
import Mathlib.Data.Nat.ModEq
import Mathlib.Logic.Function.Basic

namespace Xv6.Lib

open List BitVec Nat

variable {α : Type} {N w : Nat} [NeZero N]

/-- The cell that a counter stands for. -/
def cell (N : Nat) [NeZero N] (i : BitVec w) : Fin N := Fin.ofNat N i.toNat

/-- The cells from `r` to `e` hold `l`. -/
structure RingHolds (buf : Fin N → α) (r e : BitVec w) (l : List α) : Prop where
  last : e = r + BitVec.ofNat w l.length
  le : l.length ≤ N
  get : ∀ i (h : i < l.length), buf (cell N (r + BitVec.ofNat w i)) = l[i]

theorem val_cell_add (hN : N ∣ 2 ^ w) (r : BitVec w) (i : Nat) :
    (cell N (r + BitVec.ofNat w i)).val = (r.toNat + i) % N := by
  rw [cell, Fin.val_ofNat, toNat_add, toNat_ofNat, add_mod_mod,
    mod_mod_of_dvd _ hN]

/-- Cells less than `N` apart are different. -/
theorem cell_add_inj (hN : N ∣ 2 ^ w) (hi : i < N) (hj : j < N)
    (h : cell N (r + BitVec.ofNat w i) = cell N (r + BitVec.ofNat w j)) : i = j := by
  have hv := congrArg Fin.val h
  rw [val_cell_add hN, val_cell_add hN] at hv
  have hmod : i ≡ j [MOD N] := Nat.ModEq.add_left_cancel' r.toNat hv
  rw [Nat.ModEq, mod_eq_of_lt hi, mod_eq_of_lt hj] at hmod
  exact hmod

namespace RingHolds

variable {buf : Fin N → α} {r e : BitVec w} {l : List α} {x : α}

theorem nil (buf : Fin N → α) (r : BitVec w) : RingHolds buf r r [] :=
  ⟨by simp, zero_le N, fun i h => absurd h (not_lt_zero i)⟩

section

variable (hw : N < 2 ^ w) (h : RingHolds buf r e l)

include hw h

/-- The distance of the counters is the length. -/
theorem len : (e - r).toNat = l.length := by
  have hlt : l.length < 2 ^ w := lt_of_le_of_lt h.le hw
  rw [h.last, BitVec.add_comm, BitVec.add_sub_cancel, BitVec.toNat_ofNat, mod_eq_of_lt hlt]

theorem eq_iff : r = e ↔ l = [] := by
  constructor
  · rintro rfl
    have := h.len hw
    rw [BitVec.sub_self] at this
    exact length_eq_zero_iff.mp this.symm
  · rintro rfl
    simpa using h.last.symm

/-- The start plus the size is the end exactly if the buffer is full. -/
theorem full_iff : e = r + BitVec.ofNat w N ↔ l.length = N := by
  have hlt : l.length < 2 ^ w := lt_of_le_of_lt h.le hw
  rw [h.last, BitVec.add_right_inj]
  constructor
  · intro he
    have := congrArg BitVec.toNat he
    rwa [toNat_ofNat, toNat_ofNat, mod_eq_of_lt hlt, mod_eq_of_lt hw] at this
  · intro he
    rw [he]

/-- The distance of the counters is the size exactly if the buffer is full. -/
theorem sub_eq_iff : e - r = BitVec.ofNat w N ↔ l.length = N := by
  rw [← h.len hw]
  constructor
  · intro he
    rw [he, toNat_ofNat, mod_eq_of_lt hw]
  · intro he
    refine eq_of_toNat_eq ?_
    rw [he, toNat_ofNat, mod_eq_of_lt hw]

end

/-- The first part of what the buffer holds. -/
theorem append_left (h : RingHolds buf r e (l ++ l')) :
    RingHolds buf r (r + BitVec.ofNat w l.length) l := by
  have hle := h.le
  rw [length_append] at hle
  refine ⟨rfl, by omega, fun i hi => ?_⟩
  rw [h.get i (by rw [length_append]; omega), getElem_append_left hi]

/-- The second part of what the buffer holds. -/
theorem append_right (h : RingHolds buf r e (l ++ l')) :
    RingHolds buf (r + BitVec.ofNat w l.length) e l' := by
  have hle := h.le
  rw [length_append] at hle
  have hadd : ∀ i, r + BitVec.ofNat w l.length + BitVec.ofNat w i = r + BitVec.ofNat w (l.length + i) :=
    fun i => by rw [BitVec.ofNat_add, BitVec.add_assoc]
  refine ⟨?_, by omega, fun i hi => ?_⟩
  · rw [hadd, h.last, length_append]
  · rw [hadd, h.get _ (by rw [length_append]; omega), getElem_append_right (by omega)]
    simp

/-- **Put.** A value goes into the cell at the end; no cell in use is overwritten. -/
theorem push (hN : N ∣ 2 ^ w) (h : RingHolds buf r e l) (hlt : l.length < N) (x : α) :
    RingHolds (Function.update buf (cell N e) x) r (e + 1) (l ++ [x]) := by
  refine ⟨?_, ?_, fun i hi => ?_⟩
  · rw [h.last, length_append, length_singleton, BitVec.ofNat_add, BitVec.add_assoc]
    rfl
  · rw [length_append, length_singleton]
    exact hlt
  · rw [h.last]
    by_cases hil : i < l.length
    · rw [Function.update_of_ne fun he => hil.ne (cell_add_inj hN (hil.trans hlt) hlt he), h.get i hil,
        getElem_append_left hil]
    · obtain rfl : i = l.length := by
        rw [length_append, length_singleton] at hi
        omega
      rw [Function.update_self, getElem_concat_length rfl]

/-- **Take.** The value in the cell at the start leaves the buffer. -/
theorem pop (h : RingHolds buf r e (x :: l)) : buf (cell N r) = x ∧ RingHolds buf (r + 1) e l := by
  have hsucc : ∀ i, r + 1 + BitVec.ofNat w i = r + BitVec.ofNat w (i + 1) := fun i => by
    rw [BitVec.ofNat_add, BitVec.add_assoc, BitVec.add_comm 1]
    rfl
  refine ⟨?_, ?_, ?_, fun i hi => ?_⟩
  · have := h.get 0 (succ_pos _)
    simpa using this
  · rw [hsucc]
    exact h.last
  · exact le_of_succ_le h.le
  · rw [hsucc]
    exact h.get (i + 1) (succ_lt_succ hi)

/-- **Drop the last.** The value in the cell before the end leaves the buffer. -/
theorem dropLast (h : RingHolds buf r e (l ++ [x])) :
    buf (cell N (e - 1)) = x ∧ RingHolds buf r (e - 1) l := by
  have hlen : (l ++ [x]).length = l.length + 1 := by simp
  have hlast : e - 1 = r + BitVec.ofNat w l.length := by
    rw [h.last, hlen, BitVec.ofNat_add, ← BitVec.add_assoc]
    exact add_sub_cancel ..
  refine ⟨?_, hlast, ?_, fun i hi => ?_⟩
  · rw [hlast, h.get l.length (by omega), getElem_concat_length rfl]
  · have := h.le
    omega
  · rw [h.get i (by omega), getElem_append_left hi]

end RingHolds

end Xv6.Lib
