/-
# Xv6.Lib.Tiles — intervals that tile an interval.

A multiset of intervals tiles `[lo, hi)` if every address in it is covered once and no other address is
covered.  Cutting a tile in two or joining two that touch keeps the tiling, as every address stays covered
as often as it was; what follows from a tiling is that different tiles do not overlap.
-/
import Mathlib.Algebra.Order.BigOperators.Group.Multiset
import Mathlib.Tactic.SplitIfs

namespace Xv6.Lib

open Multiset

variable {rest : Multiset Tile}

/-- The addresses from `addr` on, `len` of them. -/
@[ext]
structure Tile where
  addr : Nat
  len : Nat
deriving DecidableEq

/-- The address is in the tile. -/
def Tile.Covers (t : Tile) (x : Nat) : Prop := t.addr ≤ x ∧ x < t.addr + t.len

instance (t : Tile) (x : Nat) : Decidable (t.Covers x) := inferInstanceAs (Decidable (_ ∧ _))

/-- How many tiles cover an address. -/
def hits (ts : Multiset Tile) (x : Nat) : Nat := ts.countP fun t => t.Covers x

/-- The tiles cover `[lo, hi)`, every address once. -/
def Tiles (ts : Multiset Tile) (lo hi : Nat) : Prop :=
  ∀ x, hits ts x = if lo ≤ x ∧ x < hi then 1 else 0

variable {ts us : Multiset Tile} {s t : Tile} {lo hi x : Nat}

theorem hits_add (ts us : Multiset Tile) (x : Nat) : hits (ts + us) x = hits ts x + hits us x :=
  countP_add _ _ _

theorem hits_singleton (t : Tile) (x : Nat) :
    hits {t} x = if t.addr ≤ x ∧ x < t.addr + t.len then 1 else 0 := by
  rw [hits, ← cons_zero, countP_cons, countP_zero, Nat.zero_add]
  rfl

/-- Nothing is tiled by nothing. -/
theorem tiles_nil (lo : Nat) : Tiles 0 lo lo := by
  intro x
  rw [if_neg (by omega)]
  exact countP_zero _

/-- Tiles are replaced by others that cover the same addresses. -/
theorem Tiles.replace (h : Tiles (ts + rest) lo hi) (heq : ∀ x, hits us x = hits ts x) :
    Tiles (us + rest) lo hi := by
  intro x
  rw [hits_add, heq, ← hits_add]
  exact h x

/-- A tile cut in two. -/
theorem hits_cut (a m n : Nat) (x : Nat) :
    hits ({⟨a, m⟩} + {⟨a + m, n⟩}) x = hits {⟨a, m + n⟩} x := by
  simp only [hits_add, hits_singleton]
  split_ifs <;> omega

/-- A tile is added at the end. -/
theorem Tiles.extend (h : Tiles ts lo hi) (hle : lo ≤ hi) (n : Nat) :
    Tiles ({⟨hi, n⟩} + ts) lo (hi + n) := by
  intro x
  simp only [hits_add, hits_singleton, h x]
  split_ifs <;> omega

/-- Tiles are inside. -/
theorem Tiles.inside (h : Tiles ts lo hi) (ht : t ∈ ts) (hx : t.Covers x) : lo ≤ x ∧ x < hi := by
  by_contra hout
  have hz := h x
  rw [if_neg hout] at hz
  exact countP_eq_zero.mp hz t ht hx

/-- **Different tiles do not overlap.** -/
theorem Tiles.disjoint (h : Tiles ({s} + ({t} + rest)) lo hi) (hs : s.Covers x) : ¬t.Covers x := by
  intro ht
  have hle := h x
  rw [Tile.Covers] at hs ht
  rw [hits_add, hits_add, hits_singleton, hits_singleton, if_pos hs, if_pos ht] at hle
  split at hle <;> omega

/-- One of two tiles ends before the other begins. -/
def Tile.Apart (s t : Tile) : Prop := s.addr + s.len ≤ t.addr ∨ t.addr + t.len ≤ s.addr

theorem Tiles.apart_of_add (h : Tiles ({s} + ({t} + rest)) lo hi) (hs0 : 0 < s.len)
    (ht0 : 0 < t.len) : s.Apart t := by
  by_contra hover
  -- then the larger of the two addresses is in both
  have hboth : s.Covers (max s.addr t.addr) ∧ t.Covers (max s.addr t.addr) := by
    unfold Tile.Apart at hover
    unfold Tile.Covers
    omega
  exact h.disjoint hboth.1 hboth.2

theorem Tiles.apart (h : Tiles ts lo hi) (hs : s ∈ ts) (ht : t ∈ ts) (hne : s ≠ t) (hs0 : 0 < s.len)
    (ht0 : 0 < t.len) : s.Apart t := by
  obtain ⟨us, rfl⟩ := exists_cons_of_mem hs
  obtain ⟨rest, rfl⟩ := exists_cons_of_mem ((mem_cons.mp ht).resolve_left hne.symm)
  rw [← singleton_add, ← singleton_add] at h
  exact h.apart_of_add hs0 ht0

/-- The tiles of a list are pairwise apart. -/
theorem Tiles.pairwise {l : List Tile} (h : Tiles (↑l + rest) lo hi) (hpos : ∀ t ∈ l, 0 < t.len) :
    l.Pairwise Tile.Apart := by
  induction l generalizing rest with
  | nil => exact List.Pairwise.nil
  | cons t l ih =>
    rw [← cons_coe, ← singleton_add, Multiset.add_assoc] at h
    refine List.pairwise_cons.mpr ⟨fun s hs => ?_, ?_⟩
    · obtain ⟨us, hus⟩ := exists_cons_of_mem (mem_add.mpr (.inl hs) : s ∈ ↑l + rest)
      rw [hus, ← singleton_add] at h
      exact h.apart_of_add (hpos t List.mem_cons_self) (hpos s (List.mem_cons_of_mem t hs))
    · rw [Multiset.add_comm, Multiset.add_assoc] at h
      exact ih h fun s hs => hpos s (List.mem_cons_of_mem t hs)

end Xv6.Lib
