/-
# Xv6.Lib.Scan — a cursor that moves over a list while a test holds.

`scan l p s` is where the loop `while(s < end && p(l[s])) s++` stops.
-/
import Mathlib.Data.List.TakeWhile

namespace Xv6.Lib

open List

variable {α : Type} {l : List α} {p : α → Bool} {s i : Nat}

/-- The first position from `s` on that is the end or fails the test. -/
def scan (l : List α) (p : α → Bool) (s : Nat) : Nat := s + ((l.drop s).takeWhile p).length

theorem le_scan : s ≤ scan l p s := Nat.le_add_right _ _

theorem scan_le (hs : s ≤ l.length) : scan l p s ≤ l.length := by
  have hle := ( takeWhile_prefix p (l := l.drop s)).length_le
  rw [length_drop] at hle
  rw [scan]
  omega

theorem scan_of_ge (hs : l.length ≤ s) : scan l p s = s := by
  rw [scan, drop_eq_nil_of_le hs]
  rfl

theorem drop_scan : l.drop (scan l p s) = (l.drop s).dropWhile p := by
  rw [scan, ← drop_drop]
  have hsplit := takeWhile_append_dropWhile (p := p) (l := l.drop s)
  exact (congrArg (drop _) hsplit.symm).trans drop_left

/-- What was passed over meets the test. -/
theorem of_lt_scan (hs : s ≤ i) (hi : i < scan l p s) (h : i < l.length) : p l[i] = true := by
  have hlt : i - s < ((l.drop s).takeWhile p).length := by
    rw [scan] at hi
    omega
  have hmem := getElem_mem hlt
  have hget : ((l.drop s).takeWhile p)[i - s] = l[i] := by
    rw [( takeWhile_prefix p).getElem hlt, getElem_drop]
    congr 1
    omega
  rw [hget] at hmem
  exact mem_takeWhile_imp hmem

/-- Where the loop stops, the test fails. -/
theorem not_of_scan (h : scan l p s < l.length) : p l[scan l p s] = false := by
  have hdrop : (l.drop s).dropWhile p = l[scan l p s] :: l.drop (scan l p s + 1) := by
    rw [← drop_scan, drop_eq_getElem_cons h]
  have hpos : 0 < ((l.drop s).dropWhile p).length := by
    rw [hdrop]
    exact Nat.succ_pos _
  have hnot := dropWhile_get_zero_not (p := p) (l.drop s) hpos
  simp only [hdrop, get_eq_getElem, getElem_cons_zero] at hnot
  exact eq_false_of_ne_true hnot

theorem lt_scan (hs : s < l.length) (hp : p l[s] = true) : s < scan l p s := by
  refine lt_of_le_of_ne le_scan fun he => ?_
  have hnot := not_of_scan (l := l) (p := p) (s := s) (he ▸ hs)
  simp only [← he, hp] at hnot
  cases hnot

/-- A second loop does not move. -/
theorem scan_scan : scan l p (scan l p s) = scan l p s := by
  refine le_antisymm (not_lt.mp fun hlt => ?_) le_scan
  have hs : scan l p s < l.length := by
    by_contra hge
    rw [scan_of_ge (not_lt.mp hge)] at hlt
    exact absurd hlt (lt_irrefl _)
  have htrue := of_lt_scan le_rfl hlt hs
  rw [not_of_scan hs] at htrue
  cases htrue

end Xv6.Lib
