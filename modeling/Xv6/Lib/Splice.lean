/-
# Xv6.Lib.Splice — overwriting part of a list.

`splice l off xs` is `l` with the elements from `off` on replaced by `xs`; it grows if `xs` reaches past
the end.  It is described by what each index reads.
-/
import Mathlib.Data.List.Basic

namespace Xv6.Lib

open List

variable {α : Type}

/-- The list `l` with `xs` written at `off`. -/
def splice (l : List α) (off : Nat) (xs : List α) : List α :=
  l.take off ++ xs ++ l.drop (off + xs.length)

variable {l xs : List α} {off : Nat}

theorem length_splice (h : off ≤ l.length) :
    (splice l off xs).length = max l.length (off + xs.length) := by
  simp only [splice, length_append, length_take, length_drop]
  omega

theorem getElem?_splice (h : off ≤ l.length) (x : Nat) :
    (splice l off xs)[x]? = if off ≤ x ∧ x < off + xs.length then xs[x - off]? else l[x]? := by
  have hlen : (l.take off).length = off := by
    rw [length_take]
    omega
  rw [splice, append_assoc, getElem?_append, hlen]
  by_cases h1 : x < off
  · rw [if_pos h1, if_neg (by omega), getElem?_take, if_pos h1]
  · rw [if_neg h1, getElem?_append]
    by_cases h2 : x < off + xs.length
    · rw [if_pos (by omega), if_pos ⟨by omega, h2⟩]
    · rw [if_neg (by omega), if_neg (by omega), getElem?_drop]
      congr 1
      omega

theorem splice_nil (h : off ≤ l.length) : splice l off [] = l := by
  refine ext_getElem? fun x => ?_
  rw [getElem?_splice h, if_neg (by simp)]

end Xv6.Lib
