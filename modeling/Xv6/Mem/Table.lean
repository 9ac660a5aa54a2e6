/-
# Xv6.Mem.Table — the three-level table as a radix tree, and `walk`.

A page table is a radix tree of height two over physical memory: 512 entries a page, and the key of
a virtual page number is its base-512 digits.  `walk` without allocation reads the tree; with
allocation it grows it, and growing takes pages from the free list, changes no mapping and writes
to no page but the tree's and the free list's.
-/
import Xv6.Lib.Radix
import Xv6.Mem.Vm

namespace Xv6

open Lib Lib.Store Lib.Prog

variable {e : Pte} {m : Store} {p q : Nat}

/-! ## The tree -/

/-- Page-table pages as nodes of a radix tree: an entry links to a page if its valid bit is set. -/
def ptRadix : Radix Store Nat Pte 512 where
  read m p i := load 8 m (p + 8 * i)
  child e := if e &&& PTE_V ≠ 0 then some (PTE2PA e) else none

/-- The digits of a virtual page number. -/
abbrev vkey (v : Nat) : Nat → Fin 512 := Radix.digit 512 v

/-- An entry that names a page-table page has none of the access bits. -/
def IsDir (e : Pte) : Prop := e &&& (PTE_R ||| PTE_W ||| PTE_X) = 0

theorem PX_eq (level va : Nat) : PX level va = vkey (va / PGSIZE) level := by
  show va >>> (12 + 9 * level) % 512 = va / PGSIZE / 512 ^ level % 512
  rw [Nat.shiftRight_eq_div_pow, Nat.div_div_eq_div_mul, pow_add, pow_mul]
  rfl

theorem child_of_valid (h : e &&& PTE_V ≠ 0) : ptRadix.child e = some (PTE2PA e) :=
  if_pos h

theorem child_eq_none : ptRadix.child e = none ↔ e &&& PTE_V = 0 := by
  constructor
  · intro h
    by_contra hv
    rw [child_of_valid hv] at h
    cases h
  · intro h
    exact if_neg (not_not.mpr h)

theorem child_eq_some : ptRadix.child e = some c ↔ e &&& PTE_V ≠ 0 ∧ PTE2PA e = c := by
  by_cases h : e &&& PTE_V = 0
  · rw [child_eq_none.mpr h]
    exact ⟨fun h' => (Option.some_ne_none c h'.symm).elim, fun h' => absurd h h'.1⟩
  · rw [child_of_valid h, Option.some.injEq]
    exact ⟨fun h' => ⟨h, h'⟩, fun h' => h'.2⟩

theorem child_zero : ptRadix.child 0 = none := child_eq_none.mpr (by decide)

/-- The entry that `walk` writes for a new page-table page. -/
theorem child_link (hdvd : PGSIZE ∣ c) (hlt : c < 2 ^ 64) :
    ptRadix.child (PA2PTE c ||| PTE_V) = some c := by
  refine child_eq_some.mpr ⟨?_, ?_⟩
  · rw [Ne, and_V_eq_zero, getLsbD_or_of_lt c _ (by omega)]
    decide
  · rw [PTE2PA_or hlt (by decide), PGROUNDDOWN, Nat.div_mul_cancel hdvd]

theorem isDir_link (c : Nat) : IsDir (PA2PTE c ||| PTE_V) := by
  apply BitVec.eq_of_getLsbD_eq
  intro i hi
  rw [BitVec.getLsbD_and]
  by_cases h : i < 10
  · rw [getLsbD_or_of_lt c _ h, ← BitVec.getLsbD_and]
    have : PTE_V &&& (PTE_R ||| PTE_W ||| PTE_X) = 0 := by decide
    rw [this]
  · have hx : IsFlags (PTE_R ||| PTE_W ||| PTE_X) := by decide
    rw [(isFlags_iff _).mp hx i (by omega)]
    simp

/-! ## Reads and writes of entries -/

theorem read_eqOff (h : EqOff A m m') (hp : PGSIZE ∣ p) (hA : p ∉ A)
    (i : Fin 512) : ptRadix.read m' p i = ptRadix.read m p i := by
  refine load_congr fun x h1 h2 => h x ?_
  rwa [PGROUNDDOWN_of_mem hp (by omega) (by unfold PGSIZE; omega)]

theorem agree_eqOff (h : EqOff A m m')
    (hB : ∀ p ∈ B, PGSIZE ∣ p ∧ p ∉ A) : ptRadix.Agree B m m' :=
  fun p hp => read_eqOff h (hB p hp).1 (hB p hp).2

theorem dvd_of_mem_nodes (hp : PGSIZE ∣ p) (hq : q ∈ ptRadix.nodes m n p) : PGSIZE ∣ q := by
  induction n generalizing p with
  | zero =>
    rw [Radix.nodes_zero, Multiset.mem_singleton] at hq
    rw [hq]
    exact hp
  | succ n ih =>
    rcases Radix.mem_nodes_succ.mp hq with rfl | ⟨i, c, hc, hq⟩
    · exact hp
    · rw [← (child_eq_some.mp hc).2] at hq
      exact ih (PTE2PA_dvd _) hq

theorem read_store_self (m : Store) (p : Nat) (i : Fin 512) (e : Pte) :
    ptRadix.read (store 8 m (p + 8 * i) e) p i = e :=
  load_store (k := 8) m _ e

theorem read_store_ne (m : Store) {i j : Fin 512} (e : Pte) (hp : PGSIZE ∣ p) (hq : PGSIZE ∣ q)
    (hne : ¬(p = q ∧ i = j)) : ptRadix.read (store 8 m (q + 8 * j) e) p i = ptRadix.read m p i := by
  refine load_store_of_disjoint (j := 8) (k := 8) m e ?_
  obtain ⟨a, rfl⟩ := hp
  obtain ⟨b, rfl⟩ := hq
  have hij : a = b → (i : Nat) ≠ j := fun h hij => hne ⟨by rw [h], Fin.ext hij⟩
  unfold PGSIZE at *
  omega

/-- A store to one entry. -/
theorem agreeBut_store (A : Multiset Nat) (m : Store) (j : Fin 512) (e : Pte) (hq : PGSIZE ∣ q)
    (hA : ∀ p ∈ A, PGSIZE ∣ p) : ptRadix.AgreeBut A q j m (store 8 m (q + 8 * j) e) :=
  fun p hp _ hne => read_store_ne m e (hA p hp) hq hne

end Xv6
