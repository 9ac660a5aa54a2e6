/-
# Xv6.Lib.Radix — radix trees threaded through a store.

A radix tree of height `n` with fan-out `B` lives in a store: a node is a block of `B` entries, an
entry of a node above the bottom either names a child node or names none, and a bottom entry is a
payload.  A key is one digit for each level.  Nothing here says how the store keeps its entries:
`Radix` only asks for a function that reads one, and a function that says which child it names.

The tree is a view of the store, so what a write does to the tree is what it does to the reads of
the tree's own nodes.  Three rules carry every use below: a store that agrees on the nodes has the
same tree; a write to one bottom entry of a tree without shared nodes moves no node and no other
entry; changing one child changes the nodes by that child's.
-/
import Mathlib.Algebra.BigOperators.Fin
import Mathlib.Algebra.Order.BigOperators.Group.Finset
import Mathlib.Algebra.Order.Group.Multiset
import Mathlib.Data.Multiset.Basic
import Mathlib.Tactic.Abel

namespace Xv6.Lib

open Multiset Option

/-- How entries are read off a store of type `M`, and which node an entry links to. -/
structure Radix (M P E : Type) (B : Nat) where
  read : M → P → Fin B → E
  child : E → Option P

namespace Radix

variable {M P E : Type} {B : Nat} (R : Radix M P E B)

/-- The nodes of the tree of height `n` at `p`, each as often as the tree links to it. -/
def nodes (m : M) : Nat → P → Multiset P
  | 0, p => {p}
  | n + 1, p => p ::ₘ ∑ i, (R.child (R.read m p i)).elim 0 (nodes m n)

/-- The bottom node that the key `k` leads to, if every link on its path is there. -/
def slot (m : M) : Nat → P → (Nat → Fin B) → Option P
  | 0, p, _ => some p
  | n + 1, p, k => (R.child (R.read m p (k (n + 1)))).bind fun c => slot m n c k

/-- Every entry that links to a node of the tree satisfies `Q`. -/
def Linked (Q : E → Prop) (m : M) : Nat → P → Prop
  | 0, _ => True
  | n + 1, p => ∀ i c, R.child (R.read m p i) = some c → Q (R.read m p i) ∧ Linked Q m n c

/-- The payload at key `k`. -/
def get (m : M) (n : Nat) (p : P) (k : Nat → Fin B) : Option E :=
  (R.slot m n p k).map fun q => R.read m q (k 0)

/-- The two stores hold the same entries in the nodes of `A`. -/
def Agree (A : Multiset P) (m m' : M) : Prop :=
  ∀ p ∈ A, ∀ i, R.read m' p i = R.read m p i

variable {R} {m m' : M} {n : Nat} {p q c : P} {k k' : Nat → Fin B} {Q : E → Prop}

/-! ## The nodes, one level at a time -/

theorem nodes_zero : R.nodes m 0 p = {p} := rfl

theorem slot_zero : R.slot m 0 p k = some p := rfl

theorem slot_succ : R.slot m (n + 1) p k =
    (R.child (R.read m p (k (n + 1)))).bind fun c => R.slot m n c k := rfl

theorem get_zero : R.get m 0 p k = some (R.read m p (k 0)) := rfl

theorem get_succ : R.get m (n + 1) p k =
    (R.child (R.read m p (k (n + 1)))).bind fun c => R.get m n c k := by
  rw [get, slot_succ, Option.map_bind]
  rfl

theorem linked_succ : R.Linked Q m (n + 1) p ↔
    ∀ i c, R.child (R.read m p i) = some c → Q (R.read m p i) ∧ R.Linked Q m n c := Iff.rfl

theorem mem_nodes_self : p ∈ R.nodes m n p := by
  cases n <;> simp [nodes]

theorem nodes_child_le (h : R.child (R.read m p i) = some c) :
    p ::ₘ R.nodes m n c ≤ R.nodes m (n + 1) p := by
  have hle := Finset.single_le_sum (s := Finset.univ)
    (f := fun i => (R.child (R.read m p i)).elim 0 (R.nodes m n)) (fun _ _ => zero_le)
    (Finset.mem_univ i)
  simp only [h, elim_some] at hle
  exact (cons_le_cons_iff p).mpr hle

theorem mem_nodes_succ :
    q ∈ R.nodes m (n + 1) p ↔
      q = p ∨ ∃ i c, R.child (R.read m p i) = some c ∧ q ∈ R.nodes m n c := by
  rw [nodes, mem_cons, mem_sum]
  refine or_congr_right ⟨?_, ?_⟩
  · rintro ⟨i, -, hi⟩
    cases hc : R.child (R.read m p i) with
    | none => simp [hc] at hi
    | some c => exact ⟨i, c, hc, by simpa [hc] using hi⟩
  · rintro ⟨i, c, hc, hq⟩
    exact ⟨i, Finset.mem_univ i, by simpa [hc] using hq⟩

/-- In a tree without shared nodes the subtrees are without shared nodes. -/
theorem nodup_child (hn : (R.nodes m (n + 1) p).Nodup)
    (h : R.child (R.read m p i) = some c) : (R.nodes m n c).Nodup :=
  (nodup_cons.mp (nodup_of_le (nodes_child_le h) hn)).2

/-- … and the root of a tree is in none of its subtrees. -/
theorem root_notMem_child (hn : (R.nodes m (n + 1) p).Nodup)
    (h : R.child (R.read m p i) = some c) : p ∉ R.nodes m n c :=
  (nodup_cons.mp (nodup_of_le (nodes_child_le h) hn)).1

/-- … and two subtrees share no node. -/
theorem disjoint_child (hn : (R.nodes m (n + 1) p).Nodup) (hij : i ≠ j)
    (hc : R.child (R.read m p i) = some c) (hd : R.child (R.read m p j) = some d)
    (hq : q ∈ R.nodes m n c) : q ∉ R.nodes m n d := by
  classical
  rw [nodes, nodup_cons, ← Finset.add_sum_erase _ _ (Finset.mem_univ i)] at hn
  have hdis := (nodup_add.mp hn.2).2.2
  rw [disjoint_left] at hdis
  intro hq'
  refine hdis (a := q) (by simpa [hc] using hq) ?_
  exact mem_sum.mpr
    ⟨j, Finset.mem_erase.mpr ⟨hij.symm, Finset.mem_univ j⟩, by simpa [hd] using hq'⟩

/-- **Changing one child.** If only entry `i` of the root and the subtree below it differ, the nodes
differ by that subtree's. -/
theorem nodes_change_child
    (hread : ∀ j, j ≠ i → R.read m' p j = R.read m p j)
    (hsub : ∀ j c, j ≠ i → R.child (R.read m p j) = some c → R.nodes m' n c = R.nodes m n c) :
    R.nodes m' (n + 1) p + (R.child (R.read m p i)).elim 0 (R.nodes m n) =
      R.nodes m (n + 1) p + (R.child (R.read m' p i)).elim 0 (R.nodes m' n) := by
  classical
  have hrest : ∑ j ∈ Finset.univ.erase i, (R.child (R.read m' p j)).elim 0 (R.nodes m' n) =
      ∑ j ∈ Finset.univ.erase i, (R.child (R.read m p j)).elim 0 (R.nodes m n) := by
    refine Finset.sum_congr rfl fun j hj => ?_
    have hne := Finset.ne_of_mem_erase hj
    rw [hread j hne]
    cases hc : R.child (R.read m p j) with
    | none => rfl
    | some c => exact hsub j c hne hc
  rw [nodes, nodes, ← Finset.add_sum_erase _ _ (Finset.mem_univ i),
    ← Finset.add_sum_erase _ _ (Finset.mem_univ i), hrest]
  simp only [cons_add]
  congr 1
  abel

/-! ## The children of a node in order -/

/-- The nodes of the subtrees from entry `i` of `p` on. -/
def subsFrom (R : Radix M P E B) (m : M) (n : Nat) (p : P) (i : Nat) : Multiset P :=
  ∑ j : Fin B with i ≤ j.val, (R.child (R.read m p j)).elim 0 (R.nodes m n)

theorem nodes_eq_subsFrom : R.nodes m (n + 1) p = p ::ₘ R.subsFrom m n p 0 := by
  simp [nodes, subsFrom]

theorem subsFrom_of_le (hi : B ≤ i) : R.subsFrom m n p i = 0 := by
  refine Finset.sum_eq_zero fun j hj => ?_
  have := (Finset.mem_filter.mp hj).2
  omega

theorem subsFrom_succ (hi : i < B) :
    R.subsFrom m n p i =
      (R.child (R.read m p ⟨i, hi⟩)).elim 0 (R.nodes m n) + R.subsFrom m n p (i + 1) := by
  have hset : (Finset.univ.filter fun j : Fin B => i ≤ j.val) =
      insert ⟨i, hi⟩ (Finset.univ.filter fun j : Fin B => i + 1 ≤ j.val) := by
    ext j
    simp only [Finset.mem_filter, Finset.mem_univ, true_and, Finset.mem_insert, Fin.ext_iff]
    omega
  rw [subsFrom, hset, Finset.sum_insert (by simp)]
  rfl

theorem mem_subsFrom : q ∈ R.subsFrom m n p i ↔
    ∃ (j : Fin B) (c : P), i ≤ j.val ∧ R.child (R.read m p j) = some c ∧ q ∈ R.nodes m n c := by
  rw [subsFrom, mem_sum]
  constructor
  · rintro ⟨j, hj, hq⟩
    cases hc : R.child (R.read m p j) with
    | none => simp [hc] at hq
    | some c => exact ⟨j, c, (Finset.mem_filter.mp hj).2, hc, by simpa [hc] using hq⟩
  · rintro ⟨j, c, hj, hc, hq⟩
    exact ⟨j, Finset.mem_filter.mpr ⟨Finset.mem_univ j, hj⟩, by simpa [hc] using hq⟩

/-- The subtrees from an entry on depend on those entries and on the subtrees' nodes. -/
theorem subsFrom_congr
    (hread : ∀ j : Fin B, i ≤ j.val → R.read m' p j = R.read m p j)
    (hsub : ∀ (j : Fin B) c, i ≤ j.val → R.child (R.read m p j) = some c →
      R.nodes m' n c = R.nodes m n c) : R.subsFrom m' n p i = R.subsFrom m n p i := by
  refine Finset.sum_congr rfl fun j hj => ?_
  have hij := (Finset.mem_filter.mp hj).2
  rw [hread j hij]
  cases hc : R.child (R.read m p j) with
  | none => rfl
  | some c => exact hsub j c hij hc

/-! ## Following a key -/

theorem slot_mem_nodes (h : R.slot m n p k = some q) : q ∈ R.nodes m n p := by
  induction n generalizing p with
  | zero =>
    cases h
    exact mem_nodes_self
  | succ n ih =>
    obtain ⟨c, hc, hs⟩ := bind_eq_some_iff.mp h
    exact mem_nodes_succ.mpr (.inr ⟨_, c, hc, ih hs⟩)

theorem slot_congr_key (h : ∀ l, 1 ≤ l → l ≤ n → k l = k' l) :
    R.slot m n p k = R.slot m n p k' := by
  induction n generalizing p with
  | zero => rfl
  | succ n ih =>
    rw [slot, slot, h (n + 1) (by omega) le_rfl]
    congr 1
    funext c
    exact ih fun l h1 h2 => h l h1 (by omega)

theorem get_congr_key (h : ∀ l ≤ n, k l = k' l) : R.get m n p k = R.get m n p k' := by
  rw [get, get, slot_congr_key fun l _ hl => h l hl, h 0 (Nat.zero_le n)]

/-- **No aliasing.** In a tree without shared nodes, keys that lead to one bottom node agree on
every digit above the last. -/
theorem slot_inj (hn : (R.nodes m n p).Nodup) (h : R.slot m n p k = some q)
    (h' : R.slot m n p k' = some q) : ∀ l, 1 ≤ l → l ≤ n → k l = k' l := by
  induction n generalizing p with
  | zero =>
    intro l h1 h2
    omega
  | succ n ih =>
    obtain ⟨c, hc, hs⟩ := bind_eq_some_iff.mp h
    obtain ⟨d, hd, hs'⟩ := bind_eq_some_iff.mp h'
    have htop : k (n + 1) = k' (n + 1) := by
      by_contra hne
      exact disjoint_child hn hne hc hd (slot_mem_nodes hs) (slot_mem_nodes hs')
    rw [← htop, hc] at hd
    cases hd
    intro l h1 h2
    rcases Nat.lt_or_ge l (n + 1) with hl | hl
    · exact ih (nodup_child hn hc) hs hs' l h1 (by omega)
    · rw [show l = n + 1 by omega]
      exact htop

/-! ## A node without children -/

theorem nodes_of_blank (h : ∀ i, R.child (R.read m p i) = none) : R.nodes m n p = {p} := by
  cases n with
  | zero => rfl
  | succ n => simp [nodes, h]

theorem linked_of_blank (h : ∀ i, R.child (R.read m p i) = none) : R.Linked Q m n p := by
  cases n with
  | zero => trivial
  | succ n =>
    intro i c hc
    rw [h] at hc
    cases hc

theorem get_of_blank (h : ∀ i, R.child (R.read m p i) = none) :
    R.get m n p k = none ∨ R.get m n p k = some (R.read m p (k 0)) := by
  cases n with
  | zero => exact .inr rfl
  | succ n =>
    rw [get_succ, h]
    exact .inl rfl

/-! ## Stores that agree on the nodes -/

theorem Agree.mono (h : R.Agree A m m') (hA : ∀ p ∈ A', p ∈ A) :
    R.Agree A' m m' :=
  fun p hp => h p (hA p hp)

theorem Agree.child (h : R.Agree (R.nodes m (n + 1) p) m m')
    (hc : R.child (R.read m p i) = some c) : R.Agree (R.nodes m n c) m m' :=
  h.mono fun _ hq => mem_nodes_succ.mpr (.inr ⟨i, c, hc, hq⟩)

section

variable (h : R.Agree (R.nodes m n p) m m')

include h

theorem nodes_congr : R.nodes m' n p = R.nodes m n p := by
  induction n generalizing p with
  | zero => rfl
  | succ n ih =>
    rw [nodes, nodes]
    congr 1
    refine Finset.sum_congr rfl fun i _ => ?_
    rw [h p mem_nodes_self i]
    cases hc : R.child (R.read m p i) with
    | none => rfl
    | some c => exact ih (h.child hc)

theorem slot_congr (k : Nat → Fin B) : R.slot m' n p k = R.slot m n p k := by
  induction n generalizing p with
  | zero => rfl
  | succ n ih =>
    rw [slot, slot, h p mem_nodes_self]
    cases hc : R.child (R.read m p (k (n + 1))) with
    | none => rfl
    | some c => exact ih (h.child hc)

theorem get_congr (k : Nat → Fin B) : R.get m' n p k = R.get m n p k := by
  rw [get, get, slot_congr h]
  cases hs : R.slot m n p k with
  | none => rfl
  | some q => simp [h q (slot_mem_nodes hs)]

theorem linked_congr (hl : R.Linked Q m n p) : R.Linked Q m' n p := by
  induction n generalizing p with
  | zero => trivial
  | succ n ih =>
    intro i c hc
    rw [h p mem_nodes_self] at hc ⊢
    exact ⟨(hl i c hc).1, ih (h.child hc) (hl i c hc).2⟩

end

/-! ## Writing one bottom entry -/

/-- Only entry `j` of node `q` may differ among the nodes of `A`. -/
def AgreeBut (R : Radix M P E B) (A : Multiset P) (q : P) (j : Fin B) (m m' : M) : Prop :=
  ∀ p ∈ A, ∀ i, ¬(p = q ∧ i = j) → R.read m' p i = R.read m p i

theorem AgreeBut.agree (h : R.AgreeBut A q j m m') (hq : q ∉ A) :
    R.Agree A m m' :=
  fun p hp i => h p hp i fun hpq => hq (hpq.1 ▸ hp)

theorem AgreeBut.mono (h : R.AgreeBut A q j m m')
    (hA : ∀ p ∈ A', p ∈ A) : R.AgreeBut A' q j m m' :=
  fun p hp => h p (hA p hp)

/-- What a write to a bottom entry leaves of the level above it. -/
theorem AgreeBut.step (hn : (R.nodes m (n + 1) p).Nodup)
    (hs : R.slot m (n + 1) p k = some q) (h : R.AgreeBut (R.nodes m (n + 1) p) q j m m') :
    (∀ i, R.read m' p i = R.read m p i) ∧
      ∀ i c, R.child (R.read m p i) = some c →
        (i = k (n + 1) ∧ (R.nodes m n c).Nodup ∧ R.slot m n c k = some q ∧
          R.AgreeBut (R.nodes m n c) q j m m') ∨
        (i ≠ k (n + 1) ∧ R.Agree (R.nodes m n c) m m') := by
  obtain ⟨d, hd, hsd⟩ := bind_eq_some_iff.mp hs
  have hpq : p ≠ q := by
    rintro rfl
    exact root_notMem_child hn hd (slot_mem_nodes hsd)
  refine ⟨fun i => h p mem_nodes_self i fun hp => hpq hp.1, fun i c hc => ?_⟩
  have hsub : R.AgreeBut (R.nodes m n c) q j m m' :=
    h.mono fun _ hr => mem_nodes_succ.mpr (.inr ⟨i, c, hc, hr⟩)
  by_cases hi : i = k (n + 1)
  · subst hi
    cases hc.symm.trans hd
    exact .inl ⟨rfl, nodup_child hn hc, hsd, hsub⟩
  · exact .inr ⟨hi, hsub.agree (disjoint_child hn (Ne.symm hi) hd hc (slot_mem_nodes hsd))⟩

section Leaf

variable {j : Fin B} (hn : (R.nodes m n p).Nodup) (hs : R.slot m n p k = some q)
  (h : R.AgreeBut (R.nodes m n p) q j m m')
include hn hs h

theorem nodes_write : R.nodes m' n p = R.nodes m n p := by
  induction n generalizing p with
  | zero => rfl
  | succ n ih =>
    obtain ⟨hread, hsub⟩ := h.step hn hs
    rw [nodes, nodes]
    congr 1
    refine Finset.sum_congr rfl fun i _ => ?_
    rw [hread i]
    cases hc : R.child (R.read m p i) with
    | none => rfl
    | some c =>
      rcases hsub i c hc with ⟨-, hnc, hsc, hc'⟩ | ⟨-, hc'⟩
      · exact ih hnc hsc hc'
      · exact nodes_congr hc'

theorem slot_write (k' : Nat → Fin B) : R.slot m' n p k' = R.slot m n p k' := by
  induction n generalizing p with
  | zero => rfl
  | succ n ih =>
    obtain ⟨hread, hsub⟩ := h.step hn hs
    rw [slot, slot, hread]
    cases hc : R.child (R.read m p (k' (n + 1))) with
    | none => rfl
    | some c =>
      rcases hsub _ c hc with ⟨-, hnc, hsc, hc'⟩ | ⟨-, hc'⟩
      · exact ih hnc hsc hc'
      · exact slot_congr hc' k'

theorem linked_write (hl : R.Linked Q m n p) : R.Linked Q m' n p := by
  induction n generalizing p with
  | zero => trivial
  | succ n ih =>
    obtain ⟨hread, hsub⟩ := h.step hn hs
    intro i c hc
    rw [hread] at hc ⊢
    refine ⟨(hl i c hc).1, ?_⟩
    rcases hsub i c hc with ⟨-, hnc, hsc, hc'⟩ | ⟨-, hc'⟩
    · exact ih hnc hsc hc' (hl i c hc).2
    · exact linked_congr hc' (hl i c hc).2

/-- **Write.** Writing the bottom entry of one key changes the payload of the keys with its digits,
and of no other. -/
theorem get_write (hj : j = k 0) (k' : Nat → Fin B) :
    R.get m' n p k' =
      if ∀ l ≤ n, k' l = k l then some (R.read m' q j) else R.get m n p k' := by
  rw [get, get, slot_write hn hs h]
  split
  next heq =>
    rw [slot_congr_key fun l _ hl => heq l hl, hs, heq 0 (Nat.zero_le n), hj]
    rfl
  next hne =>
    cases hs' : R.slot m n p k' with
    | none => rfl
    | some r =>
      have hr : R.read m' r (k' 0) = R.read m r (k' 0) := by
        refine h r (slot_mem_nodes hs') _ ?_
        rintro ⟨rfl, h0⟩
        refine hne fun l hl => ?_
        rcases Nat.eq_zero_or_pos l with rfl | hpos
        · exact h0.trans hj
        · exact (slot_inj hn hs' hs) l hpos hl
      simp [hr]

end Leaf

/-! ## Digits -/

/-- Digit `l` of `v` in base `B`. -/
def digit (B : Nat) [NeZero B] (v l : Nat) : Fin B :=
  Fin.ofNat B (v / B ^ l)

/-- A number of `n + 1` digits is determined by them. -/
theorem digit_inj [NeZero B] (hv : v < B ^ (n + 1)) (hw : w < B ^ (n + 1))
    (h : ∀ l ≤ n, digit B v l = digit B w l) : v = w := by
  have hmod : ∀ l ≤ n, v / B ^ l % B = w / B ^ l % B := fun l hl =>
    congrArg Fin.val (h l hl)
  -- The digits from level `l` up determine the quotient by `B ^ l`; descend to `l = 0`.
  have key : ∀ d ≤ n + 1, v / B ^ (n + 1 - d) = w / B ^ (n + 1 - d) := by
    intro d
    induction d with
    | zero =>
      intro _
      rw [Nat.sub_zero, Nat.div_eq_of_lt hv, Nat.div_eq_of_lt hw]
    | succ d ih =>
      intro hd
      have hup := ih (by omega)
      have hlow := hmod (n + 1 - (d + 1)) (by omega)
      rw [show n + 1 - d = n + 1 - (d + 1) + 1 by omega, pow_succ, ← Nat.div_div_eq_div_mul,
        ← Nat.div_div_eq_div_mul] at hup
      rw [← Nat.div_add_mod (v / B ^ (n + 1 - (d + 1))) B, hup, hlow, Nat.div_add_mod]
  simpa using key (n + 1) le_rfl

attribute [irreducible] nodes slot Linked subsFrom

end Radix

end Xv6.Lib
