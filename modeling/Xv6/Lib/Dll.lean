/-
# Xv6.Lib.Dll — circular doubly linked lists.

The links of a list are two functions on nodes; the node `none` is the head, which holds no element.
`Spells d l` says that following `next` from the head visits the elements of `l` in order and comes back
to the head, and that `prev` is its inverse there.  Unlinking a node and linking it behind the head are
the pointer assignments that one writes in C, in that order.
-/
import Mathlib.Data.List.Chain
import Mathlib.Data.List.Nodup
import Mathlib.Data.Option.Basic
import Mathlib.Logic.Function.Basic

namespace Xv6.Lib

open Function List

variable {B : Type}

/-- A relation that holds along a list, where it is only needed between an element that is not the last
and one that is not the first. -/
theorem isChain_imp_of_mem {R S : B → B → Prop} {l : List B} (h : l.IsChain R)
    (hRS : ∀ x ∈ l.dropLast, ∀ y ∈ l.tail, R x y → S x y) : l.IsChain S := by
  induction l with
  | nil => exact .nil
  | cons x l ih =>
    cases l with
    | nil => exact .singleton x
    | cons y l =>
      obtain ⟨hxy, hrest⟩ := isChain_cons_cons.mp h
      refine isChain_cons_cons.mpr ⟨hRS x (by simp) y (by simp) hxy, ih hrest fun u hu w hw => ?_⟩
      exact hRS u (mem_cons_of_mem x hu) w (mem_cons_of_mem y hw)

/-- The links of a circular list. -/
structure Dll (B : Type) where
  next : Option B → Option B
  prev : Option B → Option B

namespace Dll

/-- The list without elements. -/
def empty : Dll B := ⟨fun _ => none, fun _ => none⟩

/-- The node `y` follows the node `x`. -/
def Follows (d : Dll B) (x y : Option B) : Prop := d.next x = y ∧ d.prev y = x

/-- The links spell the list `l`. -/
def Spells (d : Dll B) (l : List B) : Prop :=
  ((none :: l.map some) ++ [none]).IsChain d.Follows

theorem spells_empty : Spells (empty : Dll B) [] := by
  simp [Spells, Follows, empty]

/-! ## Traversal -/

/-- Follow `step` from a node to the first element with `p`; `some none` if the head comes first. -/
def find (step : Option B → Option B) (p : B → Bool) : (fuel : Nat) → Option B → Option (Option B)
  | 0, _ => none
  | _ + 1, none => some none
  | fuel + 1, some b => if p b then some (some b) else find step p fuel (step (some b))

/-- Along the nodes from `x` to the head, `find` is `List.find?`. -/
theorem find_of_chain {step : Option B → Option B} {p : B → Bool} {x : Option B} {l : List B}
    (h : (x :: l.map some ++ [none]).IsChain fun a b => step a = b) :
    find step p (l.length + 1) (step x) = some (l.find? p) := by
  induction l generalizing x with
  | nil =>
    have hx : step x = none := by simpa using h
    rw [hx]
    rfl
  | cons b l ih =>
    obtain ⟨hx, hrest⟩ := isChain_cons_cons.mp h
    rw [hx, length_cons, find, List.find?_cons]
    cases p b with
    | true => rfl
    | false => exact ih hrest

/-- Forward traversal of the whole list. -/
theorem Spells.find_next {d : Dll B} {l : List B} (h : d.Spells l) (p : B → Bool) :
    find d.next p (l.length + 1) (d.next none) = some (l.find? p) :=
  find_of_chain (h.imp fun _ _ hab => hab.1)

/-- Backward traversal of the whole list. -/
theorem Spells.find_prev {d : Dll B} {l : List B} (h : d.Spells l) (p : B → Bool) :
    find d.prev p (l.length + 1) (d.prev none) = some (l.reverse.find? p) := by
  have hrev : (none :: l.reverse.map some ++ [none]).IsChain fun a b => d.prev a = b := by
    have := isChain_reverse.mpr (h.imp fun _ _ hab => hab.2)
    simpa using this
  simpa using find_of_chain (p := p) hrev

/-! ## Nodes -/

section

variable {l : List B}

/-- Nodes after the head, up to the head, are distinct. -/
theorem nodup_to_head (h : l.Nodup) : (l.map some ++ [none]).Nodup := by
  rw [nodup_append]
  refine ⟨h.map (Option.some_injective B), nodup_singleton _, fun x hx y hy => ?_⟩
  obtain ⟨c, -, rfl⟩ := mem_map.mp hx
  rw [mem_singleton.mp hy]
  exact Option.some_ne_none c

theorem nodup_from_head (h : l.Nodup) : (none :: l.map some).Nodup := by
  refine nodup_cons.mpr ⟨fun hx => ?_, h.map (Option.some_injective B)⟩
  obtain ⟨c, -, hc⟩ := mem_map.mp hx
  exact Option.some_ne_none c hc

end

/-! ## Assignments -/

variable [DecidableEq B]

/-- `x->next = y`. -/
def setNext (x y : Option B) (d : Dll B) : Dll B := { d with next := update d.next x y }

/-- `x->prev = y`. -/
def setPrev (x y : Option B) (d : Dll B) : Dll B := { d with prev := update d.prev x y }

/-- `b->next->prev = b->prev; b->prev->next = b->next;` -/
def unlink (b : B) (d : Dll B) : Dll B :=
  let d := d.setPrev (d.next (some b)) (d.prev (some b))
  d.setNext (d.prev (some b)) (d.next (some b))

/-- `b->next = head.next; b->prev = &head; head.next->prev = b; head.next = b;` -/
def pushFront (b : B) (d : Dll B) : Dll B :=
  let d := d.setNext (some b) (d.next none)
  let d := d.setPrev (some b) none
  let d := d.setPrev (d.next none) (some b)
  d.setNext none (some b)

section

variable {d : Dll B} {l l₁ l₂ : List B} {b : B}

/-- **Unlinking** takes the element out of the list. -/
theorem Spells.unlink (h : d.Spells (l₁ ++ b :: l₂)) (hnd : (l₁ ++ b :: l₂).Nodup) :
    (d.unlink b).Spells (l₁ ++ l₂) := by
  obtain ⟨hnd1, hnd2, hdis⟩ := nodup_append.mp hnd
  obtain ⟨hb2, hnd2⟩ := nodup_cons.mp hnd2
  have hb1 : b ∉ l₁ := fun hb => hdis b hb b (by simp) rfl
  -- the nodes before and after `b`, with its neighbours `p` and `q`
  obtain ⟨A, p, hA⟩ : ∃ A p, none :: l₁.map some = A ++ [p] :=
    ⟨_, _, (dropLast_append_getLast (cons_ne_nil _ _)).symm⟩
  obtain ⟨q, C, hC⟩ : ∃ q C, l₂.map some ++ [none] = q :: C :=
    exists_cons_of_ne_nil (by simp)
  have hndA : (A ++ [p]).Nodup := hA ▸ nodup_from_head hnd1
  have hndC : (q :: C).Nodup := hC ▸ nodup_to_head hnd2
  have hp : p ∈ none :: l₁.map some := by
    rw [hA]
    simp
  have hq : q ∈ l₂.map some ++ [none] := by
    rw [hC]
    simp
  have hshape : (none :: (l₁ ++ b :: l₂).map some) ++ [none] = (A ++ [p]) ++ some b :: q :: C := by
    rw [← hA, ← hC]
    simp
  rw [Spells, hshape] at h
  obtain ⟨hbefore, hrest, hpb⟩ := isChain_append.mp h
  obtain ⟨hbq, hafter⟩ := isChain_cons_cons.mp hrest
  obtain ⟨hnp, hpp⟩ : d.Follows p (some b) := hpb p (by simp) (some b) (by simp)
  obtain ⟨hnb, hpq⟩ := hbq
  have hqb : some b ≠ q := fun he => by
    rw [← he] at hq
    simp [hb2] at hq
  have hnext : (d.unlink b).next = update d.next p q := by
    simp only [Dll.unlink, setNext, setPrev, hnb, hpp, update_of_ne hqb]
  have hprev : (d.unlink b).prev = update d.prev q p := by
    simp only [Dll.unlink, setNext, setPrev, hnb, hpp]
  have hout : (none :: (l₁ ++ l₂).map some) ++ [none] = (A ++ [p]) ++ q :: C := by
    rw [← hA, ← hC]
    simp
  rw [Spells, hout]
  refine isChain_append.mpr ⟨?_, ?_, fun x hx y hy => ?_⟩
  · refine isChain_imp_of_mem hbefore fun x hx y hy hxy => ?_
    have hxp : x ≠ p := by
      rw [dropLast_concat] at hx
      exact fun he => (nodup_append.mp hndA).2.2 x hx p (by simp) he
    have hyq : y ≠ q := fun he => by
      rw [← hA, tail_cons] at hy
      obtain ⟨c, hc, rfl⟩ := mem_map.mp hy
      rw [← he] at hq
      simp only [mem_append, mem_map, Option.some_inj, exists_eq_right,
        mem_singleton, reduceCtorEq, or_false] at hq
      exact hdis c hc c (mem_cons_of_mem b hq) rfl
    rw [Follows, hnext, hprev, update_of_ne hxp, update_of_ne hyq]
    exact hxy
  · refine isChain_imp_of_mem hafter fun x hx y hy hxy => ?_
    have hxp : x ≠ p := fun he => by
      rw [← hC, dropLast_concat] at hx
      obtain ⟨c, hc, rfl⟩ := mem_map.mp hx
      rw [← he] at hp
      simp only [mem_cons, reduceCtorEq, mem_map, Option.some_inj, exists_eq_right,
        false_or] at hp
      exact hdis c hp c (mem_cons_of_mem b hc) rfl
    have hyq : y ≠ q := fun he => (nodup_cons.mp hndC).1 (he ▸ hy)
    rw [Follows, hnext, hprev, update_of_ne hxp, update_of_ne hyq]
    exact hxy
  · obtain rfl : p = x := by simpa using hx
    obtain rfl : q = y := by simpa using hy
    rw [Follows, hnext, hprev, update_self, update_self]
    exact ⟨rfl, rfl⟩

/-- **Linking behind the head** puts a new element in front. -/
theorem Spells.pushFront (h : d.Spells l) (hnd : l.Nodup) (hb : b ∉ l) :
    (d.pushFront b).Spells (b :: l) := by
  obtain ⟨q, C, hC⟩ : ∃ q C, l.map some ++ [none] = q :: C := exists_cons_of_ne_nil (by simp)
  have hndC : (q :: C).Nodup := hC ▸ nodup_to_head hnd
  have hq : q ∈ l.map some ++ [none] := by
    rw [hC]
    simp
  have hqb : some b ≠ q := fun he => by
    rw [← he] at hq
    simp [hb] at hq
  rw [Spells, cons_append, hC] at h
  obtain ⟨⟨hn, hpq⟩, hrest⟩ := isChain_cons_cons.mp h
  have hnb : (none : Option B) ≠ some b := nofun
  have hnext : (d.pushFront b).next =
      update (update d.next (some b) q) none (some b) := by
    simp only [Dll.pushFront, setNext, setPrev, hn]
  have hprev : (d.pushFront b).prev =
      update (update d.prev (some b) none) q (some b) := by
    simp only [Dll.pushFront, setNext, setPrev, hn, update_of_ne hnb]
  rw [Spells, map_cons, cons_append, cons_append, hC]
  refine isChain_cons_cons.mpr ⟨⟨?_, ?_⟩, isChain_cons_cons.mpr ⟨⟨?_, ?_⟩, ?_⟩⟩
  · rw [hnext, update_self]
  · rw [hprev, update_of_ne hqb, update_self]
  · rw [hnext, update_of_ne hnb.symm, update_self]
  · rw [hprev, update_self]
  · refine isChain_imp_of_mem hrest fun x hx y hy hxy => ?_
    obtain ⟨c, hc, rfl⟩ : ∃ c ∈ l, some c = x := by
      rw [← hC, dropLast_concat] at hx
      exact mem_map.mp hx
    have hcb : some c ≠ some b := fun he => hb (Option.some_inj.mp he ▸ hc)
    have hyq : y ≠ q := fun he => (nodup_cons.mp hndC).1 (he ▸ hy)
    have hyb : y ≠ some b := fun he => by
      have hmem : some b ∈ l.map some ++ [none] := by
        rw [hC, ← he]
        exact mem_cons_of_mem q hy
      simp [hb] at hmem
    rw [Follows, hnext, hprev, update_of_ne (Option.some_ne_none c),
      update_of_ne hcb, update_of_ne hyq, update_of_ne hyb]
    exact hxy

/-- Elements that are linked behind the head one after the other. -/
theorem Spells.pushAll {bs : List B} (h : d.Spells l) (hnd : (bs.reverse ++ l).Nodup) :
    (bs.foldl (fun d b => d.pushFront b) d).Spells (bs.reverse ++ l) := by
  induction bs generalizing d l with
  | nil => exact h
  | cons b bs ih =>
    have hshape : (b :: bs).reverse ++ l = bs.reverse ++ b :: l := by simp
    rw [hshape] at hnd ⊢
    obtain ⟨hb, hl⟩ := nodup_cons.mp (nodup_append.mp hnd).2.1
    exact ih (h.pushFront hl hb) hnd

end

end Dll

end Xv6.Lib
