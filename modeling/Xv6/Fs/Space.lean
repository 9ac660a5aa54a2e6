/-
# Xv6.Fs.Space — how many blocks are free, and how many a write takes.

Blocks are owned by slots, so the free blocks are counted by the slots that hold none.  When slots of
one inode are filled, the number of free blocks and the number of slots that still lack a block go down
together; a write that finds no free block lacked more blocks than there were.
-/
import Xv6.Fs.Blocks
import Mathlib.Data.Finset.Prod
import Mathlib.Order.Interval.Finset.Nat

namespace Xv6.Fs

open Lib Finset View

variable {sb : Superblock} {v v' v'' : View} {i j bn off n : Nat} {K K' : Finset Nat}

/-! ## Counting -/

/-- The number of free blocks. -/
def View.free (sb : Superblock) (v : View) : Nat :=
  ((Finset.range sb.size).filter fun b => v.used b = false).card

/-- The number of slots of inode `i`, of those in `K`, that lack a block. -/
def View.lacks (v : View) (i : Nat) (K : Finset Nat) : Nat := (K.filter fun k => v.slot i k = 0).card

/-- The slots of all inodes that hold a block. -/
def View.holds (sb : Superblock) (v : View) : Finset (Nat × Nat) :=
  (Finset.range sb.ninodes ×ˢ Finset.range NSLOT).filter fun s => (v.own sb s).isSome

theorem View.mem_holds :
    (j, k) ∈ v.holds sb ↔ v.Allocated sb j ∧ k < NSLOT ∧ v.slot j k ≠ 0 := by
  rw [holds, mem_filter, Option.isSome_iff_exists]
  constructor
  · rintro ⟨-, b, hb⟩
    obtain ⟨ha, hk, hs, -⟩ := own_eq_some.mp hb
    exact ⟨ha, hk, hs⟩
  · rintro ⟨ha, hk, hs⟩
    refine ⟨?_, _, own_of_slot ha hk hs⟩
    exact mem_product.mpr ⟨mem_range.mpr ha.1, mem_range.mpr hk⟩

/-- A block is free or held by a slot. -/
theorem Good.free_add_holds (g : Good sb v) :
    v.free sb + (v.holds sb).card = ((range sb.size).filter sb.Data).card := by
  have hused := g.owns.card_used (P := (range sb.size).filter sb.Data)
    (T := range sb.ninodes ×ˢ range NSLOT) (fun b => by
      rw [mem_filter, mem_range]
      exact ⟨fun h => h.2, fun h => ⟨h.2, h⟩⟩) fun s b hs => by
      obtain ⟨j, k⟩ := s
      obtain ⟨ha, hk, -⟩ := own_eq_some.mp hs
      exact mem_product.mpr ⟨mem_range.mpr ha.1, mem_range.mpr hk⟩
  have hfree : (range sb.size).filter (fun b => v.used b = false) =
      ((range sb.size).filter sb.Data).filter fun b => ¬v.used b = true := by
    ext b
    simp only [mem_filter, mem_range, Bool.not_eq_true]
    constructor
    · rintro ⟨hb, hf⟩
      exact ⟨⟨hb, g.data_of_free hb hf⟩, hf⟩
    · rintro ⟨⟨hb, -⟩, hf⟩
      exact ⟨hb, hf⟩
  rw [free, holds, hfree, ← hused, add_comm]
  exact card_filter_add_card_filter_not _

/-! ## Filling slots -/

/-- From `v` to `v'` slots of inode `i` in `K` may have got blocks, and no other slot has changed. -/
structure Filled (sb : Superblock) (i : Nat) (K : Finset Nat) (v v' : View) : Prop where
  type : ∀ j < sb.ninodes, (v'.dinode j).type = (v.dinode j).type
  others : ∀ j, j ≠ i → v.Allocated sb j → ∀ k, v'.slot j k = v.slot j k
  keep : ∀ k < NSLOT, v.slot i k ≠ 0 → v'.slot i k = v.slot i k
  rest : ∀ k < NSLOT, k ∉ K → v'.slot i k = v.slot i k

namespace Filled

theorem refl (sb : Superblock) (i : Nat) (K : Finset Nat) (v : View) : Filled sb i K v v :=
  ⟨fun _ _ => rfl, fun _ _ _ _ => rfl, fun _ _ _ => rfl, fun _ _ _ => rfl⟩

section

variable (h : Filled sb i K v v')

include h

theorem allocated : v'.Allocated sb j ↔ v.Allocated sb j :=
  and_congr_right fun hj => by rw [h.type j hj]

theorem trans (h' : Filled sb i K v' v'') : Filled sb i K v v'' where
  type j hj := (h'.type j hj).trans (h.type j hj)
  others j hj ha k := (h'.others j hj (h.allocated.mpr ha) k).trans (h.others j hj ha k)
  keep k hk hs := by
    have hs' := h.keep k hk hs
    rw [← hs'] at hs
    exact (h'.keep k hk hs).trans hs'
  rest k hk hK := (h'.rest k hk hK).trans (h.rest k hk hK)

theorem mono (hK : K ⊆ K') : Filled sb i K' v v' :=
  ⟨h.type, h.others, h.keep, fun k hk hn => h.rest k hk fun hin => hn (hK hin)⟩

/-- Writing to a block of the contents changes no slot. -/
theorem write (g : Good sb v') (ha : v.Allocated sb i)
    (hs : s < NSLOT) (hnz : v'.slot i s ≠ 0) (hne : s ≠ NDIRECT) (f : Block → Block) :
    Filled sb i K v (v'.write (v'.slot i s).toNat f) := by
  have hslot : ∀ {j}, v.Allocated sb j → ∀ k,
      (v'.write (v'.slot i s).toNat f).slot j k = v'.slot j k := fun hal k =>
    g.slot_write (h.allocated.mpr ha) hs hnz hne (h.allocated.mpr hal) f k
  exact ⟨h.type, fun j hj hal k => (hslot hal k).trans (h.others j hj hal k),
    fun k hk hs' => (hslot ha k).trans (h.keep k hk hs'),
    fun k hk hK => (hslot ha k).trans (h.rest k hk hK)⟩

/-- Fields of the inode other than its block numbers do not matter. -/
theorem setNode {n : Dinode} (haddrs : n.addrs = (v'.dinode i).addrs)
    (ht : n.type = (v'.dinode i).type) : Filled sb i K v (v'.setNode i n) := by
  have hslot : ∀ k, (v'.setNode i n).slot i k = v'.slot i k := fun k => by
    rw [slot, dinode_setNode_self, slot]
    exact Dinode.slot_congr haddrs (fun _ => rfl) k
  refine ⟨fun j hlt => ?_, fun j hj hal k => (slot_setNode_ne hj k).trans (h.others j hj hal k),
    fun k hk hs => (hslot k).trans (h.keep k hk hs), fun k hk hK => (hslot k).trans (h.rest k hk hK)⟩
  by_cases hj : j = i
  · rw [hj, dinode_setNode_self, ht, h.type i (hj ▸ hlt)]
  · rw [dinode_setNode_ne hj, h.type j hlt]

end

variable (h : Filled sb i K v v') (hK : K ⊆ Finset.range NSLOT)

include h

theorem slot_eq_zero (hk : k < NSLOT) (h0 : v'.slot i k = 0) : v.slot i k = 0 := by
  by_contra hne
  rw [h.keep k hk hne] at h0
  exact hne h0

include hK

/-- The slots that are held now are those that were held, and the ones that were filled. -/
theorem holds_eq (ha : v.Allocated sb i) : v'.holds sb =
    v.holds sb ∪ (K.filter fun k => v.slot i k = 0 ∧ v'.slot i k ≠ 0).image fun k => (i, k) := by
  ext ⟨j, k⟩
  rw [mem_union, mem_holds, mem_holds, mem_image, h.allocated]
  by_cases hj : j = i
  · subst hj
    constructor
    · rintro ⟨-, hk, hs⟩
      by_cases h0 : v.slot j k = 0
      · refine .inr ⟨k, mem_filter.mpr ⟨?_, h0, hs⟩, rfl⟩
        by_contra hn
        rw [h.rest k hk hn] at hs
        exact hs h0
      · exact .inl ⟨ha, hk, h0⟩
    · rintro (⟨-, hk, hs⟩ | ⟨k', hk', he⟩)
      · exact ⟨ha, hk, by rwa [h.keep k hk hs]⟩
      · obtain rfl : k' = k := (Prod.mk.inj he).2
        obtain ⟨hin, -, hs⟩ := mem_filter.mp hk'
        exact ⟨ha, mem_range.mp (hK hin), hs⟩
  · constructor
    · rintro ⟨hal, hk, hs⟩
      rw [h.others j hj hal] at hs
      exact .inl ⟨hal, hk, hs⟩
    · rintro (⟨hal, hk, hs⟩ | ⟨k', -, he⟩)
      · refine ⟨hal, hk, ?_⟩
        rwa [h.others j hj hal]
      · exact absurd (Prod.mk.inj he).1.symm hj

/-- **Free blocks and slots that lack one go down together.** -/
theorem free_add_lacks (g : Good sb v) (g' : Good sb v') (ha : v.Allocated sb i) :
    v'.free sb + v.lacks i K = v.free sb + v'.lacks i K := by
  have hcard : (v'.holds sb).card = (v.holds sb).card +
      (K.filter fun k => v.slot i k = 0 ∧ v'.slot i k ≠ 0).card := by
    rw [h.holds_eq hK ha, card_union_of_disjoint, card_image_of_injective]
    · intro k k' he
      exact (Prod.mk.inj he).2
    · rw [disjoint_right]
      rintro ⟨j, k⟩ hin hold
      obtain ⟨k', hk', he⟩ := mem_image.mp hin
      obtain ⟨rfl, rfl⟩ := Prod.mk.inj he
      exact (mem_holds.mp hold).2.2 (mem_filter.mp hk').2.1
  have hlacks : v.lacks i K = v'.lacks i K +
      (K.filter fun k => v.slot i k = 0 ∧ v'.slot i k ≠ 0).card := by
    have hsplit := card_filter_add_card_filter_not (s := K.filter fun k => v.slot i k = 0)
      fun k => v'.slot i k = 0
    rw [filter_filter, filter_filter] at hsplit
    have hstill : (K.filter fun k => v.slot i k = 0 ∧ v'.slot i k = 0) =
        K.filter fun k => v'.slot i k = 0 := by
      refine filter_congr fun k hk => and_iff_right_of_imp fun h0 => ?_
      exact h.slot_eq_zero (mem_range.mp (hK hk)) h0
    rw [hstill] at hsplit
    exact hsplit.symm
  have h1 := g.free_add_holds
  have h2 := g'.free_add_holds
  omega

end Filled

theorem Grown.filled (gr : Grown sb i v v') (hrest : ∀ k < NSLOT, k ∉ K → v'.slot i k = v.slot i k) :
    Filled sb i K v v' :=
  ⟨fun j _ => gr.type_eq j, gr.slots, gr.slot, hrest⟩

/-! ## The slots of a range -/

/-- The slots that `bmap` fills for the block with index `bn`. -/
def slotsFor (bn : Nat) : Finset Nat := if bn < NDIRECT then {bn} else {NDIRECT, bn + 1}

theorem slotOf_mem (bn : Nat) : slotOf bn ∈ slotsFor bn := by
  rw [slotOf, slotsFor]
  split <;> simp

theorem slotsFor_subset (h : bn < MAXFILE) : slotsFor bn ⊆ range NSLOT := by
  intro k hk
  rw [MAXFILE_eq] at h
  rw [mem_range, NSLOT_eq]
  rw [slotsFor, NDIRECT_eq] at hk
  split at hk <;> simp at hk <;> omega

/-- The slots for the `n` bytes from `off` on. -/
def spanSlots (off n : Nat) : Finset Nat :=
  (Finset.Ico off (off + n)).biUnion fun x => slotsFor (x / BSIZE)

theorem mem_spanSlots :
    k ∈ spanSlots off n ↔ ∃ x, (off ≤ x ∧ x < off + n) ∧ k ∈ slotsFor (x / BSIZE) := by
  simp [spanSlots]

theorem slotsFor_subset_span (h₁ : off ≤ x) (h₂ : x < off + n) :
    slotsFor (x / BSIZE) ⊆ spanSlots off n :=
  fun _ hk => mem_spanSlots.mpr ⟨x, ⟨h₁, h₂⟩, hk⟩

theorem spanSlots_subset_span (h₁ : off' ≤ off) (h₂ : off + n ≤ off' + n') :
    spanSlots off n ⊆ spanSlots off' n' := by
  intro k hk
  obtain ⟨x, hx, hk⟩ := mem_spanSlots.mp hk
  exact mem_spanSlots.mpr ⟨x, ⟨by omega, by omega⟩, hk⟩

theorem spanSlots_subset (h : off + n ≤ MAXFILE * BSIZE) : spanSlots off n ⊆ range NSLOT := by
  intro k hk
  obtain ⟨x, hx, hk⟩ := mem_spanSlots.mp hk
  refine slotsFor_subset ?_ hk
  rw [BSIZE_eq] at h ⊢
  omega

/-- The bytes below the size lack no block. -/
theorem Good.lacks_eq_zero (g : Good sb v) (ha : v.Allocated sb i) (h : off + n ≤ v.size i) :
    v.lacks i (spanSlots off n) = 0 := by
  rw [lacks, card_eq_zero, filter_eq_empty_iff]
  intro s hs h0
  obtain ⟨x, hx, hs⟩ := mem_spanSlots.mp hs
  have hfull := (g.has ha (show x < v.size i by omega)).2
  rw [slotsFor] at hs
  split at hs
  · next hlt =>
    rw [slotOf, if_pos hlt] at hfull
    rw [mem_singleton.mp hs] at h0
    exact hfull h0
  · next hge =>
    rw [slotOf, if_neg hge] at hfull
    rcases mem_insert.mp hs with rfl | hs
    · exact hfull (slot_of_indirect h0 (by omega))
    · rw [mem_singleton.mp hs] at h0
      exact hfull h0

end Xv6.Fs
