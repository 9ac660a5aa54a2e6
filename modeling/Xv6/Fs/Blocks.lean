/-
# Xv6.Fs.Blocks — allocating, writing and freeing the blocks of an inode, on views.

`bmap` puts a free block into one of three kinds of slots; `writei` writes to a block that a slot
owns; `itrunc` takes every block of an inode out of its slot.  Each lemma here says that one such update
keeps `Good`, and what it does to the contents of the inodes.
-/
import Xv6.Fs.View

namespace Xv6.Fs

open Lib View

variable {n : Dinode}

variable {sb : Superblock} {v v' : View} {i j b : Nat} {a : BitVec 32}

/-! ## Allocation -/

namespace View

theorem slot_setNode_ne (h : j ≠ i) (k : Nat) : (v.setNode i n).slot j k = v.slot j k := by
  rw [slot, slot, dinode_setNode_ne h]
  rfl

theorem ino_setNode_ne (h : j ≠ i) : (v.setNode i n).ino j = v.ino j := by
  have hc : (v.setNode i n).content j = v.content j := by
    refine content_congr (by rw [size, size, dinode_setNode_ne h]) fun x _ => ?_
    rw [byte, byte, slot_setNode_ne h]
    rfl
  rw [ino, ino, dinode_setNode_ne h, hc]

end View

/-- A free block is no block of an inode, so zeroing it changes no slot. -/
theorem Good.slot_alloc (g : Good sb v) (ha : v.Allocated sb j) (hfree : v.used b = false) (k : Nat) :
    (v.alloc b).slot j k = v.slot j k := by
  refine View.slot_congr (by rfl) (fun hs => ?_) k
  exact data_alloc_ne (g.slot_ne_free ha (by decide) hs hfree)

theorem Good.data_alloc (g : Good sb v) (ha : v.Allocated sb j) (hfree : v.used b = false)
    (hk : k < NSLOT) (hs : v.slot j k ≠ 0) :
    (v.alloc b).data (v.slot j k).toNat = v.data (v.slot j k).toNat :=
  data_alloc_ne (g.slot_ne_free ha hk hs hfree)

/-- From `v` to `v'` slot `k` of inode `i` got block `a`, and nothing else has changed. -/
structure Placed (sb : Superblock) (i k : Nat) (a : BitVec 32) (v v' : View) : Prop where
  grown : Grown sb i v v'
  good : Good sb v'
  slot : v'.slot i k = a
  rest : ∀ s < NSLOT, s ≠ k → v'.slot i s = v.slot i s

section

variable (g : Good sb v) (ha : v.Allocated sb i)

include g ha

/-- A free block becomes block `a` of `addrs`, in a slot that had none. -/
theorem Good.placed (k : Fin (NDIRECT + 1))
    (h0 : v.slot i k = 0) (hb : a.toNat < sb.size) (hfree : v.used a.toNat = false)
    (hself : ((v.alloc a.toNat).setAddr i k a).slot i k = a)
    (hother : ∀ s, s ≠ k.val → ((v.alloc a.toNat).setAddr i k a).slot i s = v.slot i s) :
    Placed sb i k a v ((v.alloc a.toNat).setAddr i k a) := by
  have hklt : k.val < NSLOT := by
    have := NDIRECT_eq
    have := NSLOT_eq
    omega
  have grown : Grown sb i v ((v.alloc a.toNat).setAddr i k a) :=
    { node := fun j hj => dinode_setNode_ne hj
      fields := ⟨_, dinode_setNode_self ..⟩
      slots := fun j hj hal s => (slot_setNode_ne hj s).trans (g.slot_alloc hal hfree s)
      slot := fun s _ hs => hother s fun h => hs (h ▸ h0)
      data := fun j hal s hs _ hne => g.data_alloc hal hfree hs hne }
  exact ⟨grown, grown.good g ha hklt h0 (g.data_of_free hb hfree) hfree rfl (by rw [hself])
    fun s _ => hother s, hself, fun s _ => hother s⟩

/-- A free block becomes a direct block. -/
theorem Good.allocDirect
    (hk : k ≠ Fin.last NDIRECT) (h0 : v.slot i k = 0) (hb : a.toNat < sb.size)
    (hfree : v.used a.toNat = false) : Placed sb i k a v ((v.alloc a.toNat).setAddr i k a) := by
  refine g.placed ha k h0 hb hfree ?_ fun s hs => ?_
  · rw [slot_setAddr hk, if_pos rfl]
  · rw [slot_setAddr hk, if_neg hs, g.slot_alloc ha hfree]

/-- A free block becomes the indirect block; it is zero, so it has no entries yet. -/
theorem Good.allocIndirect (h0 : v.slot i NDIRECT = 0)
    (hb : a.toNat < sb.size) (hfree : v.used a.toNat = false) :
    Placed sb i NDIRECT a v ((v.alloc a.toNat).setAddr i (Fin.last NDIRECT) a) := by
  have hnz := g.layout.ne_zero (g.data_of_free hb hfree)
  refine g.placed ha (Fin.last NDIRECT) h0 hb hfree ?_ fun s hs => ?_
  · rw [Fin.val_last, slot_setIndirect _ hnz, if_neg (Nat.lt_irrefl _), if_pos rfl]
  · rw [Fin.val_last] at hs
    rw [slot_setIndirect _ hnz, if_neg hs]
    by_cases hlt : s < NDIRECT
    · rw [if_pos hlt, g.slot_alloc ha hfree]
    · rw [if_neg hlt, data_alloc_self, entry_zeroBlock, slot_of_indirect h0 (by omega)]

/-- A free block becomes an entry of the indirect block. -/
theorem Good.allocEntry (hind : v.slot i NDIRECT ≠ 0)
    (he : e < NINDIRECT) (h0 : v.slot i (NDIRECT + 1 + e) = 0) (hb : a.toNat < sb.size)
    (hfree : v.used a.toNat = false) :
    Placed sb i (NDIRECT + 1 + e) a v
      ((v.alloc a.toNat).write (v.slot i NDIRECT).toNat (setEntry e a)) := by
  set c := v.slot i NDIRECT with hc
  set w := (v.alloc a.toNat).write c.toNat (setEntry e a) with hw
  have hcdata : w.data c.toNat = setEntry e a (v.data c.toNat) := by
    rw [hw, data_write_self, hc, g.data_alloc ha hfree (by decide) hind]
  have hi : (v.dinode i).indirect = c := by rw [hc, slot, Dinode.slot_NDIRECT]
  have hread : ∀ s, ¬s < NDIRECT + 1 →
      w.slot i s = entry (setEntry e a (v.data c.toNat)) (s - (NDIRECT + 1)) := fun s hs => by
    have hwi : (w.dinode i).indirect = c := hi
    rw [slot, Dinode.slot, dif_neg hs, hwi, if_neg hind, hcdata]
  have hself : w.slot i (NDIRECT + 1 + e) = a := by
    rw [hread _ (by omega), Nat.add_sub_cancel_left, entry_setEntry _ _ _ he, if_pos rfl]
  have hother : ∀ s < NSLOT, s ≠ NDIRECT + 1 + e → w.slot i s = v.slot i s := fun s hs hse => by
    by_cases hlt : s < NDIRECT + 1
    · rw [slot, slot, Dinode.slot, Dinode.slot, dif_pos hlt, dif_pos hlt]
      rfl
    · have hin : s - (NDIRECT + 1) < NINDIRECT := by
        rw [NSLOT] at hs
        omega
      rw [hread s hlt, entry_setEntry _ _ _ hin, if_neg (by omega), slot, Dinode.slot,
        dif_neg hlt, hi, if_neg hind]
  -- the indirect block is not a block of the contents, nor of another inode
  have hne : ∀ j, v.Allocated sb j → ∀ s < NSLOT, v.slot j s ≠ 0 → (j, s) ≠ (i, NDIRECT) →
      w.data (v.slot j s).toNat = v.data (v.slot j s).toNat := fun j hal s hs hnz hjs => by
    have hcs : (v.slot j s).toNat ≠ c.toNat := fun h =>
      hjs (Prod.ext_iff.mpr (g.slot_inj hal hs hnz ha (show NDIRECT < NSLOT by decide) hind h))
    rw [hw, data_write_ne hcs, g.data_alloc hal hfree hs hnz]
  have grown : Grown sb i v w :=
    { node := fun j _ => rfl
      fields := ⟨_, rfl⟩
      slots := fun j hj hal s => View.slot_congr (by rfl)
        (fun hnz => hne j hal NDIRECT (by decide) hnz fun h => hj (congrArg Prod.fst h)) s
      slot := fun s hlt hs => hother s hlt fun h => hs (h ▸ h0)
      data := fun j hal s hs hsn hnz => hne j hal s hs hnz fun h => hsn (congrArg Prod.snd h) }
  refine ⟨grown, grown.good g ha ?_ h0 (g.data_of_free hb hfree) hfree rfl (by rw [hself]) hother,
    hself, hother⟩
  rw [NSLOT]
  omega

end

/-! ## Writing -/

section Write

variable {k : Nat} (g : Good sb v) (ha : v.Allocated sb i) (hk : k < NSLOT) (hs : v.slot i k ≠ 0)

include g ha hk hs

/-- The block of one slot is written: every other slot owns another block. -/
theorem Good.data_write (hj : v.Allocated sb j) (hlt : s < NSLOT) (hnz : v.slot j s ≠ 0)
    (hne : (j, s) ≠ (i, k)) (f : Block → Block) :
    (v.write (v.slot i k).toNat f).data (v.slot j s).toNat = v.data (v.slot j s).toNat :=
  data_write_ne fun h => hne (Prod.ext_iff.mpr (g.slot_inj hj hlt hnz ha hk hs h))

/-- Writing to a block of the contents changes no slot. -/
theorem Good.slot_write (hkn : k ≠ NDIRECT) (hj : v.Allocated sb j) (f : Block → Block) (s : Nat) :
    (v.write (v.slot i k).toNat f).slot j s = v.slot j s :=
  View.slot_congr (by rfl) (fun hnz => g.data_write ha hk hs hj (by decide) hnz
    (fun h => hkn (congrArg Prod.snd h).symm) f) s

theorem Good.write (hkn : k ≠ NDIRECT) (f : Block → Block) :
    Good sb (v.write (v.slot i k).toNat f) where
  layout := g.layout
  owns := g.owns.congr (fun _ _ => Iff.rfl) fun s =>
    own_congr Iff.rfl fun hal _ => g.slot_write ha hk hs hkn hal f s.2
  reserved := g.reserved
  full j hj bn hbn := by
    rw [g.slot_write ha hk hs hkn hj]
    exact g.full j hj bn hbn
  size := g.size

/-- The contents of other inodes do not change. -/
theorem Good.ino_write (hkn : k ≠ NDIRECT) (hj : j < sb.ninodes) (hji : j ≠ i) (f : Block → Block) :
    (v.write (v.slot i k).toNat f).ino j = v.ino j :=
  g.ino_congr hj rfl (fun hal => g.slot_write ha hk hs hkn hal f) fun hal _ hlt _ hnz =>
    g.data_write ha hk hs hal hlt hnz (fun h => hji (congrArg Prod.fst h)) f

end Write

/-- A byte of the inode that is written to. -/
theorem Good.byte_write (g : Good sb v) (ha : v.Allocated sb i) (hbn : bn < MAXFILE)
    (hs : v.slot i (slotOf bn) ≠ 0) (hx : v.Has i x) (f : Block → Block) :
    (v.write (v.slot i (slotOf bn)).toNat f).Has i x ∧
      (v.write (v.slot i (slotOf bn)).toNat f).byte i x =
        if x / BSIZE = bn then (f (v.data (v.slot i (slotOf bn)).toNat)).bytes (x % BSIZE)
        else v.byte i x := by
  rw [View.Has, byte, g.slot_write ha (slotOf_lt hbn) hs (slotOf_ne _) ha]
  refine ⟨hx, ?_⟩
  by_cases h : x / BSIZE = bn
  · rw [if_pos h, h, data_write_self]
  · rw [if_neg h, byte, g.data_write ha (slotOf_lt hbn) hs ha (slotOf_lt hx.1) hx.2]
    exact fun he => h (slotOf_inj (congrArg Prod.snd he))

/-! ## Writing dinodes -/

theorem Dinode.slot_zero (h : n.addrs = fun _ => 0) (data : Nat → Block) (k : Nat) :
    n.slot data k = 0 := by
  rw [slot]
  split
  · rw [h]
  · rw [if_pos (by rw [indirect, h])]

/-- The contents of an inode that keeps its blocks. -/
theorem View.content_setNode (haddrs : n.addrs = (v.dinode i).addrs) :
    (v.setNode i n).content i = (List.range n.size.toNat).map (v.byte i) := by
  rw [content, size, dinode_setNode_self]
  refine List.map_congr_left fun x _ => ?_
  have hslot : (v.setNode i n).slot i (slotOf (x / BSIZE)) = v.slot i (slotOf (x / BSIZE)) := by
    rw [slot, dinode_setNode_self, slot]
    exact Dinode.slot_congr haddrs (fun _ => rfl) _
  rw [byte, byte, hslot]
  rfl

/-- Fields of a dinode other than its block numbers are written. -/
theorem Good.setNode (g : Good sb v) (ha : v.Allocated sb i) (haddrs : n.addrs = (v.dinode i).addrs)
    (ht : n.type ≠ 0) (hsize : n.size.toNat ≤ MAXFILE * BSIZE)
    (hfull : ∀ bn, bn * BSIZE < n.size.toNat → v.slot i (slotOf bn) ≠ 0) :
    Good sb (v.setNode i n) := by
  have hnode : ∀ j, j ≠ i → (v.setNode i n).dinode j = v.dinode j := fun j hj =>
    dinode_setNode_ne hj
  have hall : ∀ j, (v.setNode i n).Allocated sb j ↔ v.Allocated sb j := fun j => by
    by_cases hj : j = i
    · subst hj
      rw [View.Allocated, dinode_setNode_self]
      exact ⟨fun _ => ha, fun _ => ⟨ha.1, ht⟩⟩
    · rw [View.Allocated, hnode j hj, View.Allocated]
  have hslot : ∀ j k, (v.setNode i n).slot j k = v.slot j k := fun j k => by
    by_cases hj : j = i
    · subst hj
      rw [slot, dinode_setNode_self, slot]
      exact Dinode.slot_congr haddrs (fun _ => rfl) k
    · exact slot_setNode_ne hj k
  refine ⟨g.layout, g.owns.congr (fun _ _ => Iff.rfl) fun s =>
    own_congr (hall _) fun _ _ => hslot s.1 s.2, g.reserved, fun j hj bn hbn => ?_, fun j hj => ?_⟩
  · rw [hslot]
    by_cases hji : j = i
    · subst hji
      rw [View.size, View.dinode_setNode_self] at hbn
      exact hfull bn hbn
    · rw [View.size, hnode j hji] at hbn
      exact g.full j ((hall j).mp hj) bn hbn
  · by_cases hji : j = i
    · subst hji
      rw [View.size, View.dinode_setNode_self]
      exact hsize
    · rw [View.size, hnode j hji]
      exact g.size j ((hall j).mp hj)

/-- An inode that owns nothing gets an empty dinode. -/
theorem Good.setEmpty (g : Good sb v) (hnone : ∀ k, v.own sb (i, k) = none)
    (haddrs : n.addrs = fun _ => 0) (hsize : n.size = 0) : Good sb (v.setNode i n) := by
  have hnode : ∀ j, j ≠ i → (v.setNode i n).dinode j = v.dinode j := fun j hj =>
    dinode_setNode_ne hj
  have hall : ∀ j, j ≠ i → ((v.setNode i n).Allocated sb j ↔ v.Allocated sb j) := fun j hj => by
    rw [View.Allocated, hnode j hj, View.Allocated]
  have hself : (v.setNode i n).size i = 0 := by
    rw [View.size, View.dinode_setNode_self, hsize]
    rfl
  refine ⟨g.layout, g.owns.congr (fun _ _ => Iff.rfl) fun s => ?_, g.reserved, fun j hj bn hbn => ?_,
    fun j hj => ?_⟩
  · obtain ⟨j, k⟩ := s
    by_cases hj : j = i
    · subst hj
      rw [hnone]
      refine own_eq_none ?_
      rw [slot, dinode_setNode_self]
      exact Dinode.slot_zero haddrs _ k
    · exact own_congr (hall j hj) fun _ _ => slot_setNode_ne hj k
  · by_cases hji : j = i
    · subst hji
      rw [hself] at hbn
      omega
    · rw [slot_setNode_ne hji]
      rw [View.size, hnode j hji] at hbn
      exact g.full j ((hall j hji).mp hj) bn hbn
  · by_cases hji : j = i
    · subst hji
      rw [hself]
      exact Nat.zero_le _
    · rw [View.size, hnode j hji]
      exact g.size j ((hall j hji).mp hj)

end Xv6.Fs
