/-
# Xv6.Fs.View — which blocks an inode owns, and what it contains.

A `View` is a disk with the bytes taken away: the free map as a function to bits, the inode blocks as
a function to dinodes, and the data blocks.  The block numbers of an inode are in slots: its direct
blocks, its indirect block, and the entries of that.  `Good` says that the slots of the allocated
inodes own the used data blocks, each once, and that no inode has a hole below its size.  The contents
of an inode are a list of bytes (`View.ino`).

What the functions of `fs.c` do to a view is a few updates: a block is allocated into a slot, freed
from a slot, or written, and fields of a dinode change.  This module has one lemma for each; it knows
nothing about buffers or the inode table.
-/
import Xv6.Fs.Layout
import Xv6.Lib.Owns

namespace Xv6.Fs

open Lib Function

variable {n : Dinode} {c x : Nat}

/-- The free map, the dinodes and the data blocks of a disk. -/
structure View where
  used : Nat → Bool
  dinode : Nat → Dinode
  data : Nat → Block

/-! ## Slots -/

/-- The number of slots of an inode: its direct blocks, its indirect block, and the entries of that. -/
def NSLOT : Nat := NDIRECT + 1 + NINDIRECT

theorem NDIRECT_eq : NDIRECT = 12 := rfl
theorem NSLOT_eq : NSLOT = 269 := rfl
theorem MAXFILE_eq : MAXFILE = 268 := rfl

/-- The slot of the block with index `bn` of the contents. -/
def slotOf (bn : Nat) : Nat := if bn < NDIRECT then bn else bn + 1

theorem slotOf_ne (bn : Nat) : slotOf bn ≠ NDIRECT := by
  rw [slotOf]
  split <;> omega

theorem slotOf_lt (h : bn < MAXFILE) : slotOf bn < NSLOT := by
  rw [MAXFILE_eq] at h
  rw [slotOf, NSLOT_eq]
  split <;> omega

theorem slotOf_inj (h : slotOf bn = slotOf bn') : bn = bn' := by
  simp only [slotOf] at h
  split at h <;> split at h <;> omega

namespace Dinode

/-- The number of the indirect block. -/
def indirect (n : Dinode) : BitVec 32 := n.addrs (Fin.last NDIRECT)

/-- The block number in slot `k`, 0 if there is none. -/
def slot (n : Dinode) (data : Nat → Block) (k : Nat) : BitVec 32 :=
  if h : k < NDIRECT + 1 then n.addrs ⟨k, h⟩
  else if n.indirect = 0 then 0 else entry (data n.indirect.toNat) (k - (NDIRECT + 1))

theorem slot_NDIRECT (n : Dinode) (data : Nat → Block) : n.slot data NDIRECT = n.indirect :=
  dif_pos (Nat.lt_succ_self _)

theorem addrs_setAddr (n : Dinode) (k : Fin (NDIRECT + 1)) (a : BitVec 32) :
    (n.setAddr k a).addrs = update n.addrs k a := rfl

theorem indirect_setAddr (hk : k ≠ Fin.last NDIRECT) :
    (n.setAddr k a).indirect = n.indirect :=
  update_of_ne hk.symm ..

theorem indirect_setIndirect (n : Dinode) (a : BitVec 32) :
    (n.setAddr (Fin.last NDIRECT) a).indirect = a := by
  rw [indirect, addrs_setAddr, update_self]

/-- The slots depend on the block numbers and on the indirect block. -/
theorem slot_congr {n' : Dinode} {data data' : Nat → Block} (haddrs : n'.addrs = n.addrs)
    (hdata : n.indirect ≠ 0 → data' n.indirect.toNat = data n.indirect.toNat) (k : Nat) :
    n'.slot data' k = n.slot data k := by
  have hind : n'.indirect = n.indirect := by rw [indirect, haddrs, indirect]
  rw [slot, slot, haddrs, hind]
  by_cases hz : n.indirect = 0
  · simp only [if_pos hz]
  · rw [if_neg hz, if_neg hz, hdata hz]

/-- Byte `x` of the contents of an inode whose blocks are in `data`. -/
def byteAt (n : Dinode) (data : Nat → Block) (x : Nat) : Byte :=
  (data (n.slot data (slotOf (x / BSIZE))).toNat).bytes (x % BSIZE)

/-- Byte `x` of the contents has a block. -/
def Has (n : Dinode) (data : Nat → Block) (x : Nat) : Prop :=
  x / BSIZE < MAXFILE ∧ n.slot data (slotOf (x / BSIZE)) ≠ 0

end Dinode

namespace View

variable {sb : Superblock} {v v' : View} {i j k b bn : Nat}

/-- The block number in slot `k` of inode `i`. -/
def slot (v : View) (i k : Nat) : BitVec 32 := (v.dinode i).slot v.data k

theorem slot_fin (v : View) (i : Nat) (k : Fin (NDIRECT + 1)) : v.slot i k = (v.dinode i).addrs k :=
  dif_pos k.isLt

/-- Inode `i` is allocated. -/
def Allocated (sb : Superblock) (v : View) (i : Nat) : Prop := i < sb.ninodes ∧ (v.dinode i).type ≠ 0

instance (sb : Superblock) (v : View) (i : Nat) : Decidable (v.Allocated sb i) :=
  inferInstanceAs (Decidable (_ ∧ _))

/-- The block that a slot of an allocated inode owns. -/
def own (sb : Superblock) (v : View) (s : Nat × Nat) : Option Nat :=
  if v.Allocated sb s.1 ∧ s.2 < NSLOT ∧ v.slot s.1 s.2 ≠ 0 then some (v.slot s.1 s.2).toNat else none

theorem own_eq_some : v.own sb (i, k) = some b ↔
    v.Allocated sb i ∧ k < NSLOT ∧ v.slot i k ≠ 0 ∧ (v.slot i k).toNat = b := by
  rw [own]
  split
  · rename_i h
    rw [Option.some_inj]
    exact ⟨fun hb => ⟨h.1, h.2.1, h.2.2, hb⟩, fun hb => hb.2.2.2⟩
  · rename_i h
    exact ⟨fun hb => (nomatch hb), fun hb => absurd ⟨hb.1, hb.2.1, hb.2.2.1⟩ h⟩

theorem own_of_slot (ha : v.Allocated sb i) (hk : k < NSLOT) (hs : v.slot i k ≠ 0) :
    v.own sb (i, k) = some (v.slot i k).toNat :=
  own_eq_some.mpr ⟨ha, hk, hs, rfl⟩

theorem own_eq_none (hs : v.slot i k = 0) : v.own sb (i, k) = none :=
  if_neg fun h => h.2.2 hs

theorem own_congr (ha : v'.Allocated sb i ↔ v.Allocated sb i)
    (hs : v.Allocated sb i → k < NSLOT → v'.slot i k = v.slot i k) :
    v'.own sb (i, k) = v.own sb (i, k) := by
  by_cases h : v.Allocated sb i ∧ k < NSLOT
  · rw [own, own, hs h.1 h.2]
    simp only [ha]
  · rw [own, own, if_neg fun hn => h ⟨ha.mp hn.1, hn.2.1⟩, if_neg fun hn => h ⟨hn.1, hn.2.1⟩]

/-- An inode that has no indirect block has no entries in it. -/
theorem slot_of_indirect (h0 : v.slot i NDIRECT = 0) (hk : NDIRECT ≤ k) : v.slot i k = 0 := by
  rcases hk.eq_or_lt with rfl | hk
  · exact h0
  · rw [slot, Dinode.slot_NDIRECT] at h0
    rw [slot, Dinode.slot, dif_neg (by omega), if_pos h0]

/-- The slots of an inode whose block numbers and indirect block stay as they are. -/
theorem slot_congr (haddrs : (v'.dinode i).addrs = (v.dinode i).addrs)
    (hdata : v.slot i NDIRECT ≠ 0 →
      v'.data (v.slot i NDIRECT).toNat = v.data (v.slot i NDIRECT).toNat) (k : Nat) :
    v'.slot i k = v.slot i k := by
  rw [slot, Dinode.slot_NDIRECT] at hdata
  exact Dinode.slot_congr haddrs hdata k

/-! ## Contents -/

/-- Byte `x` of the contents of inode `i`. -/
def byte (v : View) (i x : Nat) : Byte :=
  (v.data (v.slot i (slotOf (x / BSIZE))).toNat).bytes (x % BSIZE)

/-- Byte `x` of inode `i` has a block. -/
def Has (v : View) (i x : Nat) : Prop := x / BSIZE < MAXFILE ∧ v.slot i (slotOf (x / BSIZE)) ≠ 0

/-- The size of inode `i`. -/
def size (v : View) (i : Nat) : Nat := (v.dinode i).size.toNat

/-- The contents of inode `i`. -/
def content (v : View) (i : Nat) : List Byte := (List.range (v.size i)).map (v.byte i)

end View

/-- An inode and its contents. -/
@[ext] structure Ino where
  type : BitVec 16
  major : BitVec 16
  minor : BitVec 16
  nlink : BitVec 16
  data : List Byte
  deriving DecidableEq

/-- A free inode. -/
def Ino.free : Ino := ⟨0, 0, 0, 0, []⟩

namespace View

variable {sb : Superblock} {v v' : View} {i j k b bn : Nat}

/-- Inode `i` and its contents. -/
def ino (v : View) (i : Nat) : Ino :=
  let n := v.dinode i
  if n.type = 0 then .free else ⟨n.type, n.major, n.minor, n.nlink, v.content i⟩

theorem ino_of_ne_zero (h : (v.dinode i).type ≠ 0) : v.ino i =
    ⟨(v.dinode i).type, (v.dinode i).major, (v.dinode i).minor, (v.dinode i).nlink, v.content i⟩ :=
  if_neg h

theorem ino_type (v : View) (i : Nat) : (v.ino i).type = (v.dinode i).type := by
  simp only [ino]
  split
  · rename_i h
    rw [h]
    rfl
  · rfl

theorem length_content (v : View) (i : Nat) : (v.content i).length = v.size i := by
  rw [content, List.length_map, List.length_range]

theorem content_congr (hsize : v'.size i = v.size i)
    (hbyte : ∀ x < v.size i, v'.byte i x = v.byte i x) : v'.content i = v.content i := by
  rw [content, content, hsize]
  exact List.map_congr_left fun x hx => hbyte x (List.mem_range.mp hx)

end View

/-! ## The invariant -/

/-- The slots of the allocated inodes own the used data blocks, the other blocks are marked as used,
and no inode has a hole below its size. -/
structure Good (sb : Superblock) (v : View) : Prop where
  layout : sb.Layout
  owns : Owns sb.Data (fun b => v.used b = true) (v.own sb)
  reserved : ∀ b < sb.datastart, v.used b = true
  full : ∀ i, v.Allocated sb i → ∀ bn, bn * BSIZE < v.size i → v.slot i (slotOf bn) ≠ 0
  size : ∀ i, v.Allocated sb i → v.size i ≤ MAXFILE * BSIZE

/-- Block ownership, of which the blocks outside the data area are no part. -/
structure BlockOwnership (sb : Superblock) (v : View) : Prop where
  layout : sb.Layout
  owns : Owns sb.Data (fun b => v.used b = true) (v.own sb)
  full : ∀ i, v.Allocated sb i → ∀ bn, bn * BSIZE < v.size i → v.slot i (slotOf bn) ≠ 0
  size : ∀ i, v.Allocated sb i → v.size i ≤ MAXFILE * BSIZE

theorem BlockOwnership.good (h : BlockOwnership sb v)
    (hres : ∀ b < sb.datastart, v.used b = true) : Good sb v :=
  ⟨h.layout, h.owns, hres, h.full, h.size⟩

namespace Good

variable {sb : Superblock} {v v' : View} {i j k b bn : Nat}

/-- A block that is not marked as used is in the data area. -/
theorem data_of_free (g : Good sb v) (hb : b < sb.size) (hfree : v.used b = false) : sb.Data b := by
  refine ⟨?_, hb⟩
  by_contra hlt
  rw [g.reserved b (by omega)] at hfree
  cases hfree

section

variable (g : Good sb v) (ha : v.Allocated sb i)

include g ha

theorem slot_data (hk : k < NSLOT) (hs : v.slot i k ≠ 0) : sb.Data (v.slot i k).toNat :=
  g.owns.pool (View.own_of_slot ha hk hs)

/-- The slots of an inode read from its block numbers and from the data blocks. -/
theorem slot_congr {n : Dinode} {data : Nat → Block}
    (haddrs : n.addrs = (v.dinode i).addrs) (hdata : ∀ b, sb.Data b → data b = v.data b) (k : Nat) :
    n.slot data k = v.slot i k := by
  refine Dinode.slot_congr haddrs (fun hne => hdata _ ?_) k
  have hs : v.slot i NDIRECT ≠ 0 := by rwa [View.slot, Dinode.slot_NDIRECT]
  have hd := g.slot_data ha (show NDIRECT < NSLOT by decide) hs
  rwa [View.slot, Dinode.slot_NDIRECT] at hd

theorem slot_inj (hk : k < NSLOT)
    (hs : v.slot i k ≠ 0) (ha' : v.Allocated sb j) (hk' : k' < NSLOT) (hs' : v.slot j k' ≠ 0)
    (h : (v.slot i k).toNat = (v.slot j k').toNat) : i = j ∧ k = k' :=
  Prod.mk.injEq .. ▸
    g.owns.inj (View.own_of_slot ha hk hs) (h ▸ View.own_of_slot ha' hk' hs')

theorem slot_ne_free (hk : k < NSLOT) (hs : v.slot i k ≠ 0)
    (hfree : v.used b = false) : (v.slot i k).toNat ≠ b := fun h =>
  g.owns.ne_of_free (by rw [hfree]; exact Bool.false_ne_true) (h ▸ View.own_of_slot ha hk hs)

theorem index_lt (hx : x < v.size i) : x / BSIZE < MAXFILE := by
  have := g.size i ha
  rw [BSIZE_eq] at this ⊢
  omega

/-- The bytes below the size have blocks. -/
theorem has (hx : x < v.size i) : v.Has i x :=
  ⟨g.index_lt ha hx, g.full i ha _ (by rw [BSIZE_eq]; omega)⟩

end

/-- **Frame.** The contents of an inode whose slots and owned blocks stay as they are. -/
theorem ino_congr (g : Good sb v) (hi : i < sb.ninodes) (hn : v'.dinode i = v.dinode i)
    (hslot : v.Allocated sb i → ∀ k, v'.slot i k = v.slot i k)
    (hdata : v.Allocated sb i → ∀ k < NSLOT, k ≠ NDIRECT → v.slot i k ≠ 0 →
      v'.data (v.slot i k).toNat = v.data (v.slot i k).toNat) : v'.ino i = v.ino i := by
  rw [View.ino, View.ino, hn]
  by_cases ht : (v.dinode i).type = 0
  · rw [if_pos ht, if_pos ht]
  · have ha : v.Allocated sb i := ⟨hi, ht⟩
    have hc : v'.content i = v.content i := by
      refine View.content_congr (by rw [View.size, View.size, hn]) fun x hx => ?_
      obtain ⟨hlt, hnz⟩ := g.has ha hx
      rw [View.byte, View.byte, hslot ha, hdata ha _ (slotOf_lt hlt) (slotOf_ne _) hnz]
    simp only [if_neg ht, hc]

end Good

/-! ## Updates -/

namespace View

/-- The bit of block `b` in the free map is written. -/
def mark (v : View) (b : Nat) (bit : Bool) : View :=
  { v with used := update v.used b bit }

/-- Block `b` is written. -/
def write (v : View) (b : Nat) (g : Block → Block) : View :=
  { v with data := update v.data b (g (v.data b)) }

/-- Block `b` is marked as used, and zeroed. -/
def alloc (v : View) (b : Nat) : View := (v.mark b true).write b fun _ => zeroBlock

/-- The dinode of inode `i` is written. -/
def setNode (v : View) (i : Nat) (n : Dinode) : View :=
  { v with dinode := update v.dinode i n }

/-- Block number `k` of inode `i` is written. -/
def setAddr (v : View) (i : Nat) (k : Fin (NDIRECT + 1)) (a : BitVec 32) : View :=
  v.setNode i ((v.dinode i).setAddr k a)

variable {sb : Superblock} {v v' : View} {i j b : Nat} {a : BitVec 32}

@[simp] theorem data_write_self (v : View) (b : Nat) (g : Block → Block) :
    (v.write b g).data b = g (v.data b) := update_self ..

theorem data_write_ne {g : Block → Block} (h : c ≠ b) : (v.write b g).data c = v.data c :=
  update_of_ne h ..

@[simp] theorem used_mark_self (v : View) (b : Nat) (bit : Bool) : (v.mark b bit).used b = bit :=
  update_self ..

theorem used_mark_ne (h : c ≠ b) : (v.mark b bit).used c = v.used c :=
  update_of_ne h ..

@[simp] theorem data_alloc_self (v : View) (b : Nat) : (v.alloc b).data b = zeroBlock :=
  update_self ..

theorem data_alloc_ne (h : c ≠ b) : (v.alloc b).data c = v.data c :=
  update_of_ne h ..

@[simp] theorem dinode_setNode_self (v : View) (i : Nat) (n : Dinode) :
    (v.setNode i n).dinode i = n := update_self ..

theorem dinode_setNode_ne (h : j ≠ i) : (v.setNode i n).dinode j = v.dinode j :=
  update_of_ne h ..

/-- The slots of an inode after one of its direct block numbers is written. -/
theorem slot_setAddr (hk : k ≠ Fin.last NDIRECT) (s : Nat) :
    (v.setAddr i k a).slot i s = if s = k then a else v.slot i s := by
  rw [slot, setAddr, dinode_setNode_self, Dinode.slot, Dinode.indirect_setAddr hk]
  by_cases hs : s < NDIRECT + 1
  · rw [dif_pos hs, Dinode.addrs_setAddr]
    by_cases hsk : s = k
    · subst hsk
      rw [if_pos rfl, update_self]
    · rw [if_neg hsk, slot, Dinode.slot, dif_pos hs,
        update_of_ne fun h => hsk (congrArg Fin.val h)]
  · have hsk : s ≠ k := fun h => hs (h ▸ k.isLt)
    rw [dif_neg hs, if_neg hsk, slot, Dinode.slot, dif_neg hs]
    rfl

/-- The slots of an inode after the number of its indirect block is written. -/
theorem slot_setIndirect (s : Nat) (ha : a ≠ 0) :
    (v.setAddr i (Fin.last NDIRECT) a).slot i s =
      if s < NDIRECT then v.slot i s else if s = NDIRECT then a
      else entry (v.data a.toNat) (s - (NDIRECT + 1)) := by
  rw [slot, setAddr, dinode_setNode_self, Dinode.slot, Dinode.indirect_setIndirect, if_neg ha]
  by_cases hs : s < NDIRECT
  · rw [dif_pos (by omega), if_pos hs, slot, Dinode.slot, dif_pos (by omega), Dinode.addrs_setAddr,
      update_of_ne fun h => hs.ne (congrArg Fin.val h)]
  · rw [if_neg hs]
    by_cases hsn : s = NDIRECT
    · subst hsn
      rw [dif_pos (Nat.lt_succ_self _), if_pos rfl, Dinode.addrs_setAddr]
      exact update_self ..
    · rw [dif_neg (by omega), if_neg hsn]
      rfl

end View

/-- From `v` to `v'` inode `i` may have got more blocks: what it had it has still, and other inodes and
the contents are as they were. -/
structure Grown (sb : Superblock) (i : Nat) (v v' : View) : Prop where
  node : ∀ j, j ≠ i → v'.dinode j = v.dinode j
  fields : ∃ addrs, v'.dinode i = { v.dinode i with addrs := addrs }
  slots : ∀ j, j ≠ i → v.Allocated sb j → ∀ k, v'.slot j k = v.slot j k
  slot : ∀ k < NSLOT, v.slot i k ≠ 0 → v'.slot i k = v.slot i k
  data : ∀ j, v.Allocated sb j → ∀ k < NSLOT, k ≠ NDIRECT → v.slot j k ≠ 0 →
    v'.data (v.slot j k).toNat = v.data (v.slot j k).toNat

namespace Grown

variable {sb : Superblock} {v v' v'' : View} {i j b : Nat}

theorem refl (sb : Superblock) (i : Nat) (v : View) : Grown sb i v v :=
  ⟨fun _ _ => rfl, ⟨_, rfl⟩, fun _ _ _ _ => rfl, fun _ _ _ => rfl, fun _ _ _ _ _ _ => rfl⟩

section

variable (h : Grown sb i v v')

include h

theorem type_eq (j : Nat) : (v'.dinode j).type = (v.dinode j).type := by
  by_cases hj : j = i
  · obtain ⟨addrs, ha⟩ := h.fields
    rw [hj, ha]
  · rw [h.node j hj]

theorem size_eq (j : Nat) : v'.size j = v.size j := by
  rw [View.size, View.size]
  by_cases hj : j = i
  · obtain ⟨addrs, ha⟩ := h.fields
    rw [hj, ha]
  · rw [h.node j hj]

theorem allocated : v'.Allocated sb j ↔ v.Allocated sb j := by
  rw [View.Allocated, View.Allocated, h.type_eq]

theorem slot_all (ha : v.Allocated sb j) (hk : k < NSLOT)
    (hs : v.slot j k ≠ 0) : v'.slot j k = v.slot j k := by
  by_cases hj : j = i
  · subst hj
    exact h.slot k hk hs
  · exact h.slots j hj ha k

theorem trans (h' : Grown sb i v' v'') : Grown sb i v v'' where
  node j hj := (h'.node j hj).trans (h.node j hj)
  fields := by
    obtain ⟨a, ha⟩ := h.fields
    obtain ⟨a', ha'⟩ := h'.fields
    exact ⟨a', by rw [ha', ha]⟩
  slots j hj hal k := (h'.slots j hj (h.allocated.mpr hal) k).trans (h.slots j hj hal k)
  slot k hk hs := by
    have h1 := h.slot k hk hs
    rw [← h1] at hs
    exact (h'.slot k hk hs).trans h1
  data j hal k hk hne hs := by
    have h1 := h.slot_all hal hk hs
    have h2 := h'.data j (h.allocated.mpr hal) k hk hne (h1.symm ▸ hs)
    rw [h1] at h2
    exact h2.trans (h.data j hal k hk hne hs)

/-- What is in blocks is as it was. -/
theorem byte (ha : v.Allocated sb j) (hx : v.Has j x) : v'.Has j x ∧ v'.byte j x = v.byte j x := by
  have hs := h.slot_all ha (slotOf_lt hx.1) hx.2
  refine ⟨⟨hx.1, hs.symm ▸ hx.2⟩, ?_⟩
  rw [View.byte, View.byte, hs, h.data j ha _ (slotOf_lt hx.1) (slotOf_ne _) hx.2]

theorem ino (g : Good sb v) (hj : j < sb.ninodes) : v'.ino j = v.ino j := by
  rw [View.ino, View.ino, h.type_eq]
  by_cases ht : (v.dinode j).type = 0
  · rw [if_pos ht, if_pos ht]
  · have hc := View.content_congr (h.size_eq j) fun x hx =>
      (h.byte ⟨hj, ht⟩ (g.has ⟨hj, ht⟩ hx)).2
    simp only [if_neg ht, hc]
    by_cases hji : j = i
    · subst hji
      obtain ⟨addrs, ha⟩ := h.fields
      rw [ha]
    · rw [h.node j hji]

/-- A block that was free is now in a slot of inode `i` that was empty. -/
theorem good (g : Good sb v) (ha : v.Allocated sb i) (hs : s < NSLOT)
    (h0 : v.slot i s = 0) (hb : sb.Data b) (hfree : v.used b = false)
    (hused : v'.used = (v.mark b true).used) (hself : (v'.slot i s).toNat = b)
    (hother : ∀ k < NSLOT, k ≠ s → v'.slot i k = v.slot i k) : Good sb v' := by
  have hnz : v'.slot i s ≠ 0 := g.layout.ne_zero (hself.symm ▸ hb)
  refine ⟨g.layout, ?_, fun c hc => ?_, fun j hj bn hbn => ?_, fun j hj => ?_⟩
  · refine g.owns.alloc (s := (i, s)) (View.own_eq_none h0) hb (by rw [hfree]; decide)
      (fun c _ => ?_) ?_ fun t ht => ?_
    · rw [hused]
      by_cases hc : c = b
      · simp [hc]
      · simp [hc, View.used_mark_ne]
    · exact View.own_eq_some.mpr ⟨h.allocated.mpr ha, hs, hnz, hself⟩
    · obtain ⟨j, k⟩ := t
      refine View.own_congr h.allocated fun hal hk => ?_
      by_cases hj : j = i
      · subst hj
        exact hother k hk fun hks => ht (by rw [hks])
      · exact h.slots j hj hal k
  · rw [hused]
    by_cases hcb : c = b
    · rw [hcb, View.used_mark_self]
    · rw [View.used_mark_ne hcb, g.reserved c hc]
  · have hal := h.allocated.mp hj
    rw [h.size_eq] at hbn
    have hne := g.full j hal bn hbn
    have hx : bn * BSIZE / BSIZE = bn := Nat.mul_div_cancel _ (by decide)
    have hlt : bn < MAXFILE := hx ▸ g.index_lt hal hbn
    rw [h.slot_all hal (slotOf_lt hlt) hne]
    exact hne
  · rw [h.size_eq]
    exact g.size j (h.allocated.mp hj)

end

end Grown

end Xv6.Fs
