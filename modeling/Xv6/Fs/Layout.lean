/-
# Xv6.Fs.Layout — the on-disk format of the file system (`kernel/fs.h`).

A disk is the boot block, the super block, the log, the inode blocks, the free bit map and the data
blocks, in this order.  This module has the constants of the header, the super block, and the three
records that live inside blocks: a bit of the free map, a `struct dinode` and an entry of an indirect
block.  Each has a way to read it and a way to write it, with a round trip and a frame lemma, so that
no later module looks at the bytes of a block.
-/
import Xv6.Bio

namespace Xv6.Fs

open Lib BitVec Nat

variable {b i k o : Nat} {α : Type}

/-! ## Constants -/

/-- Root i-number. -/
def ROOTINO : Nat := 1
/-- Block numbers that an inode holds itself. -/
def NDIRECT : Nat := 12
/-- Block numbers in an indirect block. -/
def NINDIRECT : Nat := BSIZE / 4
/-- Longest file, in blocks. -/
def MAXFILE : Nat := NDIRECT + NINDIRECT
/-- `sizeof(struct dinode)`. -/
def DINODE : Nat := 64
/-- Inodes per block. -/
def IPB : Nat := BSIZE / DINODE
/-- Bitmap bits per block. -/
def BPB : Nat := BSIZE * 8
/-- Longest name in a directory. -/
def DIRSIZ : Nat := 14
/-- `sizeof(struct dirent)`. -/
def DIRENT : Nat := 16

theorem BSIZE_eq : BSIZE = 1024 := rfl
theorem IPB_eq : IPB = 16 := rfl
theorem BPB_eq : BPB = 8192 := rfl

/-- The number that marks a file system. -/
def FSMAGIC : BitVec 32 := 0x10203040

/-- Directory. -/
def T_DIR : BitVec 16 := 1
/-- File. -/
def T_FILE : BitVec 16 := 2
/-- Device. -/
def T_DEVICE : BitVec 16 := 3

/-! ## The super block -/

/-- `struct superblock`, less its magic number. -/
structure Superblock where
  size : Nat
  nblocks : Nat
  ninodes : Nat
  nlog : Nat
  logstart : Nat
  inodestart : Nat
  bmapstart : Nat
  deriving DecidableEq, Repr

/-- Block containing inode `i`. -/
def IBLOCK (i : Nat) (sb : Superblock) : Nat := i / IPB + sb.inodestart

/-- Block of free map containing bit for block `b`. -/
def BBLOCK (b : Nat) (sb : Superblock) : Nat := b / BPB + sb.bmapstart

namespace Superblock

/-- The first data block. -/
def datastart (sb : Superblock) : Nat := sb.size - sb.nblocks

/-- `b` is a block of the data area. -/
def Data (sb : Superblock) (b : Nat) : Prop := sb.datastart ≤ b ∧ b < sb.size

instance (sb : Superblock) (b : Nat) : Decidable (sb.Data b) := inferInstanceAs (Decidable (_ ∧ _))

/-- The super block as `mkfs` computes it from the number of blocks, of inodes and of log blocks. -/
structure Layout (sb : Superblock) : Prop where
  logstart : sb.logstart = 2
  inodestart : sb.inodestart = 2 + sb.nlog
  bmapstart : sb.bmapstart = sb.inodestart + (sb.ninodes / IPB + 1)
  size : sb.size = sb.bmapstart + (sb.size / BPB + 1) + sb.nblocks
  bound : sb.size < 2 ^ 32

variable {sb : Superblock} (h : sb.Layout)

include h

theorem Layout.datastart : sb.datastart = sb.bmapstart + (sb.size / BPB + 1) := by
  have := h.size
  rw [BPB_eq] at this ⊢
  rw [Superblock.datastart]
  omega

theorem Layout.datastart_pos : 0 < sb.datastart := by
  rw [h.datastart]
  exact lt_of_lt_of_le (succ_pos _) (le_add_left _ _)

theorem Layout.ne_zero {a : BitVec 32} (ha : sb.Data a.toNat) : a ≠ 0 := by
  rintro rfl
  exact absurd ha.1 (not_le.mpr h.datastart_pos)

theorem Layout.IBLOCK_lt (hi : i < sb.ninodes) : IBLOCK i sb < sb.bmapstart := by
  have hdiv : i / IPB ≤ sb.ninodes / IPB := Nat.div_le_div_right hi.le
  rw [IBLOCK, h.bmapstart]
  omega

theorem Layout.BBLOCK_lt (hb : b < sb.size) : BBLOCK b sb < sb.datastart := by
  have hdiv : b / BPB ≤ sb.size / BPB := Nat.div_le_div_right hb.le
  rw [BBLOCK, h.datastart]
  omega

theorem Layout.bmapstart_le : sb.bmapstart ≤ sb.datastart := by
  rw [h.datastart]
  exact le_add_right _ _

/-- An inode block is not a block of the free map. -/
theorem Layout.IBLOCK_ne_BBLOCK (hi : i < sb.ninodes) (b : Nat) : IBLOCK i sb ≠ BBLOCK b sb := by
  have := h.IBLOCK_lt hi
  rw [BBLOCK, BPB_eq]
  omega

theorem Layout.IBLOCK_ne (hi : i < sb.ninodes) (hb : sb.Data b) : IBLOCK i sb ≠ b := by
  have h1 := h.IBLOCK_lt hi
  have h2 := h.bmapstart_le
  have h3 := hb.1
  omega

theorem Layout.BBLOCK_ne (hc : c < sb.size) (hb : sb.Data b) : BBLOCK c sb ≠ b := by
  have h1 := h.BBLOCK_lt hc
  have h2 := hb.1
  omega

end Superblock

/-- A block after `memset(bp->data, 0, BSIZE)`. -/
def zeroBlock : Block := fun _ => 0

theorem load_zeroBlock (k a : Nat) : zeroBlock.load k a = 0 := by
  refine Store.load_eq fun i _ => ?_
  simp [zeroBlock, Block.bytes]

/-! ## The free bit map -/

/-- The bit of the free map block `blk` at index `bi`, as `balloc` tests it. -/
def testBit (blk : Block) (bi : Nat) : Bool := blk.bytes (bi / 8) &&& 1#8 <<< (bi % 8) ≠ 0

/-- `bp->data[bi/8] |= m`. -/
def setBit (bi : Nat) (blk : Block) : Block := fun i =>
  if i.val = bi / 8 then blk i ||| 1#8 <<< (bi % 8) else blk i

/-- `bp->data[bi/8] &= ~m`. -/
def clearBit (bi : Nat) (blk : Block) : Block := fun i =>
  if i.val = bi / 8 then blk i &&& ~~~(1#8 <<< (bi % 8)) else blk i

theorem and_mask_ne_zero (v : Byte) (hk : k < 8) : (v &&& 1#8 <<< k ≠ 0) ↔ v.getLsbD k := by
  constructor
  · intro h
    by_contra hv
    apply h
    apply eq_of_getLsbD_eq
    intro i hi
    by_cases hik : i = k
    · subst hik
      simp [hv]
    · simp [getLsbD_one]
      omega
  · intro hv h
    have hbit := congrArg (getLsbD · k) h
    simp only [getLsbD_and, hv, getLsbD_shiftLeft, hk, getLsbD_one] at hbit
    simp at hbit

theorem testBit_eq (blk : Block) (bi : Nat) : testBit blk bi = (blk.bytes (bi / 8)).getLsbD (bi % 8) := by
  rw [testBit, Bool.eq_iff_iff, decide_eq_true_iff, and_mask_ne_zero _ (by omega)]

theorem testBit_setBit (blk : Block) (bi : Nat) (hc : ci < BPB) :
    testBit (setBit bi blk) ci = (decide (ci = bi) || testBit blk ci) := by
  have hlt : ci / 8 < BSIZE := by
    rw [BPB] at hc
    omega
  rw [testBit_eq, testBit_eq, Block.bytes, Block.bytes, dif_pos hlt, dif_pos hlt, setBit]
  by_cases hbyte : ci / 8 = bi / 8
  · rw [if_pos hbyte]
    by_cases hbit : ci % 8 = bi % 8
    · have : ci = bi := by omega
      simp [this]
      omega
    · have : ci ≠ bi := by
        rintro rfl
        exact hbit rfl
      simp [this, getLsbD_one]
      omega
  · have : ci ≠ bi := by
      rintro rfl
      exact hbyte rfl
    simp [if_neg hbyte, this]

/-! ## Inodes on disk -/

/-- Go on with `v`, evaluated. -/
def eager {w : Nat} {α : Type} (v : BitVec w) (k : BitVec w → α) : α :=
  match v.toNat with
  | 0 => k (BitVec.ofNat w 0)
  | n + 1 => k (BitVec.ofNat w (n + 1))

theorem eager_eq (v : BitVec w) (k : BitVec w → α) : eager v k = k v := by
  have hv : BitVec.ofNat w v.toNat = v := by simp
  rw [eager]
  split <;> rename_i h <;> rw [h] at hv <;> rw [hv]

/-- Go on with the words of a list, evaluated. -/
def eagerAll {w : Nat} {α : Type} : List (BitVec w) → (List (BitVec w) → α) → α
  | [], k => k []
  | v :: vs, k => eager v fun v => eagerAll vs fun vs => k (v :: vs)

theorem eagerAll_eq (vs : List (BitVec w)) (k : List (BitVec w) → α) :
    eagerAll vs k = k vs := by
  induction vs generalizing k with
  | nil => rfl
  | cons v vs ih => rw [eagerAll, eager_eq, ih]

/-- `struct dinode`. -/
@[ext] structure Dinode where
  type : BitVec 16
  major : BitVec 16
  minor : BitVec 16
  nlink : BitVec 16
  size : BitVec 32
  addrs : Fin (NDIRECT + 1) → BitVec 32

namespace Dinode

/-- The dinode at byte offset `o` of a block. -/
def load (blk : Block) (o : Nat) : Dinode where
  type := blk.load 2 o
  major := blk.load 2 (o + 2)
  minor := blk.load 2 (o + 4)
  nlink := blk.load 2 (o + 6)
  size := blk.load 4 (o + 8)
  addrs k := blk.load 4 (o + 12 + 4 * k)

/-- Byte `x` of a dinode. -/
def byte (n : Dinode) (x : Nat) : Byte :=
  if x < 2 then n.type.extractLsb' (8 * x) 8
  else if x < 4 then n.major.extractLsb' (8 * (x - 2)) 8
  else if x < 6 then n.minor.extractLsb' (8 * (x - 4)) 8
  else if x < 8 then n.nlink.extractLsb' (8 * (x - 6)) 8
  else if x < 12 then n.size.extractLsb' (8 * (x - 8)) 8
  else if h : (x - 12) / 4 < NDIRECT + 1 then
    (n.addrs ⟨(x - 12) / 4, h⟩).extractLsb' (8 * ((x - 12) % 4)) 8
  else 0

/-- The block with the dinode `n` at byte offset `o`. -/
def store (n : Dinode) (o : Nat) (blk : Block) : Block := fun i =>
  if o ≤ i ∧ i < o + DINODE then n.byte (i - o) else blk i

/-- Write block number `k`. -/
def setAddr (n : Dinode) (k : Fin (NDIRECT + 1)) (a : BitVec 32) : Dinode :=
  { n with addrs := Function.update n.addrs k a }

/-- `memset(dip, 0, sizeof(*dip))` and `dip->type = type`. -/
def fresh (type : BitVec 16) : Dinode := ⟨type, 0, 0, 0, 0, fun _ => 0⟩

/-- Go on with a copy of the fields of `n`.  Nothing but `n` is passed on: when the model is evaluated
on a disk, the copy is made of numbers where `n` is made of terms that refer to the disk. -/
def copy {α : Type} (n : Dinode) (k : Dinode → α) : α :=
  eager n.type fun type => eager n.major fun major => eager n.minor fun minor =>
  eager n.nlink fun nlink => eager n.size fun size => eagerAll (List.ofFn n.addrs) fun addrs =>
  k ⟨type, major, minor, nlink, size, fun i => addrs.getD i 0⟩

@[simp] theorem copy_eq (n : Dinode) (k : Dinode → α) : n.copy k = k n := by
  simp only [copy, eager_eq, eagerAll_eq]
  have haddrs : (fun i : Fin (NDIRECT + 1) => (List.ofFn n.addrs).getD i 0) = n.addrs := by
    funext i
    rw [List.getD_eq_getElem?_getD, List.getElem?_ofFn, dif_pos i.isLt, Option.getD_some]
  rw [haddrs]

theorem bytes_store (n : Dinode) (o : Nat) (blk : Block) (hx : x < BSIZE) :
    (n.store o blk).bytes x = if o ≤ x ∧ x < o + DINODE then n.byte (x - o) else blk.bytes x := by
  simp [Block.bytes, hx, store]

/-- A field of a stored dinode. -/
theorem load_field (n : Dinode) (blk : Block) (ho : o + DINODE ≤ BSIZE)
    (hd : d + k ≤ DINODE)
    (h : ∀ j < k, n.byte (d + j) = v.extractLsb' (8 * j) 8) :
    (n.store o blk).load k (o + d) = v := by
  refine Store.load_eq fun j hj => ?_
  rw [bytes_store n o blk (by omega), if_pos (by omega), show o + d + j - o = d + j by omega, h j hj]

/-- **Round trip.** A stored dinode reads back. -/
theorem load_store (n : Dinode) (blk : Block) (ho : o + DINODE ≤ BSIZE) :
    load (n.store o blk) o = n := by
  ext1
  · exact n.load_field blk ho (k := 2) (d := 0) (by decide) fun j hj => by
      rw [byte, if_pos (by omega), zero_add]
  · exact n.load_field blk ho (k := 2) (d := 2) (by decide) fun j hj => by
      rw [byte, if_neg (by omega), if_pos (by omega), Nat.add_sub_cancel_left]
  · exact n.load_field blk ho (k := 2) (d := 4) (by decide) fun j hj => by
      rw [byte, if_neg (by omega), if_neg (by omega), if_pos (by omega), Nat.add_sub_cancel_left]
  · exact n.load_field blk ho (k := 2) (d := 6) (by decide) fun j hj => by
      rw [byte, if_neg (by omega), if_neg (by omega), if_neg (by omega), if_pos (by omega),
        Nat.add_sub_cancel_left]
  · exact n.load_field blk ho (k := 4) (d := 8) (by decide) fun j hj => by
      rw [byte, if_neg (by omega), if_neg (by omega), if_neg (by omega), if_neg (by omega),
        if_pos (by omega), Nat.add_sub_cancel_left]
  · funext k
    have hk : k.val < 13 := k.isLt
    have hfield := n.load_field blk ho (k := 4) (d := 12 + 4 * k.val) (v := n.addrs k)
      (by rw [DINODE]; omega) fun j hj => ?_
    · rwa [← add_assoc] at hfield
    have hdiv : (12 + 4 * k.val + j - 12) / 4 = k := by omega
    rw [byte, if_neg (by omega), if_neg (by omega), if_neg (by omega), if_neg (by omega),
      if_neg (by omega), dif_pos (by rw [hdiv]; exact k.isLt)]
    simp only [hdiv, show (12 + 4 * k.val + j - 12) % 4 = j by omega]

/-- **Frame.** Storing a dinode leaves every other one alone. -/
theorem load_store_of_disjoint (n : Dinode) (blk : Block) (ho : o' + DINODE ≤ BSIZE)
    (h : o + DINODE ≤ o' ∨ o' + DINODE ≤ o) : load (n.store o blk) o' = load blk o' := by
  have hload : ∀ k d, d + k ≤ DINODE →
      (n.store o blk).load k (o' + d) = blk.load k (o' + d) := fun k d hd =>
    Store.load_congr fun x h1 h2 => by rw [bytes_store n o blk (by omega), if_neg (by omega)]
  ext1
  · exact hload 2 0 (by decide)
  · exact hload 2 2 (by decide)
  · exact hload 2 4 (by decide)
  · exact hload 2 6 (by decide)
  · exact hload 4 8 (by decide)
  · funext k
    have hk : k.val < 13 := k.isLt
    have haddr := hload 4 (12 + 4 * k.val) (by rw [DINODE]; omega)
    rwa [← add_assoc] at haddr

theorem load_zeroBlock (o : Nat) : load zeroBlock o = .fresh 0 := by
  ext1
  iterate 5 exact Fs.load_zeroBlock ..
  exact funext fun _ => Fs.load_zeroBlock 4 _

end Dinode

/-! ## Indirect blocks -/

/-- `a[j]`, for the buffer of an indirect block. -/
def entry (blk : Block) (j : Nat) : BitVec 32 := blk.load 4 (4 * j)

/-- `a[j] = addr`. -/
def setEntry (j : Nat) (addr : BitVec 32) (blk : Block) : Block := blk.store 4 (4 * j) addr

theorem entry_setEntry (blk : Block) (j : Nat) (addr : BitVec 32) (hk : k < NINDIRECT) :
    entry (setEntry j addr blk) k = if k = j then addr else entry blk k := by
  have hlt : 4 * k + 4 ≤ BSIZE := by
    rw [NINDIRECT] at hk
    omega
  by_cases h : k = j
  · subst h
    rw [if_pos rfl, entry, setEntry]
    exact Block.load_store (k := 4) blk addr hlt
  · rw [if_neg h, entry, setEntry]
    exact Block.load_store_of_disjoint (j := 4) (k := 4) blk addr hlt (by omega)

theorem entry_zeroBlock (j : Nat) : entry zeroBlock j = 0 := load_zeroBlock 4 _

end Xv6.Fs
