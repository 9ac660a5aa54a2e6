/-
# Xv6.Fs.Image — the file system that `mkfs` makes.

`mkfs` without files writes a root directory with the entries `.` and `..` in the first data block.
`fsinit` reads the super block, and the first process gets the root directory as its current
directory.  The lemmas about ownership are for any image in which the root directory is the only inode
that has a block.
-/
import Xv6.Fs.Disk
import Xv6.Fs.Names

namespace Xv6.Fs

open Lib Dinode

/-! ## The image -/

/-- The super block for `FSSIZE = 2000`, 200 inodes and `LOGSIZE = 30`. -/
def mkfsSb : Superblock := ⟨2000, 1954, 200, 30, 2, 32, 45⟩

theorem mkfsSb_layout : mkfsSb.Layout := ⟨rfl, rfl, rfl, rfl, by decide⟩

/-- The root directory, whose size `mkfs` rounds up to a block. -/
def rootDinode : Dinode := ⟨T_DIR, 0, 0, 1, 1024, fun k => if k = 0 then 46 else 0⟩

/-- The block of the root directory. -/
def rootBlock : Block := fun i =>
  ((Dirent.mk 1 (strncpy DIRSIZ dot)).toBytes ++ (Dirent.mk 1 (strncpy DIRSIZ dotdot)).toBytes).getD i 0

/-- A disk with the free map `map`, the first inode block `inodes`, and the root directory. -/
def rootDisk (map inodes : Block) : Disk := fun b =>
  if b = 32 then inodes else if b = 45 then map else if b = 46 then rootBlock else zeroBlock

/-- The free map in which the first 47 blocks are used. -/
def mkfsMap : Block := fun i => if i.val < 5 then 0xff else if i.val = 5 then 0x7f else 0

/-- The inode block that has the root directory as inode 1. -/
def rootInodes : Block := rootDinode.store 64 zeroBlock

/-- What `mkfs` writes. -/
def mkfsDisk : Disk := rootDisk mkfsMap rootInodes

/-- An entry of the inode table that is not in use. -/
def noInode : Inode := ⟨.fresh 0, 0, 0, false, false⟩

/-- The file system after `fsinit`, with an inode table. -/
def mount (disk : Disk) (itable : Ptr → Inode) : State := ⟨mkfsSb, disk, disk, [], itable⟩

/-- The entry of the current directory of the first process. -/
def rootPtr : Ptr := ⟨0, by decide⟩

/-- The file system when the first process starts. -/
def booted : State :=
  mount mkfsDisk fun ip => if ip = rootPtr then { noInode with inum := ROOTINO, ref := 1 } else noInode

/-! ## Ownership -/

theorem rootDinode_slot (data : Nat → Block) (k : Nat) :
    rootDinode.slot data k = if k = 0 then 46 else 0 := by
  rw [slot]
  split
  · simp only [rootDinode, Fin.ext_iff, Fin.val_zero]
  · rw [if_pos (by decide), if_neg (by omega)]

section

variable {map inodes : Block} {itable : Ptr → Inode}

/-- The first sixteen dinodes are in the first inode block, and the others are zero. -/
theorem dinode_mount (hi : i < mkfsSb.ninodes) :
    (mount (rootDisk map inodes) itable).dinode i =
      if i < IPB then .load inodes (i * DINODE) else .fresh 0 := by
  have hbuf : (mount (rootDisk map inodes) itable).dinode i =
      .load (rootDisk map inodes (IBLOCK i mkfsSb)) (inodeOff i) := rfl
  rw [hbuf]
  by_cases h : i < IPB
  · have hblk : IBLOCK i mkfsSb = 32 := by
      rw [IBLOCK, Nat.div_eq_of_lt h]
      rfl
    rw [if_pos h, hblk, inodeOff, Nat.mod_eq_of_lt h]
    rfl
  · have hblk : 32 < IBLOCK i mkfsSb ∧ IBLOCK i mkfsSb < 45 := by
      have hlt : i < 200 := hi
      have hstart : mkfsSb.inodestart = 32 := rfl
      rw [IPB_eq] at h
      rw [IBLOCK, IPB_eq, hstart]
      omega
    rw [if_neg h, rootDisk, if_neg (by omega), if_neg (by omega), if_neg (by omega),
      Dinode.load_zeroBlock]

theorem used_mount (hb : b < mkfsSb.size) :
    (mount (rootDisk map inodes) itable).used b = testBit map b := by
  have hlt : b < BPB := Nat.lt_trans hb (by decide)
  have hblk : BBLOCK b mkfsSb = 45 := by
    rw [BBLOCK, Nat.div_eq_of_lt hlt]
    rfl
  show testBit (rootDisk map inodes (BBLOCK b mkfsSb)) (b % BPB) = testBit map b
  rw [hblk, Nat.mod_eq_of_lt hlt]
  rfl

/-- An image in which the root directory is the only inode with a block, and of the data area only that
block is marked as used. -/
theorem mount_ownership (hroot : load inodes DINODE = rootDinode)
    (hrest : ∀ i < IPB, i ≠ ROOTINO → ∃ type major minor nlink,
      load inodes (i * DINODE) = ⟨type, major, minor, nlink, 0, fun _ => 0⟩)
    (hmap : ∀ b < mkfsSb.size, mkfsSb.datastart ≤ b → (testBit map b = true ↔ b = 46)) :
    BlockOwnership mkfsSb (mount (rootDisk map inodes) itable).view := by
  set v := (mount (rootDisk map inodes) itable).view
  have hnode : v.dinode ROOTINO = rootDinode := by
    rw [← hroot]
    exact dinode_mount (by decide)
  have hempty : ∀ i < mkfsSb.ninodes, i ≠ ROOTINO →
      (v.dinode i).addrs = (fun _ => 0) ∧ (v.dinode i).size = 0 := fun i hi hne => by
    have hd : v.dinode i = if i < IPB then .load inodes (i * DINODE) else .fresh 0 := dinode_mount hi
    rw [hd]
    split
    · rename_i hlt
      obtain ⟨_, _, _, _, hload⟩ := hrest i hlt hne
      rw [hload]
      exact ⟨rfl, rfl⟩
    · exact ⟨rfl, rfl⟩
  have hslot : ∀ k, v.slot ROOTINO k = if k = 0 then 46 else 0 := fun k => by
    rw [View.slot, hnode, rootDinode_slot]
  have hsize : ∀ i, v.Allocated mkfsSb i → v.size i = if i = ROOTINO then 1024 else 0 := fun i hi => by
    rw [View.size]
    split
    · rename_i h
      rw [h, hnode]
      rfl
    · rename_i h
      rw [(hempty i hi.1 h).2]
      rfl
  refine ⟨mkfsSb_layout, Owns.single (s := (ROOTINO, 0)) (b := 46) (by decide) ?_ ?_ ?_, ?_, ?_⟩
  · refine View.own_eq_some.mpr ⟨⟨by decide, ?_⟩, by decide, ?_, ?_⟩
    · rw [hnode]
      decide
    · rw [hslot]
      decide
    · rw [hslot]
      rfl
  · rintro ⟨i, k⟩ hne
    by_cases hi : v.Allocated mkfsSb i
    · refine View.own_eq_none ?_
      by_cases hroot : i = ROOTINO
      · subst hroot
        rw [hslot, if_neg fun hk => hne (by rw [hk])]
      · exact slot_zero (hempty i hi.1 hroot).1 _ k
    · exact if_neg fun h => hi h.1
  · intro b hb
    rw [← hmap b hb.2 hb.1, ← used_mount hb.2]
    exact Iff.rfl
  · intro i hi bn hbn
    rw [hsize i hi] at hbn
    split at hbn
    · rename_i hroot
      obtain rfl : bn = 0 := by
        rw [BSIZE_eq] at hbn
        omega
      rw [hroot, hslot]
      decide
    · omega
  · intro i hi
    rw [hsize i hi]
    split <;> decide

end

theorem booted_good : Good mkfsSb booted.view := by
  refine (mount_ownership (load_store _ _ (by decide)) (fun i hi hne => ?_) ?_).good ?_
  · rw [Dinode.load_store_of_disjoint, Dinode.load_zeroBlock]
    · exact ⟨_, _, _, _, rfl⟩
    · rw [IPB_eq] at hi
      rw [DINODE, BSIZE_eq]
      omega
    · have hne : i ≠ 1 := hne
      rw [DINODE]
      omega
  · decide +kernel
  · intro b hb
    have hlt : b < mkfsSb.size := Nat.lt_of_lt_of_le hb (by decide)
    show booted.used b = true
    rw [booted, mkfsDisk, used_mount hlt]
    revert b
    decide +kernel

end Xv6.Fs
