/-
# Xv6.Fs.Refine — the contents of an inode are a byte string.

Above blocks, a locked inode is a list of bytes: `writei` overwrites a part of it and `readi` returns a
part of it, and neither changes another inode.  This needs the blocks outside the data area to be marked
as used.  Where an inode block is marked as free, `balloc` hands it out and zeroes it.
-/
import Xv6.Fs.Content
import Xv6.Fs.Image

namespace Xv6.Fs

open Lib Lib.Prog Dinode

variable {fs fs' : State} {v v' : View} {ip : Ptr} {i off n tot : Nat}

/-! ## The refinement -/

/-- Between calls, the copy in an entry is the dinode. -/
theorem Wrote.shows {src : Nat → Option Byte} (w : Wrote ip i src off n fs v tot k fs' v')
    (hi : (fs.itable ip).inum = i) (hlt : i < fs.sb.ninodes) : Shows fs' (some ip) v' := by
  refine w.after.enter ?_
  rw [w.frame.inum, hi, w.copy]
  exact (w.after.node i (by rw [w.frame.sb]; exact hlt)).symm

/-- The contents after a `writei` that reported all it copied. -/
theorem Wrote.content {src : Nat → Option Byte} (w : Wrote ip i src off n fs v tot 0 fs' v')
    (ha : v.Allocated fs.sb i) (hoff : off ≤ v.size i) :
    v'.content i = splice (v.content i) off (sourceBytes src tot) := by
  have hlen : off ≤ (v.content i).length := by rwa [View.length_content]
  rw [w.content_eq ha, Nat.add_zero]
  refine List.take_of_length_le ?_
  rw [length_splice hlen, View.length_content, sourceBytes, List.length_map, List.length_range]

/-- The root directory after `ilock`. -/
def lockedRoot : Inode := { noInode with toDinode := rootDinode, inum := ROOTINO, ref := 1,
                                         valid := true, locked := true }

/-- The file system with the root directory locked. -/
def rootLocked : State := mount mkfsDisk fun _ => lockedRoot

theorem rootLocked_dinode : rootLocked.dinode ROOTINO = rootDinode :=
  (dinode_mount (by decide)).trans (load_store _ _ (by decide))

theorem rootLocked_shows : Shows rootLocked (some rootPtr) booted.view := by
  have h : Shows rootLocked none booted.view := shows_view rootLocked
  exact h.enter rootLocked_dinode.symm

theorem rootLocked_allocated : booted.view.Allocated mkfsSb ROOTINO := by
  refine ⟨by decide, ?_⟩
  show (rootLocked.dinode ROOTINO).type ≠ 0
  rw [rootLocked_dinode]
  decide

/-- A free map in which of the blocks below the data area only the first 32 are marked as used. -/
def holedMap : Block := fun i => if i.val < 4 then 0xff else if i.val = 5 then 0x40 else 0

/-- An empty file with one link. -/
def emptyFile : Dinode := { Dinode.fresh T_FILE with nlink := 1 }

/-- The empty file is inode 2, and it is open and locked. -/
def holed : State :=
  mount (rootDisk holedMap (emptyFile.store 128 rootInodes)) fun _ =>
    { noInode with toDinode := emptyFile, inum := 2, ref := 1, valid := true, locked := true }

theorem holed_ownership : BlockOwnership mkfsSb holed.view := by
  refine mount_ownership ?_ (fun i hi hne => ?_) (by decide +kernel)
  · rw [load_store_of_disjoint _ _ (by decide) (.inr (by decide))]
    exact load_store _ _ (by decide)
  · rw [IPB_eq] at hi
    have hne : i ≠ 1 := hne
    by_cases h2 : i = 2
    · subst h2
      exact ⟨_, _, _, _, load_store _ _ (by decide)⟩
    · have ho : i * DINODE + DINODE ≤ BSIZE := by
        rw [DINODE, BSIZE_eq]
        omega
      rw [load_store_of_disjoint _ _ ho (by rw [DINODE]; omega), rootInodes,
        Dinode.load_store_of_disjoint _ _ ho (by rw [DINODE]; omega), Dinode.load_zeroBlock]
      exact ⟨_, _, _, _, rfl⟩

end Xv6.Fs
