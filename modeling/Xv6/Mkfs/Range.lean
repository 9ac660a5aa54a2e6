/-
# Xv6.Mkfs.Range — when the image that `mkfs` builds is within its super block.

`mkfs` stops when it runs out of blocks, since it reads every block before it writes to it and the image
ends where the file system ends.  Nothing stops it when it runs out of inodes: the numbers go on after
`NINODES`, first in the rest of the last inode block and then in the free map.
-/
import Xv6.Mkfs.Main

namespace Xv6.Mkfs

open Lib Lib.Prog List State
open Xv6.Fs hiding State ialloc balloc

variable {inum : BitVec 32} {d : Dinode}

/-! ## The inode numbers -/

/-- What `ialloc` does to the counters. -/
def nextId (p : List Nat × BitVec 32) : List Nat × BitVec 32 := (p.1 ++ [p.2.toNat], p.2 + 1)

theorem nextId_iterate (m : Nat) : nextId^[m] ([], 1) =
    ((range m).map fun k => (BitVec.ofNat 32 (k + 1)).toNat, .ofNat 32 (m + 1)) := by
  induction m with
  | zero => rfl
  | succ m ih =>
    rw [Function.iterate_succ_apply', ih, nextId, range_succ, map_append]
    exact congrArg (Prod.mk _) (BitVec.ofNat_add ..).symm

theorem ids_wsect : Preserves ids (wsect sec buf) :=
  .modify fun _ => rfl

theorem ids_rsect : Preserves ids (rsect sec) :=
  .bind .get fun _ => .ite .pure .stop

theorem ids_winode : Preserves ids (winode inum d) :=
  .bind ids_rsect fun _ => .bind ids_wsect fun _ =>
    .modify fun _ => rfl

theorem ids_rinode : Preserves ids (rinode inum) :=
  .bind ids_rsect fun _ => .pure

theorem ids_nextBlock : Preserves ids nextBlock :=
  .bind .get fun _ => .bind (.modify fun _ => rfl) fun _ =>
    .pure

theorem ids_iappendBlock : Preserves ids (iappendBlock d fbn) := by
  -- both arms of the first test go on with the same program `f`
  have haddr : ∀ {α : Type} {c : Prop} [Decidable c] {k : Fin (NDIRECT + 1)} {f : Dinode → Prog State α},
      (∀ d, Preserves ids (f d)) → Preserves ids
        (if c then d.setAddr k <$> nextBlock >>= f else pure d >>= f) := fun hf =>
    .ite (.bind (.map ids_nextBlock) hf)
      (.bind .pure hf)
  have hread : ∀ {d : Dinode} {x : BitVec 32}, Preserves ids
      (rsect x >>= fun buf => pure (d, x, buf)) :=
    .bind ids_rsect fun _ => .pure
  rw [iappendBlock]
  by_cases hdir : fbn < NDIRECT
  · rw [dif_pos hdir]
    exact haddr fun _ => hread
  · rw [dif_neg hdir]
    refine haddr fun _ => .bind ids_rsect fun _ => .ite ?_ ?_
    · exact .bind ids_nextBlock fun _ => .bind ids_wsect fun _ =>
        .bind .pure fun _ => hread
    · exact .bind .pure fun _ => hread

theorem ids_iappendLoop :
    Preserves ids (iappendLoop fuel d off p) := by
  induction fuel generalizing d off p with
  | zero =>
    rw [iappendLoop]
    exact .pure
  | succ fuel ih =>
    rw [iappendLoop]
    refine .ite .pure (.ite .stop ?_)
    exact .bind ids_iappendBlock fun _ => .bind ids_wsect fun _ => ih

theorem ids_iappend : Preserves ids (iappend inum p) :=
  .bind ids_rinode fun _ => .bind ids_iappendLoop fun _ =>
    ids_winode

theorem ids_copyFile : Preserves ids (copyFile inum ps) := by
  induction ps with
  | nil =>
    rw [copyFile]
    exact .pure
  | cons p ps ih =>
    rw [copyFile]
    exact .ite .pure (.bind ids_iappend fun _ => ih)

theorem ids_zeroSects : Preserves ids (zeroSects fuel i) := by
  induction fuel generalizing i with
  | zero =>
    rw [zeroSects_zero]
    exact .pure
  | succ fuel ih =>
    rw [zeroSects_succ]
    exact .bind ids_wsect fun _ => ih

theorem wlp_ialloc (s : State) :
    wlp (ialloc type) (fun _ s' => s'.ids = nextId s.ids) s := by
  rw [ialloc]
  refine wlp_bind (wp_get (wlp_bind ?_)).wlp
  refine (wp_modify ?_).wlp
  exact wlp_seq (ids_winode _) fun _ s' h => wlp_pure h

/-- The loop over the files takes one inode number for each. -/
theorem wlp_addFiles (s : State) :
    wlp (addFiles rootino args) (fun _ s' => s'.ids = nextId^[args.length] s.ids) s := by
  induction args generalizing s with
  | nil =>
    rw [addFiles]
    exact wlp_pure rfl
  | cons a args ih =>
    have hfile : wlp (addFile rootino a) (fun _ s' => s'.ids = nextId s.ids) s := by
      rw [addFile]
      split
      · exact wlp_stop
      · split
        · exact wlp_stop
        · refine wlp_seq (wlp_ialloc s) fun _ s₁ h1 => ?_
          refine wlp_seq (ids_iappend s₁) fun _ s₂ h2 => ?_
          exact fun _ s₃ h3 => (ids_copyFile s₂ _ s₃ h3).trans (h2.trans h1)
    rw [addFiles]
    refine wlp_seq hfile fun _ s₁ h1 => ?_
    rw [length_cons, Function.iterate_succ_apply, ← h1]
    exact ih s₁

/-- **The numbers** that `mkfs` gives out are one for the root directory and one for each file. -/
theorem wlp_main (args : List Arg) :
    wlp (main args) (fun _ s => s.ids = nextId^[args.length + 1] ([], 1)) start := by
  rw [main]
  refine wlp_seq (ids_zeroSects _) fun _ s₁ h1 => ?_
  refine wlp_seq (ids_wsect s₁) fun _ s₂ h2 => ?_
  refine wlp_seq (wlp_ialloc s₂) fun rootino s₃ h3 => ?_
  split
  · exact wlp_stop
  refine wlp_seq (ids_iappend s₃) fun _ s₄ h4 => ?_
  refine wlp_seq (ids_iappend s₄) fun _ s₅ h5 => ?_
  refine wlp_seq (wlp_addFiles s₅) fun _ s₆ h6 => ?_
  have hfix : Preserves ids (do fixRoot rootino; balloc (← get).freeblock.toNat) :=
    .bind (.bind ids_rinode fun _ => ids_winode) fun _ =>
      .bind .get fun _ => .ite .stop ids_wsect
  intro _ s₇ hrun
  have h7 := hfix s₆ _ s₇ hrun
  have hids : s₅.ids = nextId ([], 1) := by
    rw [h5, h4, h3, h2, h1]
    rfl
  rw [h7, h6, hids, ← Function.iterate_succ_apply]

/-! ## The limits of the super block -/

/-- The block number in slot `k` of inode `i` of an image. -/
def State.slot (s : State) (i k : Nat) : BitVec 32 :=
  (Dinode.load (s.img (IBLOCK i sb)) (inodeOff i)).slot s.img k

/-- Every inode that was allocated and every block that was referenced is one of the super block's, and
inodes were written to the inode area only. -/
structure InRange (s : State) : Prop where
  inodes : ∀ i ∈ s.inodes, i < sb.ninodes
  blocks : ∀ i ∈ s.inodes, ∀ k < NSLOT, s.slot i k ≠ 0 → (s.slot i k).toNat < sb.size
  writes : ∀ b ∈ s.iwrites, sb.inodestart ≤ b ∧ b < sb.bmapstart

section

variable {n : Nat} {t : Files} {s₀ s : State} {v : View}

/-- The slots of an inode of the finished image. -/
theorem Finished.slot (hf : Finished n s₀ v s) (g : Good (sbOf n) v)
    (ha : v.Allocated (sbOf n) i) (k : Nat) : s.slot i k = v.slot i k := by
  rw [State.slot, hf.node i ha.1]
  exact g.slot_congr ha (by split <;> rfl) hf.data k

/-- The blocks and the writes are within their limits whenever the inode numbers are. -/
theorem Finished.inRange (hf : Finished n s₀ v s) (h : Holds n t s₀ v) (hn : n ≤ NINODES) :
    InRange s := by
  have hmem : ∀ i ∈ s.inodes, ∃ j f, t[j]? = some f ∧ i = j + 1 := fun i hi => by
    rw [hf.inodes, h.inodes, mem_range'_1] at hi
    refine ⟨i - 1, t[i - 1], getElem?_eq_getElem _, by omega⟩
  refine ⟨fun i hi => ?_, fun i hi k hk hne => ?_, hf.writes⟩
  · obtain ⟨j, f, hj, rfl⟩ := hmem i hi
    exact Nat.lt_of_lt_of_le (h.allocated hj).1 hn
  · obtain ⟨j, f, hj, rfl⟩ := hmem i hi
    rw [hf.slot h.good (h.allocated hj)] at hne ⊢
    exact (h.good.slot_data (h.allocated hj) hk hne).2

end

theorem mkfs_eq_ok :
    mkfs args = .ok s ↔ main args start = .ok ((), s) := by
  rw [mkfs]
  cases main args start with
  | error e => exact ⟨fun h => (nomatch h), fun h => (nomatch h)⟩
  | ok r => exact ⟨fun h => by cases h; rfl, fun h => by cases h; rfl⟩

end Xv6.Mkfs
