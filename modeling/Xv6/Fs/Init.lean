/-
# Xv6.Fs.Init — `fsinit`: the super block is read and the log recovered.

After a boot nothing is cached.  `fsinit` takes the super block from block 1 and panics unless it starts
with the magic number; `initlog` then runs the recovery of `Xv6.Log`, which does nothing but clear the
header if the log is empty.
-/
import Xv6.Fs.Image
import Xv6.Log.Crash

namespace Xv6.Fs

open Machine

/-- Read the super block: its magic number and the rest. -/
def readsb (m : Machine) : BitVec 32 × Superblock :=
  let f := fun k => entry (m.data 1) k
  (f 0, ⟨(f 1).toNat, (f 2).toNat, (f 3).toNat, (f 4).toNat, (f 5).toNat, (f 6).toNat, (f 7).toNat⟩)

/-- Init fs, on a machine that has just booted. -/
def fsinit (lru : Bcache → Nat → Option Nat) (disk : Disk) (itable : Ptr → Inode) :
    Except String State :=
  let m := (boot disk).bread lru 1
  let (magic, sb) := readsb m
  let m := m.brelse 1
  if magic ≠ FSMAGIC then
    .error "invalid file system"
  else
    let (log, m) := recoverFromLog lru ⟨sb.logstart, sb.nlog, 0, false, []⟩ m
    .ok ⟨sb, m.data, m.disk, log.lh.map BitVec.toNat, itable⟩

/-- The entries of the inode table when the first process starts: its current directory is the root. -/
def bootTable : Ptr → Inode := fun ip =>
  if ip = rootPtr then { noInode with inum := ROOTINO, ref := 1 } else noInode

/-- **`fsinit`** of a disk whose log is empty: every block outside the log header is found as it is on
the disk. -/
theorem fsinit_of_clear (lru : Bcache → Nat → Option Nat) (disk : Disk) (itable : Ptr → Inode)
    (hsb : readsb (boot disk) = (FSMAGIC, sb)) (hlog : headN (disk sb.logstart) = 0) :
    ∃ fs, fsinit lru disk itable = .ok fs ∧ fs.sb = sb ∧ fs.itable = itable ∧ fs.lh = [] ∧
      ∀ b, b ≠ sb.logstart → fs.buf b = disk b ∧ fs.disk b = disk b := by
  set m1 := ((boot disk).bread lru 1).brelse 1 with hm1
  have hclean : ∀ b, Machine.Clean m1 b (disk b) := fun b => (clean_boot disk b).bread.brelse
  have hdata : ((boot disk).bread lru 1).data 1 = (boot disk).data 1 :=
    ((clean_boot disk 1).bread).data.trans (clean_boot disk 1).data.symm
  have hread : readsb ((boot disk).bread lru 1) = (FSMAGIC, sb) := by
    rw [← hsb, readsb, readsb, hdata]
  set log : Log := ⟨sb.logstart, sb.nlog, 0, false, []⟩ with hlogdef
  have hhead : getHead ((m1.bread lru log.start).data log.start) = [] := by
    rw [((hclean log.start).bread).data, getHead, hlog]
    rfl
  have hrec : recoverFromLog lru log m1 =
      (log, writeHead lru log ((m1.bread lru log.start).brelse log.start)) := by
    rw [recoverFromLog, readHead, hhead]
    rfl
  set m2 := writeHead lru log ((m1.bread lru log.start).brelse log.start) with hm2
  have hrun : fsinit lru disk itable = .ok ⟨sb, m2.data, m2.disk, [], itable⟩ := by
    rw [fsinit, hread]
    dsimp only
    rw [if_neg (not_not.mpr rfl), ← hm1, ← hlogdef, hrec]
    rfl
  refine ⟨_, hrun, rfl, rfl, rfl, fun b hb => ?_⟩
  have hkeep : Keeps {log.start} ((m1.bread lru log.start).brelse log.start) m2 :=
    keeps_writeHead log _
  have hc := hkeep.clean b _ (Set.mem_singleton_iff.not.mpr hb) (hclean b).bread.brelse
  exact ⟨hc.data, hc.1⟩

end Xv6.Fs
