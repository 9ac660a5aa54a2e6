/-
# Xv6.Param — the constants of `kernel/param.h` and `kernel/fs.h`.

Names follow the headers; only the constants that a modelled function reads are here.
-/
namespace Xv6

/-! ## `kernel/param.h` -/

/-- Maximum number of processes. -/
def NPROC : Nat := 64

theorem NPROC_pos : 0 < NPROC := by decide

theorem one_lt_NPROC : 1 < NPROC := by decide

/-- Open files per process. -/
def NOFILE : Nat := 16
/-- Open files per system. -/
def NFILE : Nat := 100
/-- Maximum number of active i-nodes. -/
def NINODE : Nat := 50

theorem NINODE_pos : 0 < NINODE := by decide

/-- Maximum number of exec arguments. -/
def MAXARG : Nat := 32
/-- Maximum number of blocks any file-system operation writes. -/
def MAXOPBLOCKS : Nat := 10
/-- Maximum number of data blocks in the on-disk log. -/
def LOGSIZE : Nat := MAXOPBLOCKS * 3
/-- Size of the disk block cache. -/
def NBUF : Nat := MAXOPBLOCKS * 3
/-- Maximum file path name. -/
def MAXPATH : Nat := 128

/-! ## `kernel/fs.h` -/

/-- Block size in bytes. -/
def BSIZE : Nat := 1024

/-! ## `mkfs/mkfs.c` -/

/-- The number of log blocks that `mkfs` writes into the superblock, header block included. -/
def nlog : Nat := LOGSIZE

end Xv6
