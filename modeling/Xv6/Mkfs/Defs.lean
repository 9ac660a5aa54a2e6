/-
# Xv6.Mkfs.Defs — the program that makes a file system image (`mkfs/mkfs.c`).

`mkfs` zeroes an image of `FSSIZE` sectors, gives out inode numbers and block numbers by counting, and
writes each file with `iappend`.  An image file is a disk and the number of its sectors: `read` past
the end of the file does not deliver a block, and then `mkfs` dies.  `xint` and `xshort` put numbers
into the byte order of RISC-V, which is the one that `Dinode.store` and `Block.store` have.

Next to the variables of the program the state has a history: the inode numbers that `ialloc` gave out
and the sectors that `winode` wrote.
-/
import Xv6.Fs.Names

namespace Xv6.Mkfs

open Lib Lib.Prog
open Xv6.Fs hiding State ialloc balloc

/-! ## Constants -/

/-- Size of file system in blocks. -/
def FSSIZE : Nat := 2000
/-- Number of inodes. -/
def NINODES : Nat := 200
/-- Blocks of the free bit map. -/
def nbitmap : Nat := FSSIZE / (BSIZE * 8) + 1
/-- Blocks of inodes. -/
def ninodeblocks : Nat := NINODES / IPB + 1
/-- Number of meta blocks (boot, sb, nlog, inode, bitmap). -/
def nmeta : Nat := 2 + nlog + ninodeblocks + nbitmap
/-- Number of data blocks. -/
def nblocks : Nat := FSSIZE - nmeta

/-- The super block. -/
def sb : Superblock where
  size := FSSIZE
  nblocks := nblocks
  ninodes := NINODES
  nlog := nlog
  logstart := 2
  inodestart := 2 + nlog
  bmapstart := 2 + nlog + ninodeblocks

/-- The block with the super block in it. -/
def sbBlock : Block :=
  [FSMAGIC, .ofNat 32 sb.size, .ofNat 32 sb.nblocks, .ofNat 32 sb.ninodes, .ofNat 32 sb.nlog,
    .ofNat 32 sb.logstart, .ofNat 32 sb.inodestart, .ofNat 32 sb.bmapstart].zipIdx.foldl
    (fun blk f => setEntry f.2 f.1 blk) zeroBlock

/-! ## The state -/

/-- The image file and the counters. -/
structure State where
  img : Disk
  /-- The number of sectors of the image file. -/
  len : Nat
  freeinode : BitVec 32
  freeblock : BitVec 32
  /-- The inode numbers that `ialloc` returned. -/
  inodes : List Nat
  /-- The sectors that `winode` wrote. -/
  iwrites : List Nat

/-- The state when `main` has opened the image file, which is empty. -/
def State.start : State := ⟨fun _ => zeroBlock, 0, 1, .ofNat 32 nmeta, [], []⟩

/-! ## Sectors -/

/-- The sector at the offset `sec * BSIZE`, which is an `uint`. -/
def sector (sec : BitVec 32) : Nat := (sec * .ofNat 32 BSIZE).toNat / BSIZE

def wsect (sec : BitVec 32) (buf : Block) : Prog State Unit :=
  modify fun s =>
    { s with img := Function.update s.img (sector sec) buf, len := max s.len (sector sec + 1) }

def rsect (sec : BitVec 32) : Prog State Block := do
  let s ← get
  if sector sec < s.len then pure (s.img (sector sec)) else stop "read"

/-! ## Inodes -/

/-- `IBLOCK(inum, sb)`, as an `uint`. -/
def inodeSector (inum : BitVec 32) : BitVec 32 := .ofNat 32 (IBLOCK inum.toNat sb)

def winode (inum : BitVec 32) (ip : Dinode) : Prog State Unit := do
  let bn := inodeSector inum
  let buf ← rsect bn
  wsect bn (ip.store (inodeOff inum.toNat) buf)
  modify fun s => { s with iwrites := s.iwrites ++ [sector bn] }

def rinode (inum : BitVec 32) : Prog State Dinode := do
  let buf ← rsect (inodeSector inum)
  pure (.load buf (inodeOff inum.toNat))

def ialloc (type : BitVec 16) : Prog State (BitVec 32) := do
  let inum := (← get).freeinode
  modify fun s => { s with freeinode := inum + 1, inodes := s.inodes ++ [inum.toNat] }
  winode inum { Dinode.fresh type with nlink := 1 }
  pure inum

/-- `freeblock++`. -/
def nextBlock : Prog State (BitVec 32) := do
  let b := (← get).freeblock
  modify fun s => { s with freeblock := b + 1 }
  pure b

/-- The part of the loop of `iappend` that finds the number of block `fbn`, which it allocates if there
is none, and reads the block. -/
def iappendBlock (din : Dinode) (fbn : Nat) : Prog State (Dinode × BitVec 32 × Block) := do
  if h : fbn < NDIRECT then
    let k : Fin (NDIRECT + 1) := ⟨fbn, Nat.lt_succ_of_lt h⟩
    let din ← if din.addrs k = 0 then din.setAddr k <$> nextBlock else pure din
    let x := din.addrs k
    pure (din, x, ← rsect x)
  else
    let k := Fin.last NDIRECT
    let din ← if din.addrs k = 0 then din.setAddr k <$> nextBlock else pure din
    let indirect ← rsect (din.addrs k)
    let x ←
      if entry indirect (fbn - NDIRECT) = 0 then do
        let b ← nextBlock
        wsect (din.addrs k) (setEntry (fbn - NDIRECT) b indirect)
        pure b
      else
        pure (entry indirect (fbn - NDIRECT))
    pure (din, x, ← rsect x)

/-- The loop of `iappend`, with the bytes that are still to be appended. -/
def iappendLoop : (fuel : Nat) → Dinode → (off : Nat) → List Byte → Prog State (Dinode × Nat)
  | 0, din, off, _ => pure (din, off)
  | fuel + 1, din, off, p =>
    if p.length = 0 then
      pure (din, off)
    else do
      let fbn := off / BSIZE
      if ¬fbn < MAXFILE then
        stop "fbn < MAXFILE"
      else
        let (din, x, buf) ← iappendBlock din fbn
        let n1 := min p.length ((fbn + 1) * BSIZE - off)
        wsect x (patch (off - fbn * BSIZE) n1 (fun j => p.getD j 0) buf)
        iappendLoop fuel din (off + n1) (p.drop n1)

/-- Append the bytes `p` to inode `inum`.  Every turn of the loop appends a byte or more. -/
def iappend (inum : BitVec 32) (p : List Byte) : Prog State Unit := do
  let din ← rinode inum
  let (din, off) ← iappendLoop p.length din din.size.toNat p
  winode inum { din with size := .ofNat 32 off }

/-- The bit map in which the first `used` blocks are used. -/
def usedMap (used : Nat) : Block := (List.range used).foldl (fun buf i => setBit i buf) zeroBlock

def balloc (used : Nat) : Prog State Unit :=
  if ¬used < BSIZE * 8 then stop "used < BSIZE*8" else wsect (.ofNat 32 sb.bmapstart) (usedMap used)

/-! ## The program -/

/-- A file on the command line: its path, and the pieces in which `read` delivers its bytes; none if it
cannot be opened. -/
structure Arg where
  path : List Byte
  file : Option (List (List Byte))

/-- `"user/"` -/
def userDir : List Byte := [0x75, 0x73, 0x65, 0x72, 0x2f]
/-- The leading byte of the names that the build gives to binaries. -/
def underscore : Byte := 0x5f

namespace Arg

/-- Get rid of `"user/"`. -/
def shortname (a : Arg) : List Byte :=
  if strncmp userDir.length (cstr a.path) userDir = 0 then (cstr a.path).drop userDir.length
  else cstr a.path

/-- Skip a leading `_` when writing to the file system. -/
def name (a : Arg) : List Byte :=
  if a.shortname.headD 0 = underscore then a.shortname.tail else a.shortname

end Arg

/-- `while((cc = read(fd, buf, sizeof(buf))) > 0) iappend(inum, buf, cc)`. -/
def copyFile (inum : BitVec 32) : List (List Byte) → Prog State Unit
  | [] => pure ()
  | p :: ps => if p.length = 0 then pure () else do
    iappend inum p
    copyFile inum ps

/-- `de` with `inum` and `name`, as bytes. -/
def direntBytes (inum : BitVec 32) (name : List Byte) : List Byte :=
  (Dirent.mk (inum.setWidth 16) (strncpy DIRSIZ name)).toBytes

/-- The body of the loop over the files. -/
def addFile (rootino : BitVec 32) (a : Arg) : Prog State Unit :=
  if slash ∈ a.shortname then stop "index(shortname, '/') == 0" else
  match a.file with
  | none => stop "open"
  | some ps => do
    let inum ← ialloc T_FILE
    iappend rootino (direntBytes inum a.name)
    copyFile inum ps

/-- The loop over the files. -/
def addFiles (rootino : BitVec 32) : List Arg → Prog State Unit
  | [] => pure ()
  | a :: as => do
    addFile rootino a
    addFiles rootino as

/-- `for(i = 0; i < FSSIZE; i++) wsect(i, zeroes)`, from `i` on. -/
def zeroSects : (fuel i : Nat) → Prog State Unit
  | 0, _ => pure ()
  | fuel + 1, i => do
    wsect (.ofNat 32 i) zeroBlock
    zeroSects fuel (i + 1)

theorem zeroSects_zero (i : Nat) : zeroSects 0 i = pure () := rfl

theorem zeroSects_succ (fuel i : Nat) :
    zeroSects (fuel + 1) i = wsect (.ofNat 32 i) zeroBlock >>= fun _ => zeroSects fuel (i + 1) := rfl

-- the loop is used through these two equations, and not run on `FSSIZE`
attribute [irreducible] zeroSects

/-- Fix size of root inode dir. -/
def fixRoot (rootino : BitVec 32) : Prog State Unit := do
  let din ← rinode rootino
  winode rootino { din with size := .ofNat 32 ((din.size.toNat / BSIZE + 1) * BSIZE) }

def main (args : List Arg) : Prog State Unit := do
  zeroSects FSSIZE 0
  wsect 1 sbBlock
  let rootino ← ialloc T_DIR
  if rootino.toNat ≠ ROOTINO then
    stop "rootino == ROOTINO"
  else
    iappend rootino (direntBytes rootino dot)
    iappend rootino (direntBytes rootino dotdot)
    addFiles rootino args
    fixRoot rootino
    balloc (← get).freeblock.toNat

/-- The image that `mkfs` makes, or the message it dies with. -/
def mkfs (args : List Arg) : Except String State := (main args State.start).map Prod.snd

end Xv6.Mkfs
