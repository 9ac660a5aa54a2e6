/-
# Xv6.Fs.Defs — the file system (`kernel/fs.c`).

The state is the super block, the buffer cache in front of the disk, the blocks listed in the log
header, and the inode table.  `buf b` is the data `bread` finds for block `b`: that of its buffer if
the block is cached, that of the disk otherwise.  `log_write` lists a block in `lh`, which pins its
buffer; a buffer that is not listed may be recycled at any time and is then read from the disk again.
How many blocks a transaction can list, and what a commit does to the disk, is the subject of
`Xv6.Log`.

Calls run one at a time, so a spin lock is left out and the sleep lock of an inode is a flag.
`acquiresleep` of a lock that is held would sleep for ever, and the function stops with that message.
There is one device.  A path, a name and the bytes of a directory entry are lists of bytes, and a C
string ends at its first zero byte.
-/
import Xv6.Fs.Layout
import Xv6.Lib.Prog

namespace Xv6.Fs

open Lib Lib.Prog

/-! ## State -/

/-- `struct inode`: what `ilock` reads from the disk, and the fields of the table. -/
structure Inode extends Dinode where
  inum : Nat
  ref : Nat
  valid : Bool
  locked : Bool

/-- A pointer into the inode table. -/
abbrev Ptr := Fin NINODE

structure State where
  sb : Superblock
  buf : Disk
  disk : Disk
  lh : List Nat
  itable : Ptr → Inode

/-- Write fields of an entry of the inode table. -/
def setInode (ip : Ptr) (g : Inode → Inode) : Prog State Unit :=
  modify fun fs => { fs with itable := Function.update fs.itable ip (g (fs.itable ip)) }

/-- Change the data of the buffer of block `b`. -/
def setData (b : Nat) (g : Block → Block) : Prog State Unit :=
  modify fun fs => { fs with buf := Function.update fs.buf b (g (fs.buf b)) }

/-- `log_write`: a block is listed once. -/
def logWrite (b : Nat) : Prog State Unit :=
  modify fun fs => { fs with lh := if b ∈ fs.lh then fs.lh else fs.lh ++ [b] }

/-- Change the data of the buffer of block `b`, and `log_write` it. -/
def logData (b : Nat) (g : Block → Block) : Prog State Unit := do
  setData b g
  logWrite b

/-! ## Blocks -/

/-- Zero a block. -/
def bzero (bno : Nat) : Prog State Unit := logData bno fun _ => zeroBlock

/-- The bit of block `b` in the free map. -/
def State.used (fs : State) (b : Nat) : Bool := testBit (fs.buf (BBLOCK b fs.sb)) (b % BPB)

/-- Allocate a zeroed disk block; 0 if out of disk space.  The two loops of the source look at the bits
of the blocks `0, 1, …, sb.size - 1` in this order. -/
def balloc : Prog State (BitVec 32) := do
  let fs ← get
  match (List.range' 0 fs.sb.size).find? fun b => !fs.used b with
  | some b =>
    logData (BBLOCK b fs.sb) (setBit (b % BPB))
    bzero b
    pure (BitVec.ofNat 32 b)
  | none => pure 0

/-- Free a disk block. -/
def bfree (b : Nat) : Prog State Unit := do
  let fs ← get
  if fs.used b = false then
    stop "freeing free block"
  else
    logData (BBLOCK b fs.sb) (clearBit (b % BPB))

/-! ## Inodes -/

/-- Byte offset of inode `i` in its block. -/
def inodeOff (i : Nat) : Nat := i % IPB * DINODE

/-- The dinode of inode `i` in the (cached) inode block. -/
def State.dinode (fs : State) (i : Nat) : Dinode := .load (fs.buf (IBLOCK i fs.sb)) (inodeOff i)

/-- Write the dinode of inode `i`. -/
def putDinode (i : Nat) (n : Dinode) : Prog State Unit := do
  let sb := (← get).sb
  logData (IBLOCK i sb) (n.store (inodeOff i))

/-- Copy a modified in-memory inode to disk. -/
def iupdate (ip : Ptr) : Prog State Unit := do
  let x := (← get).itable ip
  putDinode x.inum x.toDinode

/-- Find the inode with number `inum` and return the in-memory copy. -/
def iget (inum : Nat) : Prog State Ptr := do
  let fs ← get
  match (List.finRange NINODE).find? fun ip =>
      decide ((fs.itable ip).ref > 0) && decide ((fs.itable ip).inum = inum) with
  | some ip =>
    setInode ip fun x => { x with ref := x.ref + 1 }
    pure ip
  | none =>
    match (List.finRange NINODE).find? fun ip => decide ((fs.itable ip).ref = 0) with
    | none => stop "iget: no inodes"
    | some ip =>
      setInode ip fun x => { x with inum := inum, ref := 1, valid := false }
      pure ip

/-- Allocate an inode, marked as allocated by giving it type `type`. -/
def ialloc (type : BitVec 16) : Prog State (Option Ptr) := do
  let fs ← get
  match (List.range' 1 (fs.sb.ninodes - 1)).find? fun i => (fs.dinode i).type == 0 with
  | some inum =>
    putDinode inum (.fresh type)
    let ip ← iget inum
    pure (some ip)
  | none => pure none

/-- Increment reference count for `ip`. -/
def idup (ip : Ptr) : Prog State Ptr := do
  setInode ip fun x => { x with ref := x.ref + 1 }
  pure ip

/-- `acquiresleep(&ip->lock)`. -/
def acquiresleep (ip : Ptr) : Prog State Unit := do
  if ((← get).itable ip).locked then
    stop "acquiresleep"
  else
    setInode ip fun x => { x with locked := true }

/-- Lock the given inode; reads the inode from disk if necessary. -/
def ilock (ip : Ptr) : Prog State Unit := do
  if ((← get).itable ip).ref < 1 then
    stop "ilock"
  else
    acquiresleep ip
    let fs ← get
    if (fs.itable ip).valid then
      pure ()
    else
      (fs.dinode (fs.itable ip).inum).copy fun n => do
        setInode ip fun x => { x with toDinode := n, valid := true }
        if n.type = 0 then stop "ilock: no type" else pure ()

/-- Unlock the given inode. -/
def iunlock (ip : Ptr) : Prog State Unit := do
  let x := (← get).itable ip
  if x.locked = false ∨ x.ref < 1 then
    stop "iunlock"
  else
    setInode ip fun x => { x with locked := false }

/-! ## Inode content -/

/-- `ip->addrs[k]`, allocating if necessary: what `bmap` does for a direct block and for the indirect
block.  0 if out of disk space. -/
def bmapAddr (ip : Ptr) (k : Fin (NDIRECT + 1)) : Prog State (BitVec 32) := do
  let addr := ((← get).itable ip).addrs k
  if addr = 0 then
    let addr ← balloc
    if addr = 0 then
      pure 0
    else
      setInode ip fun x => { x with toDinode := x.toDinode.setAddr k addr }
      pure addr
  else
    pure addr

/-- Return the disk block address of the nth block in inode `ip`; if there is no such block, allocate
one.  0 if out of disk space. -/
def bmap (ip : Ptr) (bn : Nat) : Prog State (BitVec 32) := do
  if h : bn < NDIRECT then
    bmapAddr ip ⟨bn, by omega⟩
  else if bn - NDIRECT < NINDIRECT then
    let addr ← bmapAddr ip (Fin.last NDIRECT)
    if addr = 0 then
      pure 0
    else
      let a := entry ((← get).buf addr.toNat) (bn - NDIRECT)
      if a = 0 then
        let a ← balloc
        if a = 0 then
          pure 0
        else
          logData addr.toNat (setEntry (bn - NDIRECT) a)
          pure a
      else
        pure a
  else
    stop "bmap: out of range"

/-- The loop of `itrunc` over the direct blocks. -/
def itruncDirect (ip : Ptr) : List (Fin NDIRECT) → Prog State Unit
  | [] => pure ()
  | i :: is => do
    let addr := ((← get).itable ip).addrs i.castSucc
    (if addr = 0 then pure () else do
      bfree addr.toNat
      setInode ip fun x => { x with toDinode := x.toDinode.setAddr i.castSucc 0 })
    itruncDirect ip is

/-- The loop of `itrunc` over the entries of the indirect block `b`. -/
def itruncIndirect (b : Nat) : List Nat → Prog State Unit
  | [] => pure ()
  | j :: js => do
    let a := entry ((← get).buf b) j
    (if a = 0 then pure () else bfree a.toNat)
    itruncIndirect b js

/-- Truncate inode (discard contents). -/
def itrunc (ip : Ptr) : Prog State Unit := do
  itruncDirect ip (List.finRange NDIRECT)
  let addr := ((← get).itable ip).addrs (Fin.last NDIRECT)
  (if addr = 0 then pure () else do
    itruncIndirect addr.toNat (List.range NINDIRECT)
    bfree addr.toNat
    setInode ip fun x => { x with toDinode := x.toDinode.setAddr (Fin.last NDIRECT) 0 })
  setInode ip fun x => { x with size := 0 }
  iupdate ip

/-- Drop a reference to an in-memory inode; if that was the last reference and the inode has no links
to it, free the inode (and its content) on disk. -/
def iput (ip : Ptr) : Prog State Unit := do
  let x := (← get).itable ip
  (if x.ref = 1 ∧ x.valid ∧ x.nlink = 0 then do
    acquiresleep ip
    itrunc ip
    setInode ip fun x => { x with type := 0 }
    iupdate ip
    setInode ip fun x => { x with valid := false }
    setInode ip fun x => { x with locked := false }
  else
    pure ())
  setInode ip fun x => { x with ref := x.ref - 1 }

/-- Unlock, then put. -/
def iunlockput (ip : Ptr) : Prog State Unit := do
  iunlock ip
  iput ip

/-- How many of the `m` bytes from `i` on a copy moves before it comes to one that is not mapped.
`copyin` and `copyout` go page by page and stop at the first page that is not mapped. -/
def mapped (acc : Nat → Bool) (i : Nat) : Nat → Nat
  | 0 => 0
  | m + 1 => if acc i then mapped acc (i + 1) m + 1 else 0

/-- The loop of `readi`: what it returns, and the bytes that it copied out. -/
def readiLoop (ip : Ptr) (dst : Nat → Bool) (n : Nat) :
    (fuel tot off : Nat) → Prog State (Option Nat × List Byte)
  | 0, tot, _ => pure (some tot, [])
  | fuel + 1, tot, off =>
    if tot < n then do
      let addr ← bmap ip (off / BSIZE)
      if addr = 0 then
        pure (some tot, [])
      else
        let blk := (← get).buf addr.toNat
        let m := min (n - tot) (BSIZE - off % BSIZE)
        let c := mapped dst tot m
        let bytes := (List.range c).map fun j => blk.bytes (off % BSIZE + j)
        if c < m then
          pure (none, bytes)
        else
          let (r, rest) ← readiLoop ip dst n fuel (tot + m) (off + m)
          pure (r, bytes ++ rest)
    else
      pure (some tot, [])

/-- Read data from inode: the number returned (`none` is -1), and the bytes copied out.  `dst` says
which bytes of the destination are mapped; all are if it is in the kernel. -/
def readi (ip : Ptr) (dst : Nat → Bool) (off n : Nat) : Prog State (Option Nat × List Byte) := do
  let size := ((← get).itable ip).size.toNat
  if off > size ∨ (off + n) % 2 ^ 32 < off then
    pure (some 0, [])
  else
    let n := if off + n > size then size - off else n
    readiLoop ip dst n n 0 off

/-- A block with `c` bytes copied to offset `o`. -/
def patch (o c : Nat) (src : Nat → Byte) (blk : Block) : Block := fun i =>
  if o ≤ i ∧ i < o + c then src (i - o) else blk i

/-- `either_copyin` of `m` bytes from `src + tot` to offset `o` of the buffer of block `b`; false if it
fails, and then the bytes before the one that is not mapped have been copied. -/
def copyinData (b o : Nat) (src : Nat → Option Byte) (tot m : Nat) : Prog State Bool := do
  let c := mapped (fun i => (src i).isSome) tot m
  setData b (patch o c fun j => (src (tot + j)).getD 0)
  pure (decide (c = m))

/-- The loop of `writei`: the bytes written. -/
def writeiLoop (ip : Ptr) (src : Nat → Option Byte) (n : Nat) :
    (fuel tot off : Nat) → Prog State Nat
  | 0, tot, _ => pure tot
  | fuel + 1, tot, off =>
    if tot < n then do
      let addr ← bmap ip (off / BSIZE)
      if addr = 0 then
        pure tot
      else
        let m := min (n - tot) (BSIZE - off % BSIZE)
        if ← copyinData addr.toNat (off % BSIZE) src tot m then
          logWrite addr.toNat
          writeiLoop ip src n fuel (tot + m) (off + m)
        else
          pure tot
    else
      pure tot

/-- Write data to inode: the number of bytes written, or `none` for -1.  `src` has the bytes of the
source, where it is mapped. -/
def writei (ip : Ptr) (src : Nat → Option Byte) (off n : Nat) : Prog State (Option Nat) := do
  let size := ((← get).itable ip).size.toNat
  if off > size ∨ (off + n) % 2 ^ 32 < off then
    pure none
  else if off + n > MAXFILE * BSIZE then
    pure none
  else
    let tot ← writeiLoop ip src n n 0 off
    let size := ((← get).itable ip).size.toNat
    (if off + tot > size then
      setInode ip fun x => { x with size := BitVec.ofNat 32 (off + tot) }
    else
      pure ())
    iupdate ip
    pure (some tot)

end Xv6.Fs
