/-
# Xv6.Log.Redo — the physical redo log (`kernel/log.c`).

The on-disk log is a header block at `log.start`, which lists the home block numbers of a committed
transaction, followed by one log block for each of them.  `commit` copies the modified blocks from
the cache to the log, writes the header, copies the log to the home locations and clears the header;
`recoverFromLog` runs the last two steps from whatever header it finds after a boot.

The functions below are the source's, loop for loop; a buffer is named by the number of the block it
holds.  What they do to the disk is the list of block writes they issue; `Xv6.Log.Crash` has it in closed
form (`commit_writes`, `recoveryWrites_eq`).
-/
import Xv6.Bio
import Mathlib.Data.List.Zip

namespace Xv6

open Lib Machine

/-- A block number as the log header stores it (`int block[LOGSIZE]`). -/
abbrev BlockNo := BitVec 32

/-- `struct log`, less its lock and device number.  `lh` is `lh.block[0 .. lh.n)`. -/
structure Log where
  start : Nat
  size : Nat
  outstanding : Int
  committing : Bool
  lh : List BlockNo

/-- The blocks that the on-disk log occupies, header included. -/
def Log.InArea (log : Log) (b : Nat) : Prop := log.start ≤ b ∧ b < log.start + log.size

/-! ## The header block -/

/-- `hb->block[i] = log.lh.block[i]`, from index `i` on. -/
def putBlocks : Nat → List BlockNo → Block → Block
  | _, [], hb => hb
  | i, b :: bs, hb => putBlocks (i + 1) bs (hb.store 4 (4 + 4 * i) b)

/-- The header block after `write_head` has filled in `n` and `block[0 .. n)`; the rest of the block
keeps what the buffer held. -/
def putHead (lh : List BlockNo) (hb : Block) : Block :=
  putBlocks 0 lh (hb.store 4 0 (BitVec.ofNat 32 lh.length))

/-- The number of logged blocks that a header block announces. -/
def headN (hb : Block) : Int := (hb.load 4 0 : BitVec 32).toInt

/-- What `read_head` copies out of the header block. -/
def getHead (hb : Block) : List BlockNo :=
  (List.range (headN hb).toNat).map fun i => hb.load 4 (4 + 4 * i)

/-! ## The functions of `log.c` -/

section
variable (lru : Bcache → Nat → Option Nat)

/-- One turn of the loop of `install_trans`. -/
def installBlock (log : Log) (recovering : Bool) (tail : Nat) (b : BlockNo) (m : Machine) : Machine :=
  let m := m.bread lru (log.start + tail + 1)
  let m := m.bread lru b.toNat
  let m := m.setData b.toNat fun _ => m.data (log.start + tail + 1)
  let m := m.bwrite b.toNat
  let m := if recovering then m else m.bunpin b.toNat
  let m := m.brelse (log.start + tail + 1)
  m.brelse b.toNat

/-- The loop of `install_trans`, from index `tail` on. -/
def installFrom (log : Log) (recovering : Bool) : Nat → List BlockNo → Machine → Machine
  | _, [], m => m
  | tail, b :: bs, m =>
    installFrom log recovering (tail + 1) bs (installBlock lru log recovering tail b m)

/-- `install_trans`: copy committed blocks from log to their home location. -/
def installTrans (log : Log) (recovering : Bool) (m : Machine) : Machine :=
  installFrom lru log recovering 0 log.lh m

/-- `read_head`: read the log header from disk into the in-memory log header. -/
def readHead (log : Log) (m : Machine) : Log × Machine :=
  let m := m.bread lru log.start
  ({ log with lh := getHead (m.data log.start) }, m.brelse log.start)

/-- `write_head`: write in-memory log header to disk. -/
def writeHead (log : Log) (m : Machine) : Machine :=
  let m := m.bread lru log.start
  let m := m.setData log.start (putHead log.lh)
  let m := m.bwrite log.start
  m.brelse log.start

/-- `recover_from_log`. -/
def recoverFromLog (log : Log) (m : Machine) : Log × Machine :=
  let (log, m) := readHead lru log m
  let m := installTrans lru log true m
  let log := { log with lh := [] }
  (log, writeHead lru log m)

/-- One turn of the loop of `write_log`. -/
def writeLogBlock (log : Log) (tail : Nat) (b : BlockNo) (m : Machine) : Machine :=
  let m := m.bread lru (log.start + tail + 1)
  let m := m.bread lru b.toNat
  let m := m.setData (log.start + tail + 1) fun _ => m.data b.toNat
  let m := m.bwrite (log.start + tail + 1)
  let m := m.brelse b.toNat
  m.brelse (log.start + tail + 1)

/-- The loop of `write_log`, from index `tail` on. -/
def writeLogFrom (log : Log) : Nat → List BlockNo → Machine → Machine
  | _, [], m => m
  | tail, b :: bs, m => writeLogFrom log (tail + 1) bs (writeLogBlock lru log tail b m)

/-- `write_log`: copy modified blocks from cache to log. -/
def writeLog (log : Log) (m : Machine) : Machine := writeLogFrom lru log 0 log.lh m

/-- `commit`. -/
def commit (log : Log) (m : Machine) : Log × Machine :=
  if log.lh.length > 0 then
    let m := writeLog lru log m
    let m := writeHead lru log m
    let m := installTrans lru log false m
    let log := { log with lh := [] }
    (log, writeHead lru log m)
  else (log, m)

end

/-! ## The header round trip -/

theorem putBlocks_load
    (hc : c + 4 ≤ 4 + 4 * i ∨ 4 + 4 * (i + lh.length) ≤ c) (hlt : c + 4 ≤ BSIZE) :
    (putBlocks i lh hb).load 4 c = hb.load 4 c := by
  induction lh generalizing i hb with
  | nil => rfl
  | cons b bs ih =>
    rw [List.length_cons] at hc
    rw [putBlocks, ih (by omega), Block.load_store_of_disjoint _ _ hlt (by omega)]

theorem putBlocks_get (i : Nat) (hb : Block) (hj : j < lh.length)
    (hlt : 4 + 4 * (i + lh.length) ≤ BSIZE) :
    (putBlocks i lh hb).load 4 (4 + 4 * (i + j)) = lh[j] := by
  induction lh generalizing i j hb with
  | nil => exact absurd hj (Nat.not_lt_zero j)
  | cons b bs ih =>
    rw [List.length_cons] at hj hlt
    rw [putBlocks]
    cases j with
    | zero =>
      rw [putBlocks_load (by omega) (by omega)]
      exact Block.load_store _ _ (by omega)
    | succ j =>
      rw [show i + (j + 1) = i + 1 + j by omega]
      exact ih _ _ (by omega) (by omega)

section
variable {lh : List BlockNo} (hb : Block) (hlen : lh.length ≤ LOGSIZE)
include hlen

theorem headN_putHead : headN (putHead lh hb) = lh.length := by
  have hL : lh.length ≤ 30 := hlen
  rw [headN, putHead, putBlocks_load (by omega) (by unfold BSIZE; omega),
    Block.load_store _ _ (by unfold BSIZE; omega)]
  rw [BitVec.toInt_eq_toNat_of_lt] <;> rw [BitVec.toNat_ofNat, Nat.mod_eq_of_lt] <;> omega

/-- **The header round trip.** What `write_head` stored, `read_head` reads. -/
theorem getHead_putHead : getHead (putHead lh hb) = lh := by
  have hL : lh.length ≤ 30 := hlen
  rw [getHead, headN_putHead hb hlen, Int.toNat_natCast]
  apply List.ext_getElem
  · simp
  · intro j h1 h2
    rw [List.getElem_map, List.getElem_range, putHead]
    have := putBlocks_get 0 (hb.store 4 0 (BitVec.ofNat 32 lh.length)) h2 (by unfold BSIZE; omega)
    simpa using this

end

theorem getHead_of_zero (h : headN hb = 0) : getHead hb = [] := by
  simp [getHead, h]

end Xv6
