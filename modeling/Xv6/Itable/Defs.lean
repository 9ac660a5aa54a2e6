/-
# Xv6.Itable.Defs — the inode table under concurrent use (`kernel/fs.c`).

`Xv6.Fs` runs one call at a time.  Here any number of processes are in `iget`, `idup`, `ilock`, `iunlock`,
`iput` and `ialloc` at the same time.  A step is a stretch with `itable.lock` held, a stretch with the lock
of a buffer held, or a statement under the sleep-lock of an inode; a process that finds a sleep-lock held
is refused the step until the lock is given back.

A reference has a holder: a local variable, a current directory or a `struct file`, so that one process
may drop what another one obtained.  `refs` lists the references that were obtained and not dropped,
`users` the processes between `ilock` and `iunlock`, and `dirty` the entries that were changed since the
last `iupdate`.  The code does not have these three: they say which calls the rest of the kernel makes.
-/
import Xv6.Fs.Disk
import Xv6.Lib.Trace

namespace Xv6.Itable

open Lib Function
open Xv6.Fs (Dinode Superblock Ptr IBLOCK inodeOff)

/-- A device and an inode number on it. -/
abbrev Id := BitVec 32 × Nat

/-- `struct inode`, without its sleep-lock. -/
structure Entry extends Dinode where
  dev : BitVec 32
  inum : Nat
  ref : Nat
  valid : Bool

def Entry.id (x : Entry) : Id := (x.dev, x.inum)

/-- Where in `ilock` a process is. -/
inductive IlockAt where
  /-- At `acquiresleep`. -/
  | acquire
  /-- At the test of `ip->valid`. -/
  | check
  /-- At `ip->valid = 1`. -/
  | loaded
  deriving DecidableEq

/-- Where in `iput` a process is, after it has found that it frees the inode. -/
inductive IputAt where
  /-- In `itrunc`. -/
  | trunc
  /-- At the `iupdate` of `itrunc`. -/
  | update
  /-- At `ip->type = 0`. -/
  | clear
  /-- At `iupdate`. -/
  | free
  /-- At `ip->valid = 0`. -/
  | invalidate
  /-- At `releasesleep`. -/
  | release
  /-- At the second `acquire(&itable.lock)`. -/
  | drop
  deriving DecidableEq

variable {P H : Type}

/-- Where a process is. -/
inductive Pc (H : Type) where
  /-- In none of the functions. -/
  | idle
  | ilock (ip : Ptr) (st : IlockAt)
  /-- At the `bread` of inode `inum` in the loop of `ialloc`. -/
  | ialloc (h : H) (dev : BitVec 32) (type : BitVec 16) (inum : Nat)
  /-- At the `iget` of `ialloc`. -/
  | found (h : H) (dev : BitVec 32) (inum : Nat)
  | iput (ip : Ptr) (st : IputAt)
  deriving DecidableEq

/-- Why a step does not happen: it has to wait or nobody asks for it, or it panics. -/
inductive Fault where
  | refused
  | panic (msg : String)
  deriving DecidableEq

structure State (P H : Type) where
  sb : Superblock
  /-- The blocks of the devices, as `bread` finds them. -/
  buf : BitVec 32 → Disk
  itable : Ptr → Entry
  /-- Who holds `ip->lock`. -/
  lock : Ptr → Option P
  pc : P → Pc H
  refs : List (H × Ptr)
  users : List (P × Ptr)
  dirty : Ptr → Bool

/-- What a process can do. -/
inductive Act (P H : Type) where
  | iget (p : P) (h : H) (dev : BitVec 32) (inum : Nat)
  | idup (p : P) (h : H) (ip : Ptr)
  | ilock (p : P) (ip : Ptr)
  /-- Change fields of an inode that is locked.  Nothing but `iput` writes `ip->type`. -/
  | write (p : P) (ip : Ptr) (n : Dinode)
  | iupdate (p : P) (ip : Ptr)
  | iunlock (p : P) (ip : Ptr)
  | iput (p : P) (h : H) (ip : Ptr)
  | ialloc (p : P) (h : H) (dev : BitVec 32) (type : BitVec 16)
  /-- The next step of the function that the process is in. -/
  | go (p : P)

/-- Who acts. -/
def Act.proc : Act P H → P
  | .iget p .. | .idup p .. | .ilock p .. | .write p .. | .iupdate p .. | .iunlock p .. | .iput p ..
  | .ialloc p .. | .go p => p

namespace State

/-- The dinode in the (cached) inode block. -/
def dinode (s : State P H) (i : Id) : Dinode := .load (s.buf i.1 (IBLOCK i.2 s.sb)) (inodeOff i.2)

/-- Write a dinode to its block. -/
def putDinode (s : State P H) (i : Id) (n : Dinode) : State P H :=
  { s with buf := update s.buf i.1 (update (s.buf i.1) (IBLOCK i.2 s.sb)
      (n.store (inodeOff i.2) (s.buf i.1 (IBLOCK i.2 s.sb)))) }

def setEntry (s : State P H) (ip : Ptr) (x : Entry) : State P H :=
  { s with itable := update s.itable ip x }

/-- The number of references to an entry. -/
def held (s : State P H) (ip : Ptr) : Nat := s.refs.countP fun r => r.2 = ip

/-- Copy a modified in-memory inode to disk. -/
def iupdate (s : State P H) (ip : Ptr) : State P H :=
  s.putDinode (s.itable ip).id (s.itable ip).toDinode

/-- Find the inode and return the in-memory copy, as a reference of `h`. -/
def iget (s : State P H) (h : H) (dev : BitVec 32) (inum : Nat) : Except Fault (State P H) :=
  match (List.finRange NINODE).find? fun ip =>
      decide ((s.itable ip).ref > 0) && decide ((s.itable ip).id = (dev, inum)) with
  | some ip =>
    .ok { s.setEntry ip { s.itable ip with ref := (s.itable ip).ref + 1 } with refs := (h, ip) :: s.refs }
  | none =>
    match (List.finRange NINODE).find? fun ip => decide ((s.itable ip).ref = 0) with
    | none => .error (.panic "iget: no inodes")
    | some ip =>
      .ok { s.setEntry ip { s.itable ip with dev, inum, ref := 1, valid := false } with
        refs := (h, ip) :: s.refs }

variable [DecidableEq P] [DecidableEq H]

def goto (s : State P H) (p : P) (pc : Pc H) : State P H := { s with pc := update s.pc p pc }

def setLock (s : State P H) (ip : Ptr) (o : Option P) : State P H :=
  { s with lock := update s.lock ip o }

/-- The first stretch of `iput`.  `acquiresleep` must not wait here, with `itable.lock` held. -/
def iput (s : State P H) (p : P) (ip : Ptr) : Except Fault (State P H) :=
  let x := s.itable ip
  if x.ref = 1 ∧ x.valid ∧ x.nlink = 0 then
    if s.lock ip = none then .ok ((s.setLock ip (some p)).goto p (.iput ip .trunc))
    else .error (.panic "sched locks")
  else .ok (s.setEntry ip { x with ref := x.ref - 1 })

/-- A step of `ilock`. -/
def ilockStep (s : State P H) (p : P) (ip : Ptr) : IlockAt → Except Fault (State P H)
  | .acquire =>
    if s.lock ip = none then .ok ((s.setLock ip (some p)).goto p (.ilock ip .check))
    else .error .refused
  | .check =>
    if (s.itable ip).valid then .ok (s.goto p .idle)
    else
      .ok ((s.setEntry ip { s.itable ip with toDinode := s.dinode (s.itable ip).id }).goto p
        (.ilock ip .loaded))
  | .loaded =>
    if (s.itable ip).type = 0 then .error (.panic "ilock: no type")
    else .ok ((s.setEntry ip { s.itable ip with valid := true }).goto p .idle)

/-- A step of the loop of `ialloc`. -/
def iallocStep (s : State P H) (p : P) (h : H) (dev : BitVec 32) (type : BitVec 16) (inum : Nat) :
    State P H :=
  if inum < s.sb.ninodes then
    if (s.dinode (dev, inum)).type = 0 then
      (s.putDinode (dev, inum) (.fresh type)).goto p (.found h dev inum)
    else s.goto p (.ialloc h dev type (inum + 1))
  else s.goto p .idle

/-- A step of `iput` that frees the inode. -/
def iputStep (s : State P H) (p : P) (ip : Ptr) : IputAt → State P H
  | .trunc =>
    (s.setEntry ip { s.itable ip with size := 0, addrs := fun _ => 0 }).goto p (.iput ip .update)
  | .update => (s.iupdate ip).goto p (.iput ip .clear)
  | .clear => (s.setEntry ip { s.itable ip with type := 0 }).goto p (.iput ip .free)
  | .free => (s.iupdate ip).goto p (.iput ip .invalidate)
  | .invalidate => (s.setEntry ip { s.itable ip with valid := false }).goto p (.iput ip .release)
  | .release => (s.setLock ip none).goto p (.iput ip .drop)
  | .drop => (s.setEntry ip { s.itable ip with ref := (s.itable ip).ref - 1 }).goto p .idle

/-- A process that is in none of the functions calls one, or changes an inode that it has locked. -/
def call (s : State P H) : Act P H → Except Fault (State P H)
  | .iget _ h dev inum => s.iget h dev inum
  | .idup _ h ip =>
    if 0 < s.held ip then
      .ok { s.setEntry ip { s.itable ip with ref := (s.itable ip).ref + 1 } with
        refs := (h, ip) :: s.refs }
    else .error .refused
  | .ilock p ip =>
    if 0 < s.held ip then
      if (s.itable ip).ref < 1 then .error (.panic "ilock")
      else .ok { s.goto p (.ilock ip .acquire) with users := (p, ip) :: s.users }
    else .error .refused
  | .write p ip n =>
    if s.lock ip = some p then
      .ok { s.setEntry ip { s.itable ip with toDinode := { n with type := (s.itable ip).type } } with
        dirty := update s.dirty ip true }
    else .error .refused
  | .iupdate p ip =>
    if s.lock ip = some p then .ok { s.iupdate ip with dirty := update s.dirty ip false }
    else .error .refused
  | .iunlock p ip =>
    -- what was changed is written back first
    if s.dirty ip then .error .refused
    else if s.lock ip ≠ some p ∨ (s.itable ip).ref < 1 then .error (.panic "iunlock")
    else .ok { s.setLock ip none with users := s.users.erase (p, ip) }
  | .iput p h ip =>
    -- a reference is dropped once, and the last one not while the inode is in use
    if (h, ip) ∈ s.refs ∧ (s.held ip = 1 → ∀ u ∈ s.users, u.2 ≠ ip) then
      ({ s with refs := s.refs.erase (h, ip) } : State P H).iput p ip
    else .error .refused
  | .ialloc p h dev type =>
    if type = 0 then .error .refused else .ok (s.goto p (.ialloc h dev type 1))
  | .go _ => .error .refused

/-- The next step of a function. -/
def next (s : State P H) (p : P) : Pc H → Except Fault (State P H)
  | .idle => .error .refused
  | .ilock ip st => s.ilockStep p ip st
  | .ialloc h dev type inum => .ok (s.iallocStep p h dev type inum)
  | .found h dev inum => (s.goto p .idle).iget h dev inum
  | .iput ip st => .ok (s.iputStep p ip st)

def step (s : State P H) (a : Act P H) : Except Fault (State P H) :=
  match a with
  | .go p => s.next p (s.pc p)
  | a =>
    match s.pc a.proc with
    | .idle => s.call a
    | _ => .error .refused

/-- The table after `iinit`, in front of any disk. -/
def init (sb : Superblock) (buf : BitVec 32 → Disk) : State P H where
  sb := sb
  buf := buf
  itable _ := ⟨.fresh 0, 0, 0, 0, false⟩
  lock _ := none
  pc _ := .idle
  refs := []
  users := []
  dirty _ := false

end State

end Xv6.Itable
