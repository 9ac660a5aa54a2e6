/-
# Xv6.Ipc.Pipe — readers and writers of one pipe (`kernel/pipe.c`).

The state is the pipe, the holder of `pi->lock`, and where each process is.  A turn of a loop of
`pipewrite` or `piperead` is one step, taken with the lock held, so that a `kill` can come between any two
turns.  `sleep(chan, &pi->lock)` gives the lock back and marks the process in one step, and `wakeup(chan)`
marks every process that sleeps on the channel: that no wakeup is lost in between is the subject of
`Xv6.Sched.Wakeup`.

The state also has the history of the ring: the bytes that were put in, with the call that did, and the
bytes that were taken out.
-/
import Xv6.Lib.Bytes
import Xv6.Lib.Ring
import Xv6.Lib.Trace

namespace Xv6.Ipc

open Lib

def PIPESIZE : Nat := 512

instance : NeZero PIPESIZE := ⟨by decide⟩

/-- `struct pipe`, less its lock. -/
structure Pipe where
  data : Fin PIPESIZE → Byte
  nread : BitVec 32
  nwrite : BitVec 32
  readopen : Bool
  writeopen : Bool

/-- The pipe is empty. -/
def Pipe.Empty (pi : Pipe) : Prop := pi.nread = pi.nwrite

/-- The pipe is full. -/
def Pipe.Full (pi : Pipe) : Prop := pi.nwrite = pi.nread + BitVec.ofNat 32 PIPESIZE

instance (pi : Pipe) : Decidable pi.Empty := inferInstanceAs (Decidable (_ = _))
instance (pi : Pipe) : Decidable pi.Full := inferInstanceAs (Decidable (_ = _))

/-- `pi->data[pi->nwrite++ % PIPESIZE] = ch`. -/
def Pipe.put (pi : Pipe) (ch : Byte) : Pipe :=
  { pi with data := Function.update pi.data (cell _ pi.nwrite) ch, nwrite := pi.nwrite + 1 }

/-- `pi->data[pi->nread % PIPESIZE]`. -/
def Pipe.first (pi : Pipe) : Byte := pi.data (cell _ pi.nread)

/-- `pi->nread++`. -/
def Pipe.take (pi : Pipe) : Pipe := { pi with nread := pi.nread + 1 }

/-- A call of `pipewrite`: which one it is, the bytes of its source (`none` where it is not mapped), and
its locals.  `owes` says that it stored a byte since it last called `wakeup(&pi->nread)`. -/
structure Write where
  id : Nat
  src : Nat → Option Byte
  n : Int
  i : Nat
  owes : Bool

/-- A call of `piperead`: which bytes of its destination are mapped, and its locals. -/
structure Read where
  dst : Nat → Bool
  n : Int
  i : Nat

/-- Where a process is. -/
inductive Pc where
  /-- In neither function. -/
  | idle
  /-- In `pipewrite`, about to take the lock (for the first time, or at the end of `sleep`). -/
  | wAcquire (w : Write)
  /-- At the head of the loop of `pipewrite`. -/
  | wLoop (w : Write)
  /-- Sleeping on `&pi->nwrite`. -/
  | wSleep (w : Write)
  /-- Behind the loop of `pipewrite`. -/
  | wExit (w : Write)
  /-- In `piperead`, about to take the lock. -/
  | rAcquire (r : Read)
  /-- At the head of the first loop of `piperead`. -/
  | rWait (r : Read)
  /-- Sleeping on `&pi->nread`. -/
  | rSleep (r : Read)
  /-- At the head of the second loop of `piperead`. -/
  | rCopy (r : Read)
  /-- Behind the second loop of `piperead`. -/
  | rExit (r : Read)

/-- The points at which `pi->lock` is held. -/
def Pc.Critical : Pc → Prop
  | .wLoop _ | .wExit _ | .rWait _ | .rCopy _ | .rExit _ => True
  | _ => False

/-- `wakeup(&pi->nread)`, for one process. -/
def Pc.wakeRead : Pc → Pc
  | .rSleep r => .rAcquire r
  | pc => pc

/-- `wakeup(&pi->nwrite)`, for one process. -/
def Pc.wakeWrite : Pc → Pc
  | .wSleep w => .wAcquire w
  | pc => pc

/-- The pipe and its users. -/
structure Sys (P : Type) where
  pipe : Pipe
  /-- The page of the pipe was freed. -/
  freed : Bool
  lock : Option P
  pc : P → Pc
  killed : P → Bool
  /-- The number of calls of `pipewrite` so far. -/
  calls : Nat
  /-- The bytes that were put into the ring, each with its call. -/
  put : List (Nat × Byte)
  /-- The bytes that were taken out of the ring. -/
  taken : List Byte
  /-- The calls of `pipewrite` that have returned, with what they returned (`none` is -1). -/
  written : List (Write × Option Nat)
  /-- The calls of `piperead` that have returned, with what they returned. -/
  read : List (Read × Option Nat)

/-- What can happen. -/
inductive Act (P : Type) where
  | pipewrite (p : P) (src : Nat → Option Byte) (n : Int)
  | piperead (p : P) (dst : Nat → Bool) (n : Int)
  /-- `acquire(&pi->lock)` succeeds. -/
  | acquire (p : P)
  /-- The holder of the lock goes on. -/
  | turn (p : P)
  | pipeclose (writable : Bool)
  | kill (p : P)

namespace Sys

variable {P : Type}

def wakeRead (s : Sys P) : Sys P := { s with pc := fun p => (s.pc p).wakeRead }

def wakeWrite (s : Sys P) : Sys P := { s with pc := fun p => (s.pc p).wakeWrite }

variable [DecidableEq P]

/-- The process `p` is at `pc`. -/
def goto (s : Sys P) (p : P) (pc : Pc) : Sys P := { s with pc := Function.update s.pc p pc }

/-- The process `p` gives the lock back and is at `pc`. -/
def release (s : Sys P) (p : P) (pc : Pc) : Sys P := { s.goto p pc with lock := none }

/-- A `pipewrite` returns. -/
def retWrite (s : Sys P) (p : P) (w : Write) (value : Option Nat) : Sys P :=
  { s.release p .idle with written := s.written ++ [(w, value)] }

/-- A `piperead` returns. -/
def retRead (s : Sys P) (p : P) (r : Read) (value : Option Nat) : Sys P :=
  { s.release p .idle with read := s.read ++ [(r, value)] }

/-- A byte is put into the ring. -/
def store (s : Sys P) (p : P) (w : Write) (ch : Byte) : Sys P :=
  { s.goto p (.wLoop { w with i := w.i + 1, owes := true }) with
    pipe := s.pipe.put ch, put := s.put ++ [(w.id, ch)] }

/-- A byte is taken out of the ring. -/
def fetch (s : Sys P) (p : P) (pc : Pc) : Sys P :=
  { s.goto p pc with pipe := s.pipe.take, taken := s.taken ++ [s.pipe.first] }

/-- The holder of the lock goes on. -/
def turn (s : Sys P) (p : P) : Except Unit (Sys P) :=
  match s.pc p with
  | .wLoop w =>
    .ok (if (w.i : Int) < w.n then
      if s.pipe.readopen = false ∨ s.killed p then s.retWrite p w none
      else if s.pipe.Full then s.wakeRead.release p (.wSleep { w with owes := false })
      else
        match w.src w.i with
        | none => s.goto p (.wExit w)
        | some ch => s.store p w ch
    else s.goto p (.wExit w))
  | .wExit w => .ok (s.wakeRead.retWrite p w (some w.i))
  | .rWait r =>
    .ok (if s.pipe.Empty ∧ s.pipe.writeopen then
      if s.killed p then s.retRead p r none else s.release p (.rSleep r)
    else s.goto p (.rCopy r))
  | .rCopy r =>
    .ok (if (r.i : Int) < r.n ∧ ¬s.pipe.Empty then
      s.fetch p (if r.dst r.i then .rCopy { r with i := r.i + 1 } else .rExit r)
    else s.goto p (.rExit r))
  | .rExit r => .ok (s.wakeWrite.retRead p r (some r.i))
  | _ => .error ()

/-- `pipeclose`, one critical section. -/
def pipeclose (s : Sys P) (writable : Bool) : Sys P :=
  let s := if writable then { s.wakeRead with pipe := { s.pipe with writeopen := false } }
    else { s.wakeWrite with pipe := { s.pipe with readopen := false } }
  { s with freed := !s.pipe.readopen && !s.pipe.writeopen }

/-- `kill`: a process that sleeps goes on. -/
def kill (s : Sys P) (p : P) : Sys P :=
  { s.goto p (s.pc p).wakeRead.wakeWrite with killed := Function.update s.killed p true }

def step (s : Sys P) : Act P → Except Unit (Sys P)
  | .pipewrite p src n =>
    match s.pc p with
    | .idle => .ok { s.goto p (.wAcquire ⟨s.calls, src, n, 0, false⟩) with calls := s.calls + 1 }
    | _ => .error ()
  | .piperead p dst n =>
    match s.pc p with
    | .idle => .ok (s.goto p (.rAcquire ⟨dst, n, 0⟩))
    | _ => .error ()
  | .acquire p =>
    if s.lock = none ∧ s.freed = false then
      match s.pc p with
      | .wAcquire w => .ok { s.goto p (.wLoop w) with lock := some p }
      | .rAcquire r => .ok { s.goto p (.rWait r) with lock := some p }
      | _ => .error ()
    else .error ()
  | .turn p => s.turn p
  | .pipeclose writable =>
    if s.lock = none ∧ s.freed = false then .ok (s.pipeclose writable) else .error ()
  | .kill p => .ok (s.kill p)

/-- The pipe that `pipealloc` makes, in a page with any contents, and its users. -/
def init (data : Fin PIPESIZE → Byte) : Sys P where
  pipe := ⟨data, 0, 0, true, true⟩
  freed := false
  lock := none
  pc _ := .idle
  killed _ := false
  calls := 0
  put := []
  taken := []
  written := []
  read := []

/-- What a turn of `p` can be. -/
inductive Turns (s : Sys P) (p : P) : Sys P → Prop
  | quit {w} (hpc : s.pc p = .wLoop w) (hi : (w.i : Int) < w.n)
      (hquit : s.pipe.readopen = false ∨ s.killed p = true) : Turns s p (s.retWrite p w none)
  | full {w} (hpc : s.pc p = .wLoop w) (hopen : s.pipe.readopen = true) (hfull : s.pipe.Full) :
      Turns s p (s.wakeRead.release p (.wSleep { w with owes := false }))
  | store {w ch} (hpc : s.pc p = .wLoop w) (hfull : ¬s.pipe.Full) (hch : w.src w.i = some ch) :
      Turns s p (s.store p w ch)
  | leave {w} (hpc : s.pc p = .wLoop w) : Turns s p (s.goto p (.wExit w))
  | wrote {w} (hpc : s.pc p = .wExit w) : Turns s p (s.wakeRead.retWrite p w (some w.i))
  | stop {r} (hpc : s.pc p = .rWait r) : Turns s p (s.retRead p r none)
  | wait {r} (hpc : s.pc p = .rWait r) (hempty : s.pipe.Empty) (hopen : s.pipe.writeopen = true) :
      Turns s p (s.release p (.rSleep r))
  | copy {r} (hpc : s.pc p = .rWait r) : Turns s p (s.goto p (.rCopy r))
  | fetch {r r' pc} (hpc : s.pc p = .rCopy r) (hempty : ¬s.pipe.Empty)
      (hpc' : pc = .rCopy r' ∨ pc = .rExit r') : Turns s p (s.fetch p pc)
  | copied {r} (hpc : s.pc p = .rCopy r) : Turns s p (s.goto p (.rExit r))
  | done {r} (hpc : s.pc p = .rExit r) : Turns s p (s.wakeWrite.retRead p r (some r.i))

theorem turn_cases {s s' : Sys P} {p : P} (h : s.turn p = .ok s') : Turns s p s' := by
  rw [turn] at h
  cases hpc : s.pc p with
  | wLoop w =>
    rw [hpc] at h
    cases h
    split
    · rename_i hi
      split
      · rename_i hquit
        exact .quit hpc hi hquit
      · rename_i hquit
        split
        · rename_i hfull
          exact .full hpc (Bool.eq_true_of_not_eq_false fun hf => hquit (.inl hf)) hfull
        · rename_i hfull
          split
          · exact .leave hpc
          · rename_i ch hch
            exact .store hpc hfull hch
    · exact .leave hpc
  | wExit w =>
    rw [hpc] at h
    cases h
    exact .wrote hpc
  | rWait r =>
    rw [hpc] at h
    cases h
    split
    · rename_i hwait
      split
      · exact .stop hpc
      · exact .wait hpc hwait.1 hwait.2
    · exact .copy hpc
  | rCopy r =>
    rw [hpc] at h
    cases h
    split
    · rename_i hc
      split
      · exact .fetch hpc hc.2 (.inl rfl)
      · exact .fetch hpc hc.2 (.inr rfl)
    · exact .copied hpc
  | rExit r =>
    rw [hpc] at h
    cases h
    exact .done hpc
  | idle | wAcquire _ | wSleep _ | rAcquire _ | rSleep _ =>
    rw [hpc] at h
    cases h

end Sys

end Xv6.Ipc
