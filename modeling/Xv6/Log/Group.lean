/-
# Xv6.Log.Group — group commit: `begin_op`, `log_write`, `end_op` under any interleaving.

Any number of processes run `begin_op`, a sequence of `log_write`s and `end_op`.  A step of the
system is one `log.lock` critical section, or one step of the `commit` that the last `end_op` runs
without the lock.  A pass of `begin_op` that finds no room sleeps and may be retried at any time, so
that no assumption is made about wakeups.

The system carries a history variable that no step reads: the events that happened, newest first.
The statements about commits are statements about this history.
-/
import Xv6.Lib.Trace
import Xv6.Log.Redo
import Mathlib.Data.Finset.Card
import Mathlib.Data.List.Nodup

namespace Xv6

open Lib

abbrev Pid := Nat

/-! ## The critical sections of `log.c` -/

namespace Log

/-- One pass of the loop of `begin_op`; `none` is `sleep(&log, &log.lock)`. -/
def beginOp (log : Log) : Option Log :=
  if log.committing then none
  -- this op might exhaust log space; wait for commit.
  else if (log.lh.length : Int) + (log.outstanding + 1) * MAXOPBLOCKS > LOGSIZE then none
  else some { log with outstanding := log.outstanding + 1 }

/-- The first critical section of `end_op`; the flag is `do_commit`. -/
def endOp (log : Log) : Except String (Bool × Log) :=
  let log := { log with outstanding := log.outstanding - 1 }
  if log.committing then .error "log.committing"
  else if log.outstanding = 0 then .ok (true, { log with committing := true })
  else .ok (false, log)

/-- `log_write` of a buffer that holds block `b`. -/
def logWrite (log : Log) (b : BlockNo) : Except String Log :=
  if log.lh.length ≥ LOGSIZE ∨ (log.lh.length : Int) ≥ (log.size : Int) - 1 then
    .error "too big a transaction"
  else if log.outstanding < 1 then .error "log_write outside of trans"
  -- log absorption
  else if b ∈ log.lh then .ok log
  else .ok { log with lh := log.lh ++ [b] }

end Log

/-! ## The interleaved system -/

/-- Where a committing process is inside `commit()`; `tail` is the loop variable. -/
inductive CommitPc
  | test
  | writeLog (tail : Nat)
  | writeHead
  | installTrans (tail : Nat)
  | clear
  | eraseHead
  | release
  deriving DecidableEq, Repr

/-- Where a process is. -/
inductive LogPc
  | user
  | waiting
  | inOp
  | commit (c : CommitPc)
  deriving DecidableEq, Repr

/-- One event of the history. -/
inductive LogEvent
  | began (p : Pid)
  | logged (p : Pid) (b : BlockNo)
  | ended (p : Pid)
  | header (lh : List BlockNo)
  | erased
  | committed
  deriving DecidableEq, Repr

/-- The log, the processes, and the history, newest event first. -/
structure LogSys where
  log : Log
  pc : Pid → LogPc
  hist : List LogEvent

/-- The system after `initlog`: no operation, nothing logged. -/
def LogSys.init (start size : Nat) : LogSys :=
  ⟨⟨start, size, 0, false, []⟩, fun _ => .user, []⟩

/-- What a process may ask for. -/
inductive LogAct
  | beginOp (p : Pid)
  | logWrite (p : Pid) (b : BlockNo)
  | endOp (p : Pid)
  | commitStep (p : Pid)
  deriving DecidableEq, Repr

/-- Why an action does not happen: the process is elsewhere, or the kernel panics. -/
inductive Stop
  | disabled
  | panic (msg : String)
  deriving DecidableEq, Repr

namespace LogSys

def setPc (s : LogSys) (p : Pid) (c : LogPc) : LogSys :=
  { s with pc := Function.update s.pc p c }

/-- One step of `commit()` and of the tail of `end_op` by process `p`, which is at `c`. -/
def commitStep (s : LogSys) (p : Pid) : CommitPc → LogSys
  | .test =>
    -- if (log.lh.n > 0)
    if s.log.lh.length > 0 then s.setPc p (.commit (.writeLog 0))
    else s.setPc p (.commit .release)
  | .writeLog tail =>
    if tail < s.log.lh.length then s.setPc p (.commit (.writeLog (tail + 1)))
    else s.setPc p (.commit .writeHead)
  | .writeHead =>
    { s.setPc p (.commit (.installTrans 0)) with hist := .header s.log.lh :: s.hist }
  | .installTrans tail =>
    if tail < s.log.lh.length then s.setPc p (.commit (.installTrans (tail + 1)))
    else s.setPc p (.commit .clear)
  | .clear => { s.setPc p (.commit .eraseHead) with log := { s.log with lh := [] } }
  | .eraseHead => { s.setPc p (.commit .release) with hist := .erased :: s.hist }
  | .release =>
    { s.setPc p .user with
      log := { s.log with committing := false }, hist := .committed :: s.hist }

/-- One step of the system. -/
def step (s : LogSys) : LogAct → Except Stop LogSys
  | .beginOp p =>
    if s.pc p = .user ∨ s.pc p = .waiting then
      match s.log.beginOp with
      | none => .ok (s.setPc p .waiting)
      | some log => .ok { s.setPc p .inOp with log := log, hist := .began p :: s.hist }
    else .error .disabled
  | .logWrite p b =>
    if s.pc p = .inOp then
      match s.log.logWrite b with
      | .error msg => .error (.panic msg)
      | .ok log => .ok { s with log := log, hist := .logged p b :: s.hist }
    else .error .disabled
  | .endOp p =>
    if s.pc p = .inOp then
      match s.log.endOp with
      | .error msg => .error (.panic msg)
      | .ok (doCommit, log) =>
        .ok { s.setPc p (if doCommit then .commit .test else .user) with
          log := log, hist := .ended p :: s.hist }
    else .error .disabled
  | .commitStep p =>
    match s.pc p with
    | .commit c => .ok (s.commitStep p c)
    | _ => .error .disabled

end LogSys

/-! ## Reading the history -/

/-- The blocks that the unfinished operation of `p` has logged so far. -/
def opWrites (p : Pid) : List LogEvent → List BlockNo
  | [] => []
  | .began q :: h => if q = p then [] else opWrites p h
  | .logged q b :: h => if q = p then b :: opWrites p h else opWrites p h
  | .ended q :: h => if q = p then [] else opWrites p h
  | .header _ :: h | .erased :: h | .committed :: h => opWrites p h

/-- Process `p` has begun an operation and not ended it. -/
def InProgress (p : Pid) : List LogEvent → Prop
  | [] => False
  | .began q :: h => q = p ∨ InProgress p h
  | .ended q :: h => q ≠ p ∧ InProgress p h
  | .logged _ _ :: h | .header _ :: h | .erased :: h | .committed :: h => InProgress p h

/-- The operations that have ended since the previous commit, each with the blocks it logged. -/
def endedOps : List LogEvent → List (Pid × List BlockNo)
  | [] => []
  | .committed :: _ => []
  | .ended p :: h => (p, opWrites p h) :: endedOps h
  | .began _ :: h | .logged _ _ :: h | .header _ :: h | .erased :: h => endedOps h

/-- The blocks logged since the previous commit. -/
def transBlocks : List LogEvent → List BlockNo
  | [] => []
  | .committed :: _ => []
  | .logged _ b :: h => b :: transBlocks h
  | .began _ :: h | .ended _ :: h | .header _ :: h | .erased :: h => transBlocks h

end Xv6
