/-
# Xv6.Sched.Machine — CPUs, kernel threads and spin locks (`kernel/spinlock.c`, `kernel/proc.c`).

Every process has a kernel thread and every CPU has a scheduler thread.  The code of a thread is a tree of
the instructions that matter to the others: taking and giving back a spin lock, reading and writing the
process table, and switching to another thread.  A step runs one instruction of the thread that one CPU
executes, so a run is an interleaving of the threads, and a thread that panics ends the run.

What a thread does between two such instructions (memory, devices, the locks that are taken and given back
within one function and guard nothing here) is left out.  `creator` and `forkret` are not fields of
`struct proc`: the first names the process whose `allocproc` set up the entry, the second says that
`context.ra` still holds `forkret`.
-/
import Xv6.Proc.Defs

namespace Xv6.Sched

/-! ## State -/

/-- The spin locks: `p->lock`, `wait_lock`, `pid_lock` and all others. -/
inductive SpinLock where
  | proc (i : Fin NPROC)
  | wait_lock
  | pid_lock
  | other (n : Nat)
  deriving DecidableEq

/-- The channels to sleep on: a process (in `wait`), or any other address. -/
inductive Chan where
  | proc (i : Fin NPROC)
  | other (n : Nat)
  deriving DecidableEq

/-- The fields of `struct proc` that other threads read or write. -/
structure Entry where
  state : ProcState
  chan : Option Chan
  killed : Bool
  xstate : BitVec 32
  pid : BitVec 32
  parent : Option (Fin NPROC)
  creator : Option (Fin NPROC)
  forkret : Bool

/-- What all threads share: the process table, and the data that locks other than `p->lock` guard. -/
structure Shared (σ : Type) where
  proc : Fin NPROC → Entry
  nextpid : BitVec 32
  initproc : Fin NPROC
  data : σ

/-- Write fields of a process. -/
def Shared.setProc {σ : Type} (s : Shared σ) (q : Fin NPROC) (g : Entry → Entry) : Shared σ :=
  { s with proc := Function.update s.proc q (g (s.proc q)) }

/-- The code of a kernel thread. -/
inductive Code (σ L : Type) where
  /-- A process is back in user space; a scheduler has looked at the whole table. -/
  | ret
  /-- Go to the code with this label. -/
  | jump (l : L)
  | acquire (lk : SpinLock) (k : Code σ L)
  | release (lk : SpinLock) (k : Code σ L)
  /-- Read and write the shared state; what follows may depend on what was read. -/
  | act (f : Shared σ → Shared σ) (k : Shared σ → Code σ L)
  /-- `sched()`. -/
  | sched (k : Code σ L)
  /-- `mycpu()->intena = b`. -/
  | intena (b : Bool) (k : Code σ L)
  /-- `intr_on()` and `intr_off()`. -/
  | intr (b : Bool) (k : Code σ L)
  /-- The scheduler's `if(p->state == RUNNABLE)`: run `q` and go on with `chosen` when it switches back. -/
  | pick (q : Fin NPROC) (chosen other : Code σ L)
  /-- `c->proc = 0`. -/
  | idle (k : Code σ L)
  /-- A call of the kernel's `panic`. -/
  | stop (msg : String)

/-- `struct cpu`; `cur` is the process whose thread the CPU executes, `none` for its scheduler, and `intr`
is the interrupt-enable bit. -/
structure Cpu where
  proc : Option (Fin NPROC)
  noff : Nat
  intena : Bool
  intr : Bool
  cur : Option (Fin NPROC)

/-- A kernel thread. -/
inductive Thread (C : Type) where
  | scheduler (c : C)
  | proc (p : Fin NPROC)
  deriving DecidableEq

/-- The CPUs, the locks with the CPU that holds them, and the code each thread has still to run. -/
structure Machine (C σ L : Type) where
  shared : Shared σ
  lock : SpinLock → Option C
  cpu : C → Cpu
  code : Thread C → Code σ L

/-- The functions of the kernel: what a process may call, where the loops start, and what an interrupt
does before it goes on with what was interrupted. -/
structure Kernel (σ L : Type) where
  entry : L → Bool
  body : Fin NPROC → L → Code σ L
  handler : L → Option (Fin NPROC) → Code σ L → Code σ L

variable {C σ L : Type}

/-- The thread that executes on a CPU which runs `cur`. -/
def threadOf (c : C) : Option (Fin NPROC) → Thread C
  | none => .scheduler c
  | some p => .proc p

/-- The thread that executes on a CPU. -/
def Machine.thread (m : Machine C σ L) (c : C) : Thread C :=
  threadOf c (m.cpu c).cur

/-! ## `kernel/spinlock.c` -/

/-- Disable interrupts, and remember whether they were enabled. -/
def pushOff (u : Cpu) : Cpu :=
  { u with intr := false, intena := if u.noff = 0 then u.intr else u.intena, noff := u.noff + 1 }

/-- Undo one `push_off`. -/
def popOff (u : Cpu) : Except String Cpu :=
  if u.intr then
    .error "pop_off - interruptible"
  else if u.noff < 1 then
    .error "pop_off"
  else
    .ok { u with noff := u.noff - 1, intr := decide (u.noff - 1 = 0) && u.intena }

/-! ## `scheduler`, `sched`, `yield`, `forkret`, `sleep` and `wakeup` of `kernel/proc.c` -/

/-- The scheduler's loop over the process table. -/
def schedulerScan : List (Fin NPROC) → Code σ L
  | [] => .ret
  | q :: qs =>
    let unlock := .release (.proc q) (schedulerScan qs)
    .acquire (.proc q) (.pick q (.idle unlock) unlock)

/-- Per-CPU process scheduler: one round of its endless loop. -/
def scheduler : Code σ L :=
  .intr true (schedulerScan (List.finRange NPROC))

/-- Give up the CPU for one scheduling round. -/
def yield (p : Fin NPROC) (k : Code σ L) : Code σ L :=
  .acquire (.proc p) <|
  .act (fun s => s.setProc p fun e => { e with state := .RUNNABLE }) fun _ =>
  .sched <|
  .release (.proc p) k

/-- A fork child's very first scheduling switches to `forkret`. -/
def forkret (p : Fin NPROC) : Code σ L :=
  .release (.proc p) .ret

/-- Atomically release lock and sleep on `chan`; reacquires lock when awakened. -/
def sleep (p : Fin NPROC) (chan : Chan) (lk : SpinLock) (k : Code σ L) : Code σ L :=
  .acquire (.proc p) <|
  .release lk <|
  .act (fun s => s.setProc p fun e => { e with chan := some chan, state := .SLEEPING }) fun _ =>
  .sched <|
  .act (fun s => s.setProc p fun e => { e with chan := none }) fun _ =>
  .release (.proc p) <|
  .acquire lk k

/-- The test and the write of `wakeup`. -/
def wake (chan : Option Chan) (e : Entry) : Entry :=
  if e.state = .SLEEPING ∧ e.chan = chan then { e with state := .RUNNABLE } else e

/-- `wakeup`'s loop: `self` is `myproc()`. -/
def wakeupScan (self : Option (Fin NPROC)) (chan : Option Chan) (k : Code σ L) :
    List (Fin NPROC) → Code σ L
  | [] => k
  | q :: qs =>
    if some q ≠ self then
      .acquire (.proc q) <|
      .act (fun s => s.setProc q (wake chan)) fun _ =>
      .release (.proc q) (wakeupScan self chan k qs)
    else
      wakeupScan self chan k qs

/-- Wake up all processes sleeping on `chan`. -/
def wakeup (self : Option (Fin NPROC)) (chan : Option Chan) (k : Code σ L) : Code σ L :=
  wakeupScan self chan k (List.finRange NPROC)

/-! ## Steps -/

section Step

variable [DecidableEq C]

/-- Let thread `t` go on with `k`. -/
def Machine.goto (m : Machine C σ L) (t : Thread C) (k : Code σ L) : Machine C σ L :=
  { m with code := Function.update m.code t k }

/-- Write fields of a CPU. -/
def Machine.setCpu (m : Machine C σ L) (c : C) (u : Cpu) : Machine C σ L :=
  { m with cpu := Function.update m.cpu c u }

/-- Write the holder of a lock. -/
def Machine.setLock (m : Machine C σ L) (lk : SpinLock) (h : Option C) : Machine C σ L :=
  { m with lock := Function.update m.lock lk h }

/-- Write the shared state. -/
def Machine.setShared (m : Machine C σ L) (s : Shared σ) : Machine C σ L :=
  { m with shared := s }

/-- Acquire the lock; a CPU that has to spin makes no step. -/
def acquire (m : Machine C σ L) (c : C) (lk : SpinLock) (k : Code σ L) :
    Except String (Machine C σ L) :=
  match m.lock lk with
  | none => .ok (((m.setCpu c (pushOff (m.cpu c))).setLock lk (some c)).goto (m.thread c) k)
  | some d => if d = c then .error "acquire" else .ok m

/-- Release the lock. -/
def release (m : Machine C σ L) (c : C) (lk : SpinLock) (k : Code σ L) :
    Except String (Machine C σ L) :=
  if m.lock lk ≠ some c then
    .error "release"
  else do
    let u ← popOff (m.cpu c)
    .ok (((m.setCpu c u).setLock lk none).goto (m.thread c) k)

/-- Switch to scheduler.  The CPU leaves the thread with the lock of the process held. -/
def sched (m : Machine C σ L) (c : C) (k : Code σ L) : Except String (Machine C σ L) :=
  let u := m.cpu c
  match u.proc with
  | none => .error "kerneltrap"
  | some p =>
    if m.lock (.proc p) ≠ some c then
      .error "sched p->lock"
    else if u.noff ≠ 1 then
      .error "sched locks"
    else if (m.shared.proc p).state = .RUNNING then
      .error "sched running"
    else if u.intr then
      .error "sched interruptible"
    else
      .ok ((m.setCpu c { u with cur := none }).goto (m.thread c) (.intena u.intena k))

/-- The scheduler's choice: mark the process as running on this CPU and switch to it. -/
def pick (m : Machine C σ L) (c : C) (q : Fin NPROC) (chosen other : Code σ L) : Machine C σ L :=
  if (m.shared.proc q).state = .RUNNABLE then
    let s := m.shared.setProc q fun e => { e with state := .RUNNING, forkret := false }
    let m' := ((m.setShared s).setCpu c { m.cpu c with proc := some q, cur := some q }).goto
      (m.thread c) chosen
    if (m.shared.proc q).forkret then m'.goto (.proc q) (forkret q) else m'
  else
    m.goto (m.thread c) other

/-- A process that is picked goes on where it stopped, or starts at `forkret`. -/
theorem pick_eq {m : Machine C σ L} {c : C} {q : Fin NPROC} {chosen other : Code σ L}
    (hcur : (m.cpu c).cur = none) (hq : (m.shared.proc q).state = .RUNNABLE) :
    pick m c q chosen other =
      ⟨m.shared.setProc q fun e => { e with state := .RUNNING, forkret := false }, m.lock,
        Function.update m.cpu c { m.cpu c with proc := some q, cur := some q },
        Function.update (Function.update m.code (.scheduler c) chosen) (.proc q)
          (if (m.shared.proc q).forkret then forkret q else m.code (.proc q))⟩ := by
  have ht : m.thread c = .scheduler c := by rw [Machine.thread, hcur]; rfl
  have hne : Thread.scheduler c ≠ .proc q := nofun
  unfold pick
  rw [if_pos hq, ht]
  cases (m.shared.proc q).forkret with
  | true => rfl
  | false =>
    simp only [Bool.false_eq_true, if_false]
    rw [Function.update_comm hne, Function.update_eq_self]
    rfl

/-- Run the first instruction of a code on `c`. -/
def instr (K : Kernel σ L) (m : Machine C σ L) (c : C) : Code σ L → Except String (Machine C σ L)
  | .ret => if (m.cpu c).cur = none then .ok (m.goto (m.thread c) scheduler) else .ok m
  | .jump l =>
    match (m.cpu c).cur with
    | none => .ok m
    | some p => .ok (m.goto (m.thread c) (K.body p l))
  | .acquire lk k => acquire m c lk k
  | .release lk k => release m c lk k
  | .act f k => .ok ((m.setShared (f m.shared)).goto (m.thread c) (k m.shared))
  | .sched k => sched m c k
  | .intena b k => .ok ((m.setCpu c { m.cpu c with intena := b }).goto (m.thread c) k)
  | .intr b k => .ok ((m.setCpu c { m.cpu c with intr := b }).goto (m.thread c) k)
  | .pick q k₁ k₂ => .ok (pick m c q k₁ k₂)
  | .idle k => .ok ((m.setCpu c { m.cpu c with proc := none }).goto (m.thread c) k)
  | .stop msg => .error msg

/-- Run one instruction of the thread that executes on `c`. -/
def exec (K : Kernel σ L) (m : Machine C σ L) (c : C) : Except String (Machine C σ L) :=
  instr K m c (m.code (m.thread c))

/-- What the world can do next. -/
inductive Action (C L : Type) where
  /-- `c` runs one instruction. -/
  | exec (c : C)
  /-- The process that is in user space on `c` enters the kernel, with interrupts enabled or not. -/
  | call (c : C) (l : L) (on : Bool)
  /-- An interrupt on `c`, from the timer or not. -/
  | irq (c : C) (l : L) (timer : Bool)

/-- The process that is in user space on `c` calls `l`. -/
def call (K : Kernel σ L) (m : Machine C σ L) (c : C) (l : L) (on : Bool) : Machine C σ L :=
  match (m.cpu c).cur, m.code (m.thread c) with
  | some p, .ret =>
    if K.entry l then (m.setCpu c { m.cpu c with intr := on }).goto (.proc p) (K.body p l) else m
  | _, _ => m

/-- What `kerneltrap` does once the device has been served. -/
def afterIrq (m : Machine C σ L) (c : C) (timer : Bool) (k : Code σ L) : Code σ L :=
  match (m.cpu c).proc with
  | some p =>
    if timer ∧ (m.shared.proc p).state = .RUNNING then yield p (.intr true k) else .intr true k
  | none => .intr true k

/-- `kerneltrap`: with interrupts off, serve the device, give up the CPU after a timer interrupt, and go
back with interrupts on. -/
def irq (K : Kernel σ L) (m : Machine C σ L) (c : C) (l : L) (timer : Bool) : Machine C σ L :=
  if (m.cpu c).intr then
    (m.setCpu c { m.cpu c with intr := false }).goto (m.thread c)
      (K.handler l (m.cpu c).cur (afterIrq m c timer (m.code (m.thread c))))
  else
    m

/-- One step of the machine. -/
def step (K : Kernel σ L) (m : Machine C σ L) : Action C L → Except String (Machine C σ L)
  | .exec c => exec K m c
  | .call c l on => .ok (call K m c l on)
  | .irq c l timer => .ok (irq K m c l timer)

end Step

/-- The entry that `userinit` gets from `allocproc`. -/
def firstProc : Fin NPROC := ⟨0, NPROC_pos⟩

/-- The machine when `main` has called `userinit` and every CPU starts its scheduler: the first process
waits to be run, nothing is locked. -/
def boot (init : Fin NPROC) (data : σ) : Machine C σ L where
  shared :=
    { proc := fun i =>
        if i = init then ⟨.RUNNABLE, none, false, 0, 1, none, none, true⟩
        else ⟨.UNUSED, none, false, 0, 0, none, none, false⟩
      nextpid := 2
      initproc := init
      data := data }
  lock := fun _ => none
  cpu := fun _ => ⟨none, 0, false, false, none⟩
  code := fun _ => .ret

end Xv6.Sched
