/-
# Xv6.Sched.Reap — `fork`, `exit`, `reparent` and `wait` (`kernel/proc.c`): who reaps whom.

The sections under `wait_lock` and `p->lock` are steps here; what `Xv6.Sched.OneCpu` says of CPUs and locks
is not repeated.  `fork` is three steps (the entry is set up, the parent is written, the child becomes
runnable), and `wait` that finds no zombie is two: `p->lock` is taken before `wait_lock` is given back, and
only then is the process marked as sleeping.  In between, whoever has to look at that process (`wakeup`,
`kill`) waits for its lock.

`log` is not kernel state: it lists the calls of `exit` and the successful calls of `wait`, newest first.
-/
import Xv6.Lib.Trace
import Xv6.Sched.OneCpu

namespace Xv6.Sched.Reap

open Lib List Option
open Function (update update_of_ne update_self)

variable {s : Sys} {p q : Fin NPROC} {e e' : Entry} {c : Pc}

/-! ## State -/

/-- Where the kernel thread of a process is. -/
inductive Pc where
  | idle
  /-- In `fork`, before `np->parent = p`. -/
  | forking (q : Fin NPROC)
  /-- In `fork`, after it. -/
  | publishing (q : Fin NPROC)
  /-- In `wait`, at the top of its loop. -/
  | waiting (addr bad : Bool)
  /-- In `wait`, holding `p->lock` and about to sleep. -/
  | falling (addr bad : Bool)
  deriving DecidableEq

/-- A call of `exit`, or a call of `wait` that returned the pid of a child.  A report has the parent field of
the child at that time, and whether and what `wait` copied out. -/
inductive Event where
  | exit (q : Fin NPROC) (pid status : BitVec 32)
  | report (p q : Fin NPROC) (parent : Option (Fin NPROC)) (pid : BitVec 32) (addr : Bool)
      (copied : BitVec 32)

/-- The process table, the threads and the log. -/
structure Sys where
  proc : Fin NPROC → Entry
  pc : Fin NPROC → Pc
  initproc : Fin NPROC
  nextpid : BitVec 32
  log : List Event

/-- Write fields of a process. -/
def Sys.setProc (s : Sys) (q : Fin NPROC) (g : Entry → Entry) : Sys :=
  { s with proc := update s.proc q (g (s.proc q)) }

/-- Move the thread of a process. -/
def Sys.goto (s : Sys) (p : Fin NPROC) (c : Pc) : Sys :=
  { s with pc := update s.pc p c }

/-- `p->lock` is held by a process that is about to sleep. -/
def Pc.Locked : Pc → Prop
  | .falling _ _ => True
  | _ => False

instance : DecidablePred Pc.Locked := fun c => by
  cases c <;> unfold Pc.Locked <;> infer_instance

/-! ## The sections -/

/-- Wake up all processes sleeping on `chan`, but not `p` itself. -/
def wakeup (p : Fin NPROC) (chan : Option Chan) (t : Fin NPROC → Entry) : Fin NPROC → Entry :=
  fun q => if q = p then t q else wake chan (t q)

/-- One round of `reparent`'s loop. -/
def reparentOne (p init : Fin NPROC) (t : Fin NPROC → Entry) (pp : Fin NPROC) : Fin NPROC → Entry :=
  if (t pp).parent = some p then
    wakeup p (some (.proc init)) (update t pp { t pp with parent := some init })
  else
    t

/-- Pass p's abandoned children to init. -/
def reparent (p init : Fin NPROC) (t : Fin NPROC → Entry) : Fin NPROC → Entry :=
  (List.finRange NPROC).foldl (reparentOne p init) t

/-- `exit`'s section under `wait_lock`. -/
def exit (s : Sys) (p : Fin NPROC) (status : BitVec 32) : Sys :=
  let t := reparent p s.initproc s.proc
  let t := wakeup p ((t p).parent.map .proc) t
  { s with
    proc := update t p { t p with xstate := status, state := .ZOMBIE }
    log := .exit p (s.proc p).pid status :: s.log }

/-- How `wait` ends, or that it has to sleep. -/
inductive Outcome where
  | reaped (q : Fin NPROC) (pid : BitVec 32)
  | badCopy (q : Fin NPROC)
  | failed
  | sleeps
  deriving DecidableEq

/-- The first zombie among the children. -/
def zombieChild (s : Sys) (p : Fin NPROC) : Option (Fin NPROC) :=
  (List.finRange NPROC).find? fun q =>
    decide ((s.proc q).parent = some p ∧ (s.proc q).state = .ZOMBIE)

/-- `havekids`. -/
def havekids (s : Sys) (p : Fin NPROC) : Bool :=
  (List.finRange NPROC).any fun q => decide ((s.proc q).parent = some p)

/-- Note in the log that `wait` of `p` returns the pid of `q`, whose entry was `e`. -/
def Sys.report (s : Sys) (p q : Fin NPROC) (e : Entry) (addr : Bool) : Sys :=
  { s with log := .report p q e.parent e.pid addr e.xstate :: s.log }

/-- `wait`'s section under `wait_lock`: scan the table once.  `bad` says that `copyout` fails. -/
def wait (s : Sys) (p : Fin NPROC) (addr bad : Bool) : Sys × Outcome :=
  match zombieChild s p with
  | some q =>
    if addr ∧ bad then
      (s.goto p .idle, .badCopy q)
    else
      (((s.setProc q freeproc).goto p .idle).report p q (s.proc q) addr, .reaped q (s.proc q).pid)
  | none =>
    if ¬havekids s p ∨ (s.proc p).killed then
      (s.goto p .idle, .failed)
    else
      (s.goto p (.falling addr bad), .sleeps)

/-- `allocproc`'s choice. -/
def unusedProc (s : Sys) : Option (Fin NPROC) :=
  (List.finRange NPROC).find? fun q => decide ((s.proc q).state = .UNUSED)

/-- `fork` up to the point where `np->lock` is given back for the first time. -/
def fork (s : Sys) (p : Fin NPROC) (fails : Bool) : Sys :=
  match unusedProc s with
  | none => s
  | some q =>
    let s' := { s with nextpid := s.nextpid + 1 }
    if fails then
      s'.setProc q freeproc
    else
      (s'.setProc q fun e => { e with pid := s.nextpid, state := .USED }).goto p (.forking q)

/-- What can happen next. -/
inductive Act where
  /-- A scheduler runs `p`, which clears its channel. -/
  | schedule (p : Fin NPROC)
  | yield (p : Fin NPROC)
  /-- `p` sleeps outside `wait`. -/
  | sleep (p : Fin NPROC) (n : Nat)
  /-- `p` wakes up who sleeps outside `wait`. -/
  | wakeup (p : Fin NPROC) (n : Nat)
  | kill (pid : BitVec 32)
  | fork (p : Fin NPROC) (fails : Bool)
  /-- `fork` writes `np->parent`. -/
  | setParent (p : Fin NPROC)
  /-- `fork` makes its child runnable. -/
  | publish (p : Fin NPROC)
  | exit (p : Fin NPROC) (status : BitVec 32)
  | wait (p : Fin NPROC) (addr bad : Bool)
  /-- `wait` goes on after it has slept. -/
  | rescan (p : Fin NPROC)
  /-- `wait` marks its process as sleeping. -/
  | fall (p : Fin NPROC)

/-- One step.  A process that is not running, or whose thread is elsewhere, makes none; neither does one
that has to wait for a lock. -/
def step (s : Sys) : Act → Except String Sys
  | .schedule p =>
    if (s.proc p).state = .RUNNABLE then
      .ok (s.setProc p fun e => { e with state := .RUNNING, chan := none })
    else .ok s
  | .yield p =>
    if (s.proc p).state = .RUNNING ∧ ¬(s.pc p).Locked then
      .ok (s.setProc p fun e => { e with state := .RUNNABLE })
    else .ok s
  | .sleep p n =>
    if (s.proc p).state = .RUNNING ∧ s.pc p = .idle then
      .ok (s.setProc p fun e => { e with state := .SLEEPING, chan := some (.other n) })
    else .ok s
  | .wakeup p n =>
    if ∀ q, ¬(s.pc q).Locked then
      .ok { s with proc := wakeup p (some (.other n)) s.proc }
    else .ok s
  | .kill pid =>
    match (List.finRange NPROC).find? fun q => decide ((s.proc q).pid = pid) with
    | none => .ok s
    | some q => if (s.pc q).Locked then .ok s else .ok (s.setProc q killed)
  | .fork p fails =>
    if (s.proc p).state = .RUNNING ∧ s.pc p = .idle then .ok (fork s p fails) else .ok s
  | .setParent p =>
    match (s.proc p).state, s.pc p with
    | .RUNNING, .forking q =>
      .ok ((s.setProc q fun e => { e with parent := some p }).goto p (.publishing q))
    | _, _ => .ok s
  | .publish p =>
    match (s.proc p).state, s.pc p with
    | .RUNNING, .publishing q =>
      .ok ((s.setProc q fun e => { e with state := .RUNNABLE }).goto p .idle)
    | _, _ => .ok s
  | .exit p status =>
    if (s.proc p).state = .RUNNING ∧ s.pc p = .idle ∧ ∀ q, ¬(s.pc q).Locked then
      if p = s.initproc then .error "init exiting" else .ok (exit s p status)
    else .ok s
  | .wait p addr bad =>
    if (s.proc p).state = .RUNNING ∧ s.pc p = .idle then .ok (wait s p addr bad).1 else .ok s
  | .rescan p =>
    match (s.proc p).state, s.pc p with
    | .RUNNING, .waiting addr bad => .ok (wait s p addr bad).1
    | _, _ => .ok s
  | .fall p =>
    match s.pc p with
    | .falling addr bad =>
      .ok ((s.setProc p fun e => { e with state := .SLEEPING, chan := some (.proc p) }).goto p
        (.waiting addr bad))
    | _ => .ok s

/-- After `userinit`. -/
def boot (init : Fin NPROC) : Sys where
  proc i :=
    if i = init then ⟨.RUNNABLE, none, false, 0, 1, none, none, true⟩
    else ⟨.UNUSED, none, false, 0, 0, none, none, false⟩
  pc _ := .idle
  initproc := init
  nextpid := 2
  log := []

/-! ## The log -/

/-- The exit of the process in entry `q` that no `wait` has reported yet. -/
def pending : List Event → Fin NPROC → Option (BitVec 32 × BitVec 32)
  | [], _ => none
  | .exit r pid status :: l, q => if q = r then some (pid, status) else pending l q
  | .report _ r _ _ _ _ :: l, q => if q = r then none else pending l q

/-- What a zombie's entry says of its exit. -/
def exitOf (e : Entry) : Option (BitVec 32 × BitVec 32) :=
  if e.state = .ZOMBIE then some (e.pid, e.xstate) else none

theorem exitOf_eq_none (h : e.state ≠ .ZOMBIE) : exitOf e = none := if_neg h

theorem exitOf_congr (h : e'.state = .ZOMBIE ↔ e.state = .ZOMBIE) (hpid : e'.pid = e.pid)
    (hx : e'.xstate = e.xstate) : exitOf e' = exitOf e := by
  unfold exitOf
  rw [hpid, hx]
  simp only [h]

/-- **Exits and reports match.**  A process exits when no exit of its entry is pending; a report takes a
pending exit, is made by the parent, and has the pid and, if it is asked for, the status of that exit. -/
def Sound : List Event → Prop
  | [] => True
  | .exit q _ _ :: l => pending l q = none ∧ Sound l
  | .report p q parent pid addr copied :: l =>
    parent = some p ∧ (∃ status, pending l q = some (pid, status) ∧ (addr → copied = status)) ∧ Sound l

/-! ## What the loops do to the table -/

/-- A process that was not freed and has not exited. -/
def Live (e : Entry) : Prop :=
  e.state = .RUNNABLE ∨ e.state = .RUNNING ∨ e.state = .SLEEPING

/-- Sleeping in `wait`, for process `p`. -/
def SleepsIn (p : Fin NPROC) (e : Entry) : Prop :=
  e.state = .SLEEPING ∧ e.chan = some (.proc p)

/-- An entry as `wakeup` may leave it; the parent is another matter. -/
structure Woken (e e' : Entry) : Prop where
  pid : e'.pid = e.pid
  xstate : e'.xstate = e.xstate
  chan : e'.chan = e.chan
  state : e'.state = e.state ∨ e.state = .SLEEPING ∧ e'.state = .RUNNABLE

theorem Woken.refl (e : Entry) : Woken e e := ⟨rfl, rfl, rfl, .inl rfl⟩

theorem Woken.trans (h : Woken e e') (h' : Woken e' e'') : Woken e e'' := by
  refine ⟨h'.pid.trans h.pid, h'.xstate.trans h.xstate, h'.chan.trans h.chan, ?_⟩
  rcases h.state with e1 | ⟨e1, e2⟩
  · rw [← e1]
    exact h'.state
  · rcases h'.state with e3 | ⟨e3, -⟩
    · exact .inr ⟨e1, e3.trans e2⟩
    · rw [e2] at e3
      cases e3

theorem Woken.live (h : Woken e e') : Live e' ↔ Live e := by
  unfold Live
  rcases h.state with e1 | ⟨e1, e2⟩
  · rw [e1]
  · simp [e1, e2]

theorem Woken.state_iff (h : Woken e e') (h₁ : st ≠ .SLEEPING)
    (h₂ : st ≠ .RUNNABLE) : e'.state = st ↔ e.state = st := by
  rcases h.state with e1 | ⟨e1, e2⟩
  · rw [e1]
  · rw [e1, e2]
    exact iff_of_false (Ne.symm h₂) (Ne.symm h₁)

theorem Woken.sleepsIn (h : Woken e e') (hs : SleepsIn p e') : SleepsIn p e := by
  rcases h.state with e1 | ⟨-, e2⟩
  · exact ⟨e1.symm.trans hs.1, h.chan.symm.trans hs.2⟩
  · rw [SleepsIn, e2] at hs
    cases hs.1

theorem wake_woken (chan : Option Chan) (e : Entry) : Woken e (wake chan e) := by
  unfold wake
  split
  case isTrue h => exact ⟨rfl, rfl, rfl, .inr ⟨h.1, rfl⟩⟩
  case isFalse => exact .refl e

theorem not_sleepsIn_wake (p : Fin NPROC) (e : Entry) :
    ¬SleepsIn p (wake (some (.proc p)) e) := by
  rintro ⟨h1, h2⟩
  unfold wake at h1 h2
  split at h1
  case isTrue => cases h1
  case isFalse hno =>
    rw [if_neg hno] at h2
    exact hno ⟨h1, h2⟩

theorem wakeup_woken (p : Fin NPROC) (chan : Option Chan) (t : Fin NPROC → Entry) (q : Fin NPROC) :
    Woken (t q) (wakeup p chan t q) ∧ (wakeup p chan t q).parent = (t q).parent := by
  unfold wakeup
  split
  · exact ⟨.refl _, rfl⟩
  · refine ⟨wake_woken chan (t q), ?_⟩
    unfold wake
    split <;> rfl

/-- What `reparent` has done when it has looked at the entries in `l`. -/
structure Reparented (p init : Fin NPROC) (l : List (Fin NPROC)) (t t' : Fin NPROC → Entry) : Prop where
  parent : ∀ q, (t' q).parent =
    if q ∈ l ∧ (t q).parent = some p then some init else (t q).parent
  woken : ∀ q, Woken (t q) (t' q)
  awake : (∃ q ∈ l, (t q).parent = some p) → ¬SleepsIn init (t' init)

/-- **`reparent`'s loop**: every child of `p` in the table gets a new parent, and if there is one the new
parent is awake. -/
theorem reparent_foldl (hp : p ≠ init) (l : List (Fin NPROC)) :
    ∀ t, Reparented p init l t (l.foldl (reparentOne p init) t) := by
  induction l with
  | nil => exact fun t => ⟨by simp, fun _ => .refl _, by simp⟩
  | cons pp l ih =>
    intro t
    obtain ⟨hpar, hwok, hawk⟩ := ih (reparentOne p init t pp)
    rw [foldl_cons]
    -- the round for `pp`
    have hpar1 : ∀ q, (reparentOne p init t pp q).parent =
        if q = pp ∧ (t q).parent = some p then some init else (t q).parent := by
      intro q
      unfold reparentOne
      by_cases hpp : (t pp).parent = some p
      · rw [if_pos hpp, (wakeup_woken _ _ _ q).2]
        by_cases hq : q = pp
        · rw [hq, update_self, if_pos ⟨rfl, hpp⟩]
        · rw [update_of_ne hq, if_neg fun e => hq e.1]
      · rw [if_neg hpp, if_neg]
        rintro ⟨rfl, e⟩
        exact hpp e
    have hwok1 : ∀ q, Woken (t q) (reparentOne p init t pp q) := by
      intro q
      unfold reparentOne
      split
      · refine .trans ?_ (wakeup_woken _ _ _ q).1
        by_cases hq : q = pp
        · rw [hq, update_self]
          exact ⟨rfl, rfl, rfl, .inl rfl⟩
        · rw [update_of_ne hq]
          exact .refl _
      · exact .refl _
    refine ⟨fun q => ?_, fun q => (hwok1 q).trans (hwok q), fun ⟨q, hq, he⟩ hs => ?_⟩
    · have hip : some init ≠ some p := fun e => hp (some.inj e).symm
      rw [hpar, hpar1]
      by_cases hq : (t q).parent = some p
      · by_cases hqp : q = pp
        · subst hqp
          simp [hq, hip]
        · simp [hq, hqp]
      · simp [hq]
    · -- the new parent was woken up in this round or in a later one
      have hs' : SleepsIn init (reparentOne p init t pp init) := (hwok init).sleepsIn hs
      by_cases hpp : (t pp).parent = some p
      · unfold reparentOne wakeup at hs'
        rw [if_pos hpp, if_neg hp.symm] at hs'
        exact not_sleepsIn_wake _ _ hs'
      · have hqp : q ≠ pp := by
          rintro rfl
          exact hpp he
        refine hawk ⟨q, (mem_cons.mp hq).resolve_left hqp, ?_⟩ hs
        rw [hpar1, if_neg fun e => hqp e.1]
        exact he

/-- **`exit`'s section**, entry by entry. -/
structure Exited (p init : Fin NPROC) (status : BitVec 32) (t t' : Fin NPROC → Entry) : Prop where
  self : (t' p).state = .ZOMBIE ∧ (t' p).pid = (t p).pid ∧ (t' p).xstate = status
  parent : ∀ q, (t' q).parent = if (t q).parent = some p then some init else (t q).parent
  woken : ∀ q, q ≠ p → Woken (t q) (t' q)
  child : (∃ q, (t q).parent = some p) → ¬SleepsIn init (t' init)
  own : ∀ r, r ≠ p → (t' p).parent = some r → ¬SleepsIn r (t' r)

theorem exit_exited (hp : p ≠ s.initproc) (status : BitVec 32) :
    Exited p s.initproc status s.proc (exit s p status).proc := by
  obtain ⟨hpar, hwok, hawk⟩ := reparent_foldl hp (finRange NPROC) s.proc
  simp only [mem_finRange, true_and] at hpar hawk
  -- the table before the last write
  set t := reparent p s.initproc s.proc with ht
  set t' := wakeup p ((t p).parent.map .proc) t with ht'
  have hw : ∀ q, Woken (t q) (t' q) ∧ (t' q).parent = (t q).parent := wakeup_woken p _ t
  have hex : (exit s p status).proc =
      update t' p { t' p with xstate := status, state := .ZOMBIE } := rfl
  rw [hex]
  refine ⟨?_, fun q => ?_, fun q hq => ?_, fun hc hs => ?_, fun r hr he hs => ?_⟩
  · rw [update_self]
    exact ⟨rfl, ((hw p).1.pid).trans (hwok p).pid, rfl⟩
  · by_cases hq : q = p
    · rw [hq, update_self]
      exact ((hw p).2).trans (hpar p)
    · rw [update_of_ne hq]
      exact ((hw q).2).trans (hpar q)
  · rw [update_of_ne hq]
    exact (hwok q).trans (hw q).1
  · rw [update_of_ne hp.symm] at hs
    exact hawk hc ((hw _).1.sleepsIn hs)
  · rw [update_self] at he
    rw [update_of_ne hr, ht', wakeup, if_neg hr, ← (hw p).2, he] at hs
    exact not_sleepsIn_wake r _ hs

/-! ## The invariant -/

/-- The thread is setting up process `q`. -/
def Pc.New (c : Pc) (q : Fin NPROC) : Prop :=
  c = .forking q ∨ c = .publishing q

/-- **The invariant.** -/
structure Inv (s : Sys) : Prop where
  init : Live (s.proc s.initproc)
  parent : ∀ q, Live (s.proc q) ∨ (s.proc q).state = .ZOMBIE → q ≠ s.initproc →
    ∃ r, (s.proc q).parent = some r ∧ Live (s.proc r)
  busy : ∀ p, s.pc p ≠ .idle → Live (s.proc p)
  new : ∀ p q, (s.pc p).New q → (s.proc q).state = .USED ∧ ∀ p', (s.pc p').New q → p' = p
  published : ∀ p q, s.pc p = .publishing q → (s.proc q).parent = some p
  awake : ∀ p, SleepsIn p (s.proc p) ∨ (s.pc p).Locked →
    ∀ q, (s.proc q).parent = some p → (s.proc q).state ≠ .ZOMBIE
  log : ∀ q, pending s.log q = exitOf (s.proc q)
  sound : Sound s.log

theorem not_live_of (h : e.state = st)
    (hst : st = .UNUSED ∨ st = .USED ∨ st = .ZOMBIE) : ¬Live e := by
  rintro (e | e | e) <;> rcases hst with rfl | rfl | rfl <;> rw [h] at e <;> cases e

theorem Inv.exit (h : Inv s) (hrun : (s.proc p).state = .RUNNING) (hpc : s.pc p = .idle)
    (hfree : ∀ q, ¬(s.pc q).Locked) (hp : p ≠ s.initproc) (status : BitVec 32) :
    Inv (exit s p status) := by
  have hx := exit_exited hp status
  set s' := Reap.exit s p status with hs'
  have hpc' : s'.pc = s.pc := rfl
  have hinit : s'.initproc = s.initproc := rfl
  have hlivep : Live (s.proc p) := .inr (.inl hrun)
  have hlive : ∀ {q}, q ≠ p → (Live (s'.proc q) ↔ Live (s.proc q)) := fun hq => (hx.woken _ hq).live
  have hzomb : ∀ {q}, q ≠ p → ((s'.proc q).state = .ZOMBIE ↔ (s.proc q).state = .ZOMBIE) :=
    fun hq => (hx.woken _ hq).state_iff (by decide) (by decide)
  constructor
  case init => exact (hlive hp.symm).mpr h.init
  case parent =>
    intro q hq hqi
    have hq0 : Live (s.proc q) ∨ (s.proc q).state = .ZOMBIE := by
      by_cases hqp : q = p
      · exact .inl (hqp ▸ hlivep)
      · exact hq.imp (hlive hqp).mp (hzomb hqp).mp
    obtain ⟨r, hr, hlr⟩ := h.parent q hq0 hqi
    rw [hx.parent]
    by_cases hrp : r = p
    · exact ⟨s.initproc, if_pos (hrp ▸ hr), (hlive hp.symm).mpr h.init⟩
    · refine ⟨r, ?_, (hlive hrp).mpr hlr⟩
      rw [if_neg, hr]
      rw [hr]
      exact fun e => hrp (some.inj e)
  case busy =>
    intro q hq
    have hqp : q ≠ p := by
      rintro rfl
      exact hq hpc
    exact (hlive hqp).mpr (h.busy q hq)
  case new =>
    intro r q hq
    obtain ⟨hused, huniq⟩ := h.new r q hq
    have hqp : q ≠ p := by
      rintro rfl
      rw [hrun] at hused
      cases hused
    exact ⟨((hx.woken q hqp).state_iff (by decide) (by decide)).mpr hused, huniq⟩
  case published =>
    intro r q hq
    have hr := h.published r q hq
    rw [hx.parent, if_neg, hr]
    rw [hr]
    intro e
    obtain rfl : r = p := some.inj e
    rw [hpc', hpc] at hq
    cases hq
  case awake =>
    intro r hr q hq hz
    have hs : SleepsIn r (s'.proc r) := hr.resolve_right (hfree r)
    have hrp : r ≠ p := by
      rintro rfl
      rw [SleepsIn, hx.self.1] at hs
      cases hs.1
    by_cases hqp : q = p
    · -- the wakeup before the change of state
      subst hqp
      exact hx.own r hrp hq hs
    · rw [hx.parent] at hq
      by_cases hpar : (s.proc q).parent = some p
      · -- the wakeup when the child was passed to init
        rw [if_pos hpar] at hq
        obtain rfl : s.initproc = r := some.inj hq
        exact hx.child ⟨q, hpar⟩ hs
      · rw [if_neg hpar] at hq
        exact h.awake r (.inl ((hx.woken r hrp).sleepsIn hs)) q hq ((hzomb hqp).mp hz)
  case log =>
    intro q
    show pending (.exit p (s.proc p).pid status :: s.log) q = _
    rw [pending]
    by_cases hqp : q = p
    · subst hqp
      rw [if_pos rfl, exitOf, if_pos hx.self.1, hx.self.2.1, hx.self.2.2]
    · rw [if_neg hqp, h.log q]
      exact (exitOf_congr (hzomb hqp) (hx.woken q hqp).pid (hx.woken q hqp).xstate).symm
  case sound =>
    refine ⟨?_, h.sound⟩
    rw [h.log p]
    exact exitOf_eq_none (by simp [hrun])

/-- A change of process `q` that matters to nobody; `locked` says that it is about to sleep in `wait`. -/
structure Calm (q : Fin NPROC) (locked : Prop) (e e' : Entry) : Prop where
  parent : e'.parent = e.parent
  pid : e'.pid = e.pid
  xstate : e'.xstate = e.xstate
  live : Live e' ↔ Live e
  dead : ∀ st, st = .ZOMBIE ∨ st = .USED → (e'.state = st ↔ e.state = st)
  sleeps : SleepsIn q e' → SleepsIn q e ∨ locked

theorem Calm.refl (q : Fin NPROC) (l : Prop) (e : Entry) : Calm q l e e :=
  ⟨rfl, rfl, rfl, Iff.rfl, fun _ _ => Iff.rfl, .inl⟩

theorem Woken.calm (h : Woken e e') (hp : e'.parent = e.parent) (q : Fin NPROC) (l : Prop) :
    Calm q l e e' := by
  refine ⟨hp, h.pid, h.xstate, h.live, fun st hst => ?_, fun hs => .inl (h.sleepsIn hs)⟩
  rcases hst with rfl | rfl <;> exact h.state_iff (by decide) (by decide)

/-- From one live state to another. -/
theorem Calm.of_live {l : Prop} (hp : e'.parent = e.parent) (hpid : e'.pid = e.pid)
    (hx : e'.xstate = e.xstate) (h : Live e) (h' : Live e') (hs : SleepsIn q e' → l) : Calm q l e e' := by
  refine ⟨hp, hpid, hx, iff_of_true h' h, fun st hst => ?_, fun e => .inr (hs e)⟩
  refine iff_of_false (fun e1 => not_live_of e1 ?_ h') (fun e1 => not_live_of e1 ?_ h)
  all_goals rcases hst with rfl | rfl <;> simp

theorem Inv.calm (h : Inv s) {t : Fin NPROC → Entry}
    (ht : ∀ q, Calm q (s.pc q).Locked (s.proc q) (t q)) : Inv { s with proc := t } := by
  constructor
  case init => exact (ht _).live.mpr h.init
  case parent =>
    intro q hq hqi
    obtain ⟨r, hr, hl⟩ := h.parent q (hq.imp (ht q).live.mp ((ht q).dead _ (.inl rfl)).mp) hqi
    exact ⟨r, (ht q).parent.trans hr, (ht r).live.mpr hl⟩
  case busy => exact fun p hp => (ht p).live.mpr (h.busy p hp)
  case new =>
    intro p q hq
    obtain ⟨hu, huniq⟩ := h.new p q hq
    exact ⟨((ht q).dead _ (.inr rfl)).mpr hu, huniq⟩
  case published => exact fun p q hq => (ht q).parent.trans (h.published p q hq)
  case awake =>
    intro p hp q hq hz
    exact h.awake p (hp.elim (ht p).sleeps .inr) q ((ht q).parent.symm.trans hq)
      (((ht q).dead _ (.inl rfl)).mp hz)
  case log =>
    intro q
    show pending s.log q = exitOf (t q)
    rw [h.log q]
    exact (exitOf_congr ((ht q).dead _ (.inl rfl)) (ht q).pid (ht q).xstate).symm
  case sound => exact h.sound

theorem Inv.calm_setProc (h : Inv s) {g : Entry → Entry}
    (hg : Calm q (s.pc q).Locked (s.proc q) (g (s.proc q))) : Inv (s.setProc q g) := by
  refine h.calm fun r => ?_
  by_cases hr : r = q
  · rw [hr, update_self]
    exact hg
  · rw [update_of_ne hr]
    exact .refl _ _ _

theorem killed_calm (q : Fin NPROC) (l : Prop) (e : Entry) : Calm q l e (killed e) := by
  have hw : Woken e (killed e) := by
    refine ⟨rfl, rfl, rfl, ?_⟩
    unfold killed
    split
    case isTrue he => exact .inr ⟨he, rfl⟩
    case isFalse => exact .inl rfl
  exact hw.calm rfl q l

/-- **A change of an entry whose process does not live yet or any more**, together with where the threads
are and what is in the log: setting up, publishing and freeing. -/
theorem Inv.entry (h : Inv s) {pc : Fin NPROC → Pc} {n : BitVec 32} {log : List Event}
    (hq : ¬Live (s.proc q)) (hz : e.state ≠ .ZOMBIE) (hs : ¬SleepsIn q e)
    (hparent : Live e → ∃ r, e.parent = some r ∧ Live (s.proc r))
    (hbusy : ∀ p, pc p ≠ .idle → Live (s.proc p))
    (hnew : ∀ p r, (pc p).New r → (r = q → e.state = .USED) ∧ (r ≠ q → (s.pc p).New r) ∧
      ∀ p', (pc p').New r → p' = p)
    (hpub : ∀ p r, pc p = .publishing r →
      (r = q → e.parent = some p) ∧ (r ≠ q → s.pc p = .publishing r))
    (hlock : ∀ p, (pc p).Locked → (s.pc p).Locked)
    (hlog : ∀ r, pending log r = if r = q then none else pending s.log r) (hsound : Sound log) :
    Inv { s with proc := update s.proc q e, pc := pc, nextpid := n, log := log } := by
  have hne : ∀ {r}, Live (s.proc r) → r ≠ q := by
    rintro r hr rfl
    exact hq hr
  have hlive : ∀ {r}, Live (s.proc r) → Live (update s.proc q e r) := by
    intro r hr
    rw [update_of_ne (hne hr)]
    exact hr
  constructor
  case init => exact hlive h.init
  case parent =>
    intro r hr hri
    by_cases hrq : r = q
    · simp only [hrq, update_self] at hr ⊢
      obtain ⟨r', hr', hl⟩ := hparent (hr.resolve_right hz)
      exact ⟨r', hr', hlive hl⟩
    · simp only [update_of_ne hrq] at hr ⊢
      obtain ⟨r', hr', hl⟩ := h.parent r hr hri
      exact ⟨r', hr', hlive hl⟩
  case busy => exact fun p hp => hlive (hbusy p hp)
  case new =>
    intro p r hr
    obtain ⟨h1, h2, h3⟩ := hnew p r hr
    refine ⟨?_, h3⟩
    by_cases hrq : r = q
    · simp [hrq, h1]
    · simp [hrq, (h.new p r (h2 hrq)).1]
  case published =>
    intro p r hr
    obtain ⟨h1, h2⟩ := hpub p r hr
    by_cases hrq : r = q
    · simp [hrq, h1]
    · simp [hrq, h.published p r (h2 hrq)]
  case awake =>
    intro p hp r hr hzr
    have hrq : r ≠ q := by
      rintro rfl
      simp [hz] at hzr
    simp only [update_of_ne hrq] at hr hzr
    refine h.awake p (hp.imp (fun hs' => ?_) (hlock p)) r hr hzr
    by_cases hpq : p = q
    · simp [hpq, hs] at hs'
    · simpa [hpq] using hs'
  case log =>
    intro r
    by_cases hrq : r = q
    · simp [hrq, hlog, exitOf_eq_none hz]
    · simp [hrq, hlog, h.log]
  case sound => exact hsound

/-- Who is set up when `p` has moved to `c`. -/
theorem Pc.New.of_update {pc : Fin NPROC → Pc} (h : (update pc p c r).New q) :
    r = p ∧ c.New q ∨ r ≠ p ∧ (pc r).New q := by
  by_cases hrp : r = p
  · rw [hrp, update_self] at h
    exact .inl ⟨hrp, h⟩
  · rw [update_of_ne hrp] at h
    exact .inr ⟨hrp, h⟩

theorem locked_of_update {pc : Fin NPROC → Pc} (hc : ¬c.Locked) (r : Fin NPROC)
    (h : (update pc p c r).Locked) : (pc r).Locked := by
  by_cases hrp : r = p
  · rw [hrp, update_self] at h
    exact absurd h hc
  · rwa [update_of_ne hrp] at h

/-- The thread of `p` moves to `c`, which sets up no other process than `q`. -/
theorem Inv.entry_goto (h : Inv s) {n : BitVec 32} {log : List Event} (hlive : Live (s.proc p))
    (huniq : ∀ r, (s.pc r).New q → r = p) (hc : ∀ r, c.New r → r = q ∧ e.state = .USED)
    (hpub : c = .publishing q → e.parent = some p) (hl : ¬c.Locked) (hq : ¬Live (s.proc q))
    (hz : e.state ≠ .ZOMBIE) (hs : ¬SleepsIn q e)
    (hparent : Live e → ∃ r, e.parent = some r ∧ Live (s.proc r))
    (hlog : ∀ r, pending log r = if r = q then none else pending s.log r) (hsound : Sound log) :
    Inv { s with proc := update s.proc q e, pc := update s.pc p c, nextpid := n, log := log } := by
  have hold : ∀ {r r'}, (update s.pc p c r).New r' →
      r = p ∧ c.New r' ∧ r' = q ∨ r' ≠ q ∧ (s.pc r).New r' := by
    intro r r' hr
    rcases hr.of_update with ⟨hrp, hn⟩ | ⟨hrp, hn⟩
    · exact .inl ⟨hrp, hn, (hc r' hn).1⟩
    · refine .inr ⟨?_, hn⟩
      rintro rfl
      exact hrp (huniq r hn)
  refine h.entry hq hz hs hparent (fun r hr => ?_) (fun r r' hr => ?_) (fun r r' hr => ?_)
    (locked_of_update hl) hlog hsound
  · by_cases hrp : r = p
    · rw [hrp]
      exact hlive
    · rw [update_of_ne hrp] at hr
      exact h.busy r hr
  · rcases hold hr with ⟨hrp, hn, hrq⟩ | ⟨hrq, hn⟩
    · refine ⟨fun _ => (hc r' hn).2, fun hne => absurd hrq hne, fun r'' hr'' => ?_⟩
      rcases hold hr'' with ⟨hrp', -⟩ | ⟨hrq', -⟩
      · rw [hrp, hrp']
      · exact absurd hrq hrq'
    · refine ⟨fun he => absurd he hrq, fun _ => hn, fun r'' hr'' => ?_⟩
      rcases hold hr'' with ⟨-, -, hrq'⟩ | ⟨-, hn'⟩
      · exact absurd hrq' hrq
      · exact (h.new r r' hn).2 r'' hn'
  · rcases update_cases hr with ⟨rfl, hcr⟩ | ⟨hrp, hpc⟩
    · obtain rfl := (hc r' (.inr hcr)).1
      exact ⟨fun _ => hpub hcr, fun hne => absurd rfl hne⟩
    · refine ⟨fun he => ?_, fun _ => hpc⟩
      subst he
      exact absurd (huniq r (.inr hpc)) hrp

/-- A thread moves without touching the table. -/
theorem Inv.goto (h : Inv s) (hlive : Live (s.proc p)) (hnew : ∀ q, ¬c.New q)
    (hlock : c.Locked → ∀ q, (s.proc q).parent = some p → (s.proc q).state ≠ .ZOMBIE) :
    Inv (s.goto p c) := by
  have hold : ∀ {r q}, (update s.pc p c r).New q → r ≠ p ∧ (s.pc r).New q :=
    fun {_ q} hr => hr.of_update.resolve_left fun he => hnew q he.2
  constructor
  case init => exact h.init
  case parent => exact h.parent
  case busy =>
    intro r hr
    by_cases hrp : r = p
    · exact hrp ▸ hlive
    · exact h.busy r (by simpa [Sys.goto, hrp] using hr)
  case new =>
    intro r q hr
    obtain ⟨hu, huniq⟩ := h.new r q (hold hr).2
    exact ⟨hu, fun r' hr' => huniq r' (hold hr').2⟩
  case published =>
    intro r q hr
    obtain ⟨hrp, -⟩ := hold (.inr hr)
    exact h.published r q (by simpa [Sys.goto, hrp] using hr)
  case awake =>
    intro r hr q hq
    rcases hr with hs | hl
    · exact h.awake r (.inl hs) q hq
    · by_cases hrp : r = p
      · subst hrp
        exact hlock (by simpa [Sys.goto] using hl) q hq
      · exact h.awake r (.inr (by simpa [Sys.goto, hrp] using hl)) q hq
  case log => exact h.log
  case sound => exact h.sound

/-- An entry that is not a zombie has no pending exit. -/
theorem Inv.pending_none (h : Inv s) (hq : (s.proc q).state ≠ .ZOMBIE) (r : Fin NPROC) :
    pending s.log r = if r = q then none else pending s.log r := by
  split
  case isTrue hr => rw [hr, h.log q, exitOf_eq_none hq]
  case isFalse => rfl

theorem Inv.fork (h : Inv s) (hlive : Live (s.proc p)) (fails : Bool) : Inv (fork s p fails) := by
  unfold Reap.fork
  cases hfind : unusedProc s with
  | none => exact h
  | some q =>
    have hq : (s.proc q).state = .UNUSED := by
      have hdec := find?_some hfind
      exact of_decide_eq_true hdec
    have hqn : ∀ {r r'}, (s.pc r).New r' → r' ≠ q := by
      rintro r r' hr rfl
      rw [(h.new r r' hr).1] at hq
      cases hq
    have hdead := not_live_of hq (.inl rfl)
    have hlog := h.pending_none (q := q) (by simp [hq])
    cases fails with
    | true =>
      refine h.entry hdead nofun (fun e => nomatch e.1) (fun e => absurd e (not_live_of rfl (.inl rfl)))
        h.busy (fun r r' hr => ⟨fun e => absurd e (hqn hr), fun _ => hr, (h.new r r' hr).2⟩)
        (fun r r' hr => ⟨fun e => absurd e (hqn (.inr hr)), fun _ => hr⟩) (fun _ hl => hl) hlog h.sound
    | false =>
      exact h.entry_goto hlive (fun r hr => absurd rfl (hqn hr))
        (by rintro r (e | e) <;> cases e; exact ⟨rfl, rfl⟩) nofun nofun hdead nofun
        (fun e => nomatch e.1) (fun e => absurd e (not_live_of rfl (.inr (.inl rfl)))) hlog h.sound

theorem Inv.setParent (h : Inv s) (hpc : s.pc p = .forking q) :
    Inv ((s.setProc q fun e => { e with parent := some p }).goto p (.publishing q)) := by
  obtain ⟨hused, huniq⟩ := h.new p q (.inl hpc)
  have hdead := not_live_of hused (.inr (.inl rfl))
  exact h.entry_goto (h.busy p (by rw [hpc]; exact nofun)) huniq
    (by rintro r (e | e) <;> cases e; exact ⟨rfl, hused⟩) (fun _ => rfl) nofun hdead (by simp [hused])
    (fun e => hdead (.inr (.inr e.1))) (fun e => absurd e hdead) (h.pending_none (by simp [hused]))
    h.sound

theorem Inv.publish (h : Inv s) (hpc : s.pc p = .publishing q) :
    Inv ((s.setProc q fun e => { e with state := .RUNNABLE }).goto p .idle) := by
  obtain ⟨hused, huniq⟩ := h.new p q (.inr hpc)
  have hlive : Live (s.proc p) := h.busy p (by rw [hpc]; exact nofun)
  exact h.entry_goto hlive huniq (by rintro r (e | e) <;> cases e) nofun nofun
    (not_live_of hused (.inr (.inl rfl))) nofun (fun e => nomatch e.1)
    (fun _ => ⟨p, h.published p q hpc, hlive⟩) (h.pending_none (by simp [hused])) h.sound

/-- `wait` frees a zombie and reports it. -/
theorem Inv.reap (h : Inv s) (hlive : Live (s.proc p)) (hq : (s.proc q).parent = some p)
    (hz : (s.proc q).state = .ZOMBIE) (addr : Bool) :
    Inv (((s.setProc q freeproc).goto p .idle).report p q (s.proc q) addr) := by
  have hne : ∀ r, (s.pc r).New q → r = p := by
    intro r hr
    rw [(h.new r q hr).1] at hz
    cases hz
  refine h.entry_goto hlive hne (by rintro r (e | e) <;> cases e) nofun nofun
    (not_live_of hz (.inr (.inr rfl))) nofun (fun e => nomatch e.1)
    (fun e => absurd e (not_live_of rfl (.inl rfl))) (fun r => rfl)
    ⟨hq, ⟨(s.proc q).xstate, ?_, fun _ => rfl⟩, h.sound⟩
  show pending s.log q = _
  rw [h.log q, exitOf, if_pos hz]

theorem zombieChild_some (h : zombieChild s p = some q) :
    (s.proc q).parent = some p ∧ (s.proc q).state = .ZOMBIE := by
  have hdec := find?_some h
  exact of_decide_eq_true hdec

theorem zombieChild_none (h : zombieChild s p = none) (q : Fin NPROC)
    (hq : (s.proc q).parent = some p) : (s.proc q).state ≠ .ZOMBIE := by
  intro hz
  exact find?_eq_none.mp h q (mem_finRange q) (decide_eq_true ⟨hq, hz⟩)

theorem Inv.wait (h : Inv s) (hlive : Live (s.proc p)) (addr bad : Bool) :
    Inv (wait s p addr bad).1 := by
  have hidle : Inv (s.goto p .idle) := h.goto hlive (by rintro q (e | e) <;> cases e) nofun
  unfold Reap.wait
  cases hz : zombieChild s p with
  | some q =>
    obtain ⟨hq, hzq⟩ := zombieChild_some hz
    dsimp only
    split
    · exact hidle
    · exact h.reap hlive hq hzq addr
  | none =>
    dsimp only
    split
    · exact hidle
    · exact h.goto hlive (by rintro q (e | e) <;> cases e) fun _ => zombieChild_none hz

theorem Inv.fall (h : Inv s) (hpc : s.pc p = .falling addr bad) :
    Inv ((s.setProc p fun e => { e with state := .SLEEPING, chan := some (.proc p) }).goto p
      (.waiting addr bad)) := by
  have hlive := h.busy p (by rw [hpc]; exact nofun)
  have hlive' : Live { s.proc p with state := .SLEEPING, chan := some (.proc p) } := .inr (.inr rfl)
  have hset : Inv (s.setProc p fun e => { e with state := .SLEEPING, chan := some (.proc p) }) :=
    h.calm_setProc (.of_live rfl rfl rfl hlive hlive' fun _ => by rw [hpc]; trivial)
  refine hset.goto ?_ (by rintro q (e | e) <;> cases e) nofun
  show Live (update s.proc p _ p)
  rw [update_self]
  exact hlive'

/-- **One step** keeps the invariant. -/
theorem step_inv (h : Inv s) (hs : step s a = .ok s') : Inv s' := by
  cases a <;> rw [step] at hs
  case schedule p =>
    split at hs <;> cases hs
    case isTrue.refl hp =>
      exact h.calm_setProc (.of_live rfl rfl rfl (.inl hp) (.inr (.inl rfl)) fun e => nomatch e.1)
    case isFalse.refl => exact h
  case yield p =>
    split at hs <;> cases hs
    case isTrue.refl hp =>
      exact h.calm_setProc (.of_live rfl rfl rfl (.inr (.inl hp.1)) (.inl rfl) fun e => nomatch e.1)
    case isFalse.refl => exact h
  case sleep p n =>
    split at hs <;> cases hs
    case isTrue.refl hp =>
      exact h.calm_setProc (.of_live rfl rfl rfl (.inr (.inl hp.1)) (.inr (.inr rfl))
        fun e => nomatch e.2)
    case isFalse.refl => exact h
  case wakeup p n =>
    split at hs <;> cases hs
    · exact h.calm fun q => (wakeup_woken p _ s.proc q).1.calm (wakeup_woken p _ s.proc q).2 q _
    · exact h
  case kill pid =>
    split at hs
    · cases hs
      exact h
    · split at hs <;> cases hs
      · exact h
      · exact h.calm_setProc (killed_calm _ _ _)
  case fork p fails =>
    split at hs <;> cases hs
    case isTrue.refl hp => exact h.fork (.inr (.inl hp.1)) fails
    case isFalse.refl => exact h
  case setParent p =>
    split at hs <;> cases hs
    case h_1.refl q _ hpc => exact h.setParent hpc
    case h_2.refl => exact h
  case publish p =>
    split at hs <;> cases hs
    case h_1.refl q _ hpc => exact h.publish hpc
    case h_2.refl => exact h
  case exit p status =>
    split at hs
    case isTrue hp =>
      split at hs
      case isTrue => cases hs
      case isFalse hne =>
        cases hs
        exact h.exit hp.1 hp.2.1 hp.2.2 hne status
    case isFalse =>
      cases hs
      exact h
  case wait p addr bad =>
    split at hs <;> cases hs
    case isTrue.refl hp => exact h.wait (.inr (.inl hp.1)) addr bad
    case isFalse.refl => exact h
  case rescan p =>
    split at hs <;> cases hs
    case h_1.refl addr bad hp _ => exact h.wait (.inr (.inl hp)) addr bad
    case h_2.refl => exact h
  case fall p =>
    split at hs <;> cases hs
    case h_1.refl addr bad hpc => exact h.fall hpc
    case h_2.refl => exact h

/-- **Every run** keeps the invariant. -/
theorem run_inv (h : Inv s) (hs : run step s as = .ok s') : Inv s' :=
  run_invariant (fun _ _ _ hI hstep => step_inv hI hstep) hs h

theorem boot_inv (init : Fin NPROC) : Inv (boot init) := by
  have hother : ∀ {q}, q ≠ init → ((boot init).proc q).state = .UNUSED := by
    intro q hq
    simp [boot, hq]
  have hfirst : ((boot init).proc init).state = .RUNNABLE := by simp [boot]
  have hz : ∀ q, ((boot init).proc q).state ≠ .ZOMBIE := by
    intro q e
    by_cases hq : q = init
    · rw [hq, hfirst] at e
      cases e
    · rw [hother hq] at e
      cases e
  constructor
  case init => exact .inl hfirst
  case parent =>
    intro q hq hne
    exact absurd hq (not_or.mpr ⟨not_live_of (hother hne) (.inl rfl), hz q⟩)
  case busy => exact fun p hp => absurd rfl hp
  case new => exact fun p q hq => by rcases hq with e | e <;> cases e
  case published => exact fun p q hq => nomatch hq
  case awake => exact fun p _ q _ => hz q
  case log => exact fun q => (exitOf_eq_none (hz q)).symm
  case sound => trivial

/-! ## Reaping -/

/-- `wait` that cannot copy out has found a zombie, and leaves the table alone. -/
theorem wait_badCopy (h : (wait s p addr bad).2 = .badCopy q) :
    zombieChild s p = some q ∧ (wait s p addr bad).1 = s.goto p .idle := by
  unfold wait at h ⊢
  cases hz : zombieChild s p with
  | none =>
    rw [hz] at h
    dsimp only at h
    split at h <;> cases h
  | some r =>
    rw [hz] at h
    dsimp only at h ⊢
    split at h
    case isTrue hb =>
      cases h
      exact ⟨rfl, by rw [if_pos hb]⟩
    case isFalse => cases h

theorem wait_reaps (h : zombieChild s p = some q) (addr : Bool) :
    (wait s p addr false).2 = .reaped q (s.proc q).pid := by
  unfold wait
  rw [h]
  simp

/-- The first process forks, and its child exits with status 7. -/
def forkExit : List Act :=
  [.schedule firstProc, .fork firstProc false, .setParent firstProc, .publish firstProc,
    .schedule ⟨1, one_lt_NPROC⟩, .exit ⟨1, one_lt_NPROC⟩ 7]

theorem forkExit_ok : ∃ s, run step (boot firstProc) forkExit = .ok s ∧
    (wait s firstProc true true).2 = .badCopy ⟨1, by decide⟩ := by
  have h : ((run step (boot firstProc) forkExit).toOption.map fun s =>
      (wait s firstProc true true).2) = some (.badCopy ⟨1, by decide⟩) := by
    decide +kernel
  exact ok_of_map h

end Xv6.Sched.Reap
