/-
# Xv6.Sched.OneCpu — a process is executed by one CPU at a time (`kernel/proc.c`).

`kill`, `fork`, `exit` and `wait` are written as code of kernel threads, each read once against the lock
discipline.  What `Xv6.Sched.Locks` proves of disciplined code then holds for any number of CPUs and every
interleaving of these functions with the schedulers, `yield`, `sleep` and `wakeup`.
-/
import Xv6.Sched.Locks

namespace Xv6.Sched

open Lib List Option SpinLock

variable {p q : Fin NPROC}

/-! ## The functions -/

/-- What a process can call.  `fork` may run out of memory; `wait` may be given an address, and `copyout`
may fail on it.  `waitLoop` is where `wait` goes on after it has slept. -/
inductive Call where
  | yield
  | sleep (chan : Chan) (lk : Nat)
  | wakeup (chan : Chan) (lk : Nat)
  | kill (pid : BitVec 32)
  | fork (fails : Bool)
  | exit (status : BitVec 32)
  | wait (addr bad : Bool)
  | waitLoop (addr bad : Bool)

variable {σ L : Type}

/-- Free a process: the fields of `struct proc` that others see. -/
def freeproc (e : Entry) : Entry :=
  { e with
    pid := 0, parent := none, chan := none, killed := false, xstate := 0, state := .UNUSED }

/-- The body of `kill`'s loop for the process with the given pid. -/
def killed (e : Entry) : Entry :=
  { e with killed := true, state := if e.state = .SLEEPING then .RUNNABLE else e.state }

/-- Kill the process with the given pid. -/
def kill (pid : BitVec 32) : List (Fin NPROC) → Code σ L
  | [] => .ret
  | q :: qs =>
    .acquire (.proc q) <|
    .act (fun s => if (s.proc q).pid = pid then s.setProc q killed else s) fun s =>
    .release (.proc q) (if (s.proc q).pid = pid then .ret else kill pid qs)

/-- `fork`, once `allocproc` has found the entry `q` and marked it `USED`. -/
def forkChild (p q : Fin NPROC) (fails : Bool) : Code σ Call :=
  .acquire .pid_lock <|
  .act (fun s => { s.setProc q fun e => { e with pid := s.nextpid } with
    nextpid := s.nextpid + 1 }) fun _ =>
  .release .pid_lock <|
  if fails then
    .act (fun s => s.setProc q freeproc) fun _ =>
    .release (.proc q) .ret
  else
    .release (.proc q) <|
    .acquire .wait_lock <|
    .act (fun s => s.setProc q fun e => { e with parent := some p }) fun _ =>
    .release .wait_lock <|
    .acquire (.proc q) <|
    .act (fun s => s.setProc q fun e => { e with state := .RUNNABLE }) fun _ =>
    .release (.proc q) .ret

/-- Create a new process: `allocproc`'s loop, then `forkChild`. -/
def fork (p : Fin NPROC) (fails : Bool) : List (Fin NPROC) → Code σ Call
  | [] => .ret
  | q :: qs =>
    .acquire (.proc q) <|
    .act (fun s =>
      if (s.proc q).state = .UNUSED then
        s.setProc q fun e => { e with state := .USED, creator := some p, forkret := true }
      else s) fun s =>
    if (s.proc q).state = .UNUSED then forkChild p q fails else .release (.proc q) (fork p fails qs)

/-- Pass p's abandoned children to init. -/
def reparent (p : Fin NPROC) (k : Code σ Call) : List (Fin NPROC) → Code σ Call
  | [] => k
  | pp :: pps =>
    .act (fun s =>
      if (s.proc pp).parent = some p then
        s.setProc pp fun e => { e with parent := some s.initproc }
      else s) fun s =>
    if (s.proc pp).parent = some p then
      wakeup (some p) (some (.proc s.initproc)) (reparent p k pps)
    else
      reparent p k pps

/-- Exit the current process, from the point where its files are closed.  Does not return. -/
def exit (p : Fin NPROC) (status : BitVec 32) : Code σ Call :=
  .act id fun s =>
  if s.initproc = p then
    .stop "init exiting"
  else
    .acquire .wait_lock <|
    reparent p
      (.act id fun s =>
        wakeup (some p) ((s.proc p).parent.map .proc) <|
        .acquire (.proc p) <|
        .act (fun s => s.setProc p fun e => { e with xstate := status, state := .ZOMBIE }) fun _ =>
        .release .wait_lock <|
        .sched <|
        .stop "zombie exit")
      (List.finRange NPROC)

/-- `wait`'s scan of the table, holding `wait_lock`. -/
def waitScan (p : Fin NPROC) (addr bad : Bool) (havekids : Bool) : List (Fin NPROC) → Code σ Call
  | [] =>
    if havekids then
      .acquire (.proc p) <|
      .act id fun s =>
      .release (.proc p) <|
      if (s.proc p).killed then
        .release .wait_lock .ret
      else
        Sched.sleep p (.proc p) .wait_lock (.jump (.waitLoop addr bad))
    else
      .release .wait_lock .ret
  | pp :: pps =>
    .act id fun s =>
    if (s.proc pp).parent = some p then
      .acquire (.proc pp) <|
      .act (fun s =>
        if (s.proc pp).state = .ZOMBIE ∧ ¬(addr ∧ bad) then s.setProc pp freeproc else s) fun s =>
      if (s.proc pp).state = .ZOMBIE then
        .release (.proc pp) (.release .wait_lock .ret)
      else
        .release (.proc pp) (waitScan p addr bad true pps)
    else
      waitScan p addr bad havekids pps

/-- The code of the calls. -/
def Call.body (p : Fin NPROC) : Call → Code σ Call
  | .yield => Sched.yield p .ret
  | .sleep chan lk => .acquire (.other lk) (Sched.sleep p chan (.other lk) (.release (.other lk) .ret))
  | .wakeup chan lk =>
    .acquire (.other lk) (Sched.wakeup (some p) (some chan) (.release (.other lk) .ret))
  | .kill pid => Sched.kill pid (List.finRange NPROC)
  | .fork fails => Sched.fork p fails (List.finRange NPROC)
  | .exit status => Sched.exit p status
  | .wait addr bad => .acquire .wait_lock (.jump (.waitLoop addr bad))
  | .waitLoop addr bad => waitScan p addr bad false (List.finRange NPROC)

/-- A device's interrupt wakes up the processes that wait for it. -/
def Call.handler (self : Option (Fin NPROC)) (k : Code σ Call) : Call → Code σ Call
  | .wakeup chan lk => .acquire (.other lk) (Sched.wakeup self (some chan) (.release (.other lk) k))
  | _ => k

/-- Whether a call is one, and not the middle of one. -/
def Call.isEntry : Call → Bool
  | .waitLoop _ _ => false
  | _ => true

/-- The kernel. -/
def kernel (σ : Type) : Kernel σ Call where
  entry := Call.isEntry
  body := Call.body
  handler l self k := l.handler self k

/-- What holds where a call starts or goes on. -/
def Call.pre (_ : Fin NPROC) : Call → Ctx
  | .waitLoop _ _ => ⟨[.wait_lock], .RUNNING, none, none⟩
  | _ => Ctx.free

/-! ## The functions keep the discipline -/

/-- Reading changes nothing. -/
theorem Moves.read : Moves self x s (id s) x :=
  .keep fun _ => .refl _

/-- A lock of another process may be given back in any context of a process. -/
theorem ok_unlock {pre : Fin NPROC → L → Ctx}
    (hk : Ok pre (some p) k ⟨held, .RUNNING, n, none⟩) :
    Ok pre (some p) (.release (.proc q) k) ⟨.proc q :: held, .RUNNING, n, none⟩ := by
  refine ⟨mem_cons_self, fun r _ => ⟨fun _ => rfl, nofun⟩, ?_⟩
  simpa [Ctx.drop] using hk

theorem ok_kill {pre : Fin NPROC → L → Ctx} (p : Fin NPROC) (pid : BitVec 32)
    (qs : List (Fin NPROC)) : Ok pre (some p) (kill pid qs : Code σ L) Ctx.free := by
  induction qs with
  | nil => rfl
  | cons q qs ih =>
    refine ⟨not_mem_nil, fun s hs => ⟨Ctx.free.take (.proc q), ?_, ok_unlock ?_⟩⟩
    · by_cases hpid : (s.proc q).pid = pid
      case neg =>
        simp only [if_neg hpid]
        exact .read
      simp only [if_pos hpid]
      by_cases hst : (s.proc q).state = .SLEEPING
      · have hpq : some p ≠ some q := by
          intro e
          have hown := hs.own p rfl
          rw [some.inj e, hst] at hown
          cases hown
        exact .wake q mem_cons_self hpq (s.agreesOff_setProc _ _) hst
          (by simp [killed, hst]) (by simp [killed]) (by simp [killed])
      · exact .keep (s.agrees_setProc q ⟨by simp [killed, hst], rfl, rfl⟩)
    · split
      · rfl
      · exact ih

theorem ok_forkChild (hpq : p ≠ q) (fails : Bool) :
    Ok Call.pre (some p) (forkChild p q fails : Code σ Call) ⟨[.proc q], .RUNNING, some q, none⟩ := by
  have hne : some p ≠ some q := fun e => hpq (some.inj e)
  refine ⟨by simp, fun s _ => ⟨_, .keep (s.agrees_setProc q (g := fun e =>
    { e with pid := s.nextpid }) ⟨rfl, rfl, rfl⟩), ?_⟩⟩
  refine ⟨by simp [Ctx.take], by rintro _ ⟨⟩, ?_⟩
  rw [Ctx.drop_take]
  cases fails with
  | true =>
    refine fun s _ => ⟨_, .abandon q (mem_singleton_self _) hne (s.agreesOff_setProc _ _) rfl
      (by simp [freeproc]), ok_unlock rfl⟩
  | false =>
    refine ok_unlock ⟨not_mem_nil, fun s _ =>
      ⟨_, .keep (s.agrees_setProc q ⟨rfl, rfl, rfl⟩), ?_⟩⟩
    refine ⟨by simp [Ctx.take], by rintro _ ⟨⟩, ?_⟩
    rw [Ctx.drop_take]
    refine ⟨not_mem_nil, fun s _ => ⟨_, .publish q (mem_singleton_self _) hne
      (s.agreesOff_setProc _ _) rfl (by simp) (by simp), ok_unlock rfl⟩⟩

theorem ok_fork (p : Fin NPROC) (fails : Bool) (qs : List (Fin NPROC)) :
    Ok Call.pre (some p) (fork p fails qs : Code σ Call) Ctx.free := by
  induction qs with
  | nil => rfl
  | cons q qs ih =>
    refine ⟨not_mem_nil, fun s hs => ?_⟩
    by_cases hst : (s.proc q).state = .UNUSED
    · have hpq : p ≠ q := by
        rintro rfl
        have hown := hs.own p rfl
        rw [hst] at hown
        cases hown
      simp only [if_pos hst]
      exact ⟨_, .alloc p q (mem_singleton_self _) rfl hpq (s.agreesOff_setProc _ _) rfl hst
        (by simp) (by simp) (by simp), ok_forkChild hpq fails⟩
    · simp only [if_neg hst]
      exact ⟨_, .read, ok_unlock ih⟩

theorem ok_reparent (hx : ∀ q, proc q ∉ x.held)
    (hback : x.back = none) (hk : Ok Call.pre (some p) k x) (pps : List (Fin NPROC)) :
    Ok Call.pre (some p) (reparent p k pps) x := by
  induction pps with
  | nil => exact hk
  | cons pp pps ih =>
    intro s _
    by_cases hpp : (s.proc pp).parent = some p
    · simp only [if_pos hpp]
      exact ⟨_, .keep (s.agrees_setProc pp ⟨rfl, rfl, rfl⟩), ok_wakeup hx hback ih⟩
    · simp only [if_neg hpp]
      exact ⟨_, .read, ih⟩

theorem ok_exit (p : Fin NPROC) (status : BitVec 32) :
    Ok Call.pre (some p) (exit p status : Code σ Call) Ctx.free := by
  refine fun s _ => ⟨_, .read, ?_⟩
  beta_reduce
  split
  · rfl
  have hlocks : ∀ q, proc q ∉ (Ctx.free.take .wait_lock).held := by simp [Ctx.take, Ctx.free]
  refine ⟨not_mem_nil, ok_reparent hlocks rfl ?_ _⟩
  refine fun s _ => ⟨_, .read, ok_wakeup hlocks rfl ⟨hlocks p, fun s _ => ⟨_, .leave p mem_cons_self rfl
    (s.agreesOff_setProc _ _) rfl (by simp) (by simp) (by simp), ?_⟩⟩⟩
  refine ⟨by simp [Ctx.take], by rintro _ ⟨⟩, p, rfl, ?_, .inl ⟨by simp [Ctx.take, Ctx.drop], rfl⟩⟩
  simp [Ctx.take, Ctx.drop, Ctx.free]

/-- The end of `wait`: `wait_lock` is given back. -/
theorem ok_waitDone (p : Fin NPROC) :
    Ok Call.pre (some p) (.release .wait_lock .ret : Code σ Call)
      ⟨[.wait_lock], .RUNNING, none, none⟩ := by
  refine ⟨mem_singleton_self _, nofun, ?_⟩
  simp [Ok, Ctx.drop, Ctx.free]

theorem ok_waitScan (p : Fin NPROC) (addr bad : Bool) (pps : List (Fin NPROC)) :
    ∀ havekids, Ok Call.pre (some p) (waitScan p addr bad havekids pps : Code σ Call)
      ⟨[.wait_lock], .RUNNING, none, none⟩ := by
  induction pps with
  | nil =>
    rintro (- | -)
    · exact ok_waitDone p
    · refine ⟨by simp, fun s _ => ⟨_, .read, ok_unlock ?_⟩⟩
      split
      · exact ok_waitDone p
      · exact ok_sleep nofun ⟨p, rfl, rfl⟩
  | cons pp pps ih =>
    intro havekids s _
    refine ⟨_, .read, ?_⟩
    beta_reduce
    split
    case isFalse => exact ih havekids
    refine ⟨by simp, fun s hs => ?_⟩
    by_cases hst : (s.proc pp).state = .ZOMBIE
    · simp only [if_pos hst]
      refine ⟨_, ?_, ok_unlock (ok_waitDone p)⟩
      split
      · have hpp : some p ≠ some pp := by
          intro e
          have hown := hs.own p rfl
          rw [some.inj e, hst] at hown
          cases hown
        exact .reap pp mem_cons_self hpp nofun (s.agreesOff_setProc _ _) hst (by simp [freeproc])
      · exact .read
    · simp only [if_neg hst, if_neg fun e => hst (And.left e)]
      exact ⟨_, .read, ok_unlock (ih true)⟩

/-- `wakeup` under a lock that guards what is waited for. -/
theorem ok_wakeupUnder
    (hk : Ok Call.pre self k ⟨[], .RUNNING, n, none⟩) :
    Ok Call.pre self (.acquire (.other lk) (wakeup self chan (.release (.other lk) k)))
      ⟨[], .RUNNING, n, none⟩ := by
  refine ⟨not_mem_nil, ok_wakeup (by simp [Ctx.take]) rfl ⟨mem_cons_self, nofun, ?_⟩⟩
  rwa [Ctx.drop_take]

/-- **The kernel keeps the lock discipline.** -/
theorem kernel_disciplined : Disciplined (kernel σ) Call.pre where
  entry p l hl := by
    cases l with
    | waitLoop => cases hl
    | _ => rfl
  body p l := by
    cases l with
    | yield => exact ok_yield rfl
    | sleep chan lk =>
      refine ⟨not_mem_nil, ok_sleep nofun ⟨mem_singleton_self _, nofun, ?_⟩⟩
      simp [Ok, Ctx.drop, Ctx.free, Call.pre]
    | wakeup chan lk => exact ok_wakeupUnder rfl
    | kill pid => exact ok_kill p pid _
    | fork fails => exact ok_fork p fails _
    | exit status => exact ok_exit p status
    | wait addr bad => exact ⟨not_mem_nil, p, rfl, rfl⟩
    | waitLoop addr bad => exact ok_waitScan p addr bad _ false
  handler l self k n hk := by
    cases l with
    | wakeup chan lk => exact ok_wakeupUnder hk
    | _ => exact hk

/-! ## What one step does to the process table -/

section Table

variable {C : Type} [DecidableEq C] {K : Kernel σ L} {pre : Fin NPROC → L → Ctx}
  {m m' : Machine C σ L} {X : Thread C → Ctx} {a : Action C L}

/-- **Who writes the process table**: a thread that is allowed to, or a scheduler that runs a process. -/
theorem Inv.step_shared (h : Inv pre m X) (ha : step K m a = .ok m') :
    m'.shared = m.shared ∨
    (∃ c x', a = .exec c ∧ Moves (m.cpu c).cur (X (m.thread c)) m.shared m'.shared x') ∨
    ∃ c q, a = .exec c ∧ (m.cpu c).cur = none ∧ m.lock (.proc q) = some c ∧
      (m.shared.proc q).state = .RUNNABLE ∧ m.shared.AgreesOff q m'.shared ∧
      (m'.shared.proc q).state = .RUNNING := by
  cases a with
  | call c l on =>
    left
    obtain rfl : Sched.call K m c l on = m' := Except.ok.inj ha
    unfold Sched.call
    split
    · split <;> rfl
    · rfl
  | irq c l timer =>
    left
    obtain rfl : Sched.irq K m c l timer = m' := Except.ok.inj ha
    unfold Sched.irq
    split <;> rfl
  | exec c =>
    replace ha : instr K m c (m.code (m.thread c)) = .ok m' := ha
    have hr := h.runs c
    cases hk : m.code (m.thread c) with
    | ret | jump =>
      left
      rw [hk, instr] at ha
      split at ha <;> cases ha <;> rfl
    | acquire lk k =>
      left
      rw [hk, instr, Sched.acquire] at ha
      split at ha
      · cases ha
        rfl
      · split at ha <;> cases ha
        rfl
    | release lk k =>
      left
      rw [hk, instr, Sched.release] at ha
      split at ha
      · cases ha
      · cases hu : popOff (m.cpu c) with
        | error e =>
          rw [hu] at ha
          cases ha
        | ok u =>
          rw [hu] at ha
          cases ha
          rfl
    | act f k =>
      rw [hk] at ha hr
      cases ha
      obtain ⟨x', hmove, -⟩ := hr.ok m.shared (h.knows c)
      exact .inr (.inl ⟨c, x', rfl, hmove⟩)
    | sched k =>
      left
      rw [hk, instr, Sched.sched] at ha
      cases hp : (m.cpu c).proc with
      | none =>
        simp only [hp] at ha
        cases ha
      | some p =>
        simp only [hp] at ha
        split at ha
        · cases ha
        split at ha
        · cases ha
        split at ha
        · cases ha
        split at ha <;> cases ha
        rfl
    | intena b k | intr | idle =>
      rw [hk] at ha
      cases ha
      exact .inl rfl
    | pick q k1 k2 =>
      rw [hk] at ha hr
      cases ha
      by_cases hq : (m.shared.proc q).state = .RUNNABLE
      · obtain ⟨hcur, hlock, -, -⟩ := h.pick_alone hk (by simp [hq])
        refine .inr (.inr ⟨c, q, rfl, hcur, (hlock _).mpr (mem_singleton_self _), hq, ?_⟩)
        rw [pick_eq hcur hq]
        dsimp only
        exact ⟨m.shared.agreesOff_setProc q _, by simp⟩
      · left
        unfold Sched.pick
        rw [if_neg hq]
        rfl
    | stop msg =>
      rw [hk] at ha
      cases ha

/-- A process starts to run only from `RUNNABLE`, by a scheduler that holds its lock. -/
theorem Inv.starts (h : Inv pre m X) (ha : step K m a = .ok m')
    (hp : (m.shared.proc p).state ≠ .RUNNING) (hp' : (m'.shared.proc p).state = .RUNNING) :
    ∃ c, a = .exec c ∧ (m.cpu c).cur = none ∧ m.lock (.proc p) = some c ∧
      (m.shared.proc p).state = .RUNNABLE := by
  -- the other writers leave a process that does not run in a state that is not `RUNNING`
  have hoff : ∀ {q : Fin NPROC}, m.shared.AgreesOff q m'.shared → p = q := by
    intro q hoff
    by_contra hne
    rw [(hoff p hne).state] at hp'
    exact hp hp'
  have hno : ∀ {q : Fin NPROC}, m.shared.AgreesOff q m'.shared → (m'.shared.proc q).state = .RUNNING := by
    intro q hq
    rw [← hoff hq]
    exact hp'
  rcases h.step_shared ha with e | ⟨c, x', -, hmove⟩ | ⟨c, q, hc, hcur, hl, hq, hq', -⟩
  · rw [e] at hp'
    exact absurd hp' hp
  · cases hmove with
    | keep ha => exact absurd ((ha p).state ▸ hp') hp
    | wake q _ _ ho _ h' | alloc _ _ _ _ _ ho _ _ h' | publish _ _ _ ho _ h'
    | abandon _ _ _ ho _ h' | reap _ _ _ _ ho _ h' => exact absurd (hno ho) (by simp [h'])
    | leave q _ _ ho _ h' => exact absurd (hno ho) (by rcases h' with e | e | e <;> simp [e])
  · obtain rfl := hoff hq'
    exact ⟨c, hc, hcur, hl, hq⟩

omit [DecidableEq C] in
/-- The lock of a process that does not run and that its holder has not just got the CPU back from is held
by somebody else than its own thread or scheduler: the process is on no CPU. -/
theorem Inv.off_cpu (h : Inv pre m X) (hl : proc q ∈ (X (m.thread d)).held)
    (hs : (m.cpu d).cur ≠ some q) (hb : (X (m.thread d)).back ≠ some q)
    (hq : (m.shared.proc q).state ≠ .RUNNING) (c : C) :
    (m.cpu c).cur ≠ some q ∧ (m.cpu c).proc ≠ some q := by
  have hlock := ((h.runs d).lock _).mpr hl
  have hcur := h.not_cur hlock hs hq c
  refine ⟨hcur, fun e => ?_⟩
  rw [(h.sees c).proc] at e
  cases hc : (m.cpu c).cur with
  | some p =>
    rw [hc] at e
    exact hcur (hc.trans e)
  | none =>
    rw [hc] at e
    have hlock' := ((h.runs c).lock _).mpr ((h.sees c).back q e).2
    obtain rfl : d = c := some.inj (hlock.symm.trans hlock')
    exact hb e

/-- A process that is freed was a zombie, or was being set up by the process that frees it, and it is on no
CPU. -/
theorem Inv.freed (h : Inv pre m X) (ha : step K m a = .ok m')
    (hq : (m.shared.proc q).state ≠ .UNUSED) (hq' : (m'.shared.proc q).state = .UNUSED) :
    (∃ d, a = .exec d ∧ ((m.shared.proc q).state = .ZOMBIE ∨
      (m.shared.proc q).state = .USED ∧ (m.shared.proc q).creator = (m.cpu d).cur)) ∧
    ∀ c, (m.cpu c).cur ≠ some q ∧ (m.cpu c).proc ≠ some q := by
  have hoff : ∀ {r : Fin NPROC}, m.shared.AgreesOff r m'.shared → q = r := by
    intro r hoff
    by_contra hne
    rw [(hoff q hne).state] at hq'
    exact hq hq'
  have hno : ∀ {s : ProcState}, (m'.shared.proc q).state = s → s ≠ .UNUSED → False := by
    intro s e hs
    exact hs (e.symm.trans hq')
  rcases h.step_shared ha with e | ⟨d, x', hd, hmove⟩ | ⟨d, r, -, -, -, -, ho, hr⟩
  · rw [e] at hq'
    exact absurd hq' hq
  · cases hmove with
    | keep ha => exact absurd ((ha q).state ▸ hq') hq
    | wake r _ _ ho _ h' | alloc _ _ _ _ _ ho _ _ h' | publish _ _ _ ho _ h' =>
      exact (hno (hoff ho ▸ h') (by decide)).elim
    | abandon r hr hs ho hn =>
      obtain rfl := hoff ho
      obtain ⟨hused, hcreator⟩ := (h.knows d).new q hn
      have hb : (X (m.thread d)).back ≠ some q := by
        cases hc : (m.cpu d).cur with
        | none =>
          rw [((h.sees d).scheduler hc).2] at hn
          cases hn
        | some p =>
          rw [((h.sees d).own p hc).2.2.2]
          exact nofun
      exact ⟨⟨d, hd, .inr ⟨hused, hcreator⟩⟩, h.off_cpu hr hs hb (by simp [hused])⟩
    | reap r hr hs hb ho hz =>
      obtain rfl := hoff ho
      exact ⟨⟨d, hd, .inl hz⟩, h.off_cpu hr hs hb (by simp [hz])⟩
    | leave r _ _ ho _ h' =>
      have hr := hoff ho
      rcases h' with e | e | e <;> exact (hno (hr ▸ e) (by decide)).elim
  · exact (hno (hoff ho ▸ hr) (by decide)).elim

omit [DecidableEq C] in
/-- While its lock is free, a process runs exactly when it is the process of one CPU. -/
theorem Inv.running_iff (h : Inv pre m X) (hl : m.lock (.proc p) = none) :
    (m.shared.proc p).state = .RUNNING ↔ ∃! c, (m.cpu c).proc = some p := by
  have hfree : ∀ c, proc p ∉ (X (m.thread c)).held := by
    intro c hmem
    have := ((h.runs c).lock _).mpr hmem
    rw [hl] at this
    cases this
  constructor
  · intro hrun
    by_contra hno
    -- nobody executes the process, so it is parked
    refine (h.parked p fun c hc => hno ?_).state hrun
    exact ⟨c, h.proc_of_cur hc, fun c' hc' => h.uniq c' c p hc' (h.proc_of_cur hc)⟩
  · rintro ⟨c, hc, -⟩
    replace hc : (m.cpu c).proc = some p := hc
    rw [(h.sees c).proc] at hc
    cases hcur : (m.cpu c).cur with
    | none =>
      rw [hcur] at hc
      exact absurd ((h.sees c).back p hc).2 (hfree c)
    | some q =>
      rw [hcur] at hc
      obtain rfl : q = p := some.inj hc
      obtain ⟨hstate, -, hheld, -⟩ := (h.sees c).own q hcur
      by_contra hne
      exact hfree c (hheld fun e => hne (hstate.trans e))

end Table

/-- **One CPU per process.**  For any CPUs and every interleaving, a run ends in no panic but that of `exit`
in the first process; a process belongs to one CPU at most; while its lock is free it is `RUNNING` exactly
when it belongs to one; only a scheduler that holds the lock takes it from `RUNNABLE` to `RUNNING`; and what
is freed is a zombie, or a child that `fork` gives up, with no CPU on its kernel stack. -/
theorem one_cpu_per_process {C : Type} [DecidableEq C] (init : Fin NPROC) (data : σ)
    (as : List (Action C Call)) :
    (∀ msg, run (step (kernel σ)) (boot init data) as = .error msg → msg = "init exiting") ∧
    ∀ m, run (step (kernel σ)) (boot init data) as = .ok m →
      (∀ c c' p, (m.cpu c).proc = some p → (m.cpu c').proc = some p → c = c') ∧
      (∀ p, m.lock (.proc p) = none →
        ((m.shared.proc p).state = .RUNNING ↔ ∃! c, (m.cpu c).proc = some p)) ∧
      (∀ a m' p, step (kernel σ) m a = .ok m' → (m.shared.proc p).state ≠ .RUNNING →
        (m'.shared.proc p).state = .RUNNING →
          ∃ c, a = .exec c ∧ (m.cpu c).cur = none ∧ m.lock (.proc p) = some c ∧
            (m.shared.proc p).state = .RUNNABLE) ∧
      (∀ a m' q, step (kernel σ) m a = .ok m' → (m.shared.proc q).state ≠ .UNUSED →
        (m'.shared.proc q).state = .UNUSED →
          (∃ d, a = .exec d ∧ ((m.shared.proc q).state = .ZOMBIE ∨
            (m.shared.proc q).state = .USED ∧ (m.shared.proc q).creator = (m.cpu d).cur)) ∧
          ∀ c, (m.cpu c).cur ≠ some q ∧ (m.cpu c).proc ≠ some q) := by
  have hrun := run_inv kernel_disciplined as (boot_inv (C := C) (σ := σ) Call.pre init data)
  refine ⟨fun msg hmsg => ?_, fun m hm => ?_⟩
  · rcases hrun with ⟨m, X, hok, -⟩ | he
    · rw [hok] at hmsg
      cases hmsg
    · exact (Except.error.inj (he.symm.trans hmsg)).symm
  · rcases hrun with ⟨m', X, hok, h⟩ | he
    · obtain rfl : m' = m := Except.ok.inj (hok.symm.trans hm)
      exact ⟨h.uniq, fun p hl => h.running_iff hl, fun a m' p ha hp hp' => h.starts ha hp hp',
        fun a m' q ha hq hq' => h.freed ha hq hq'⟩
    · rw [hm] at he
      cases he

end Xv6.Sched
