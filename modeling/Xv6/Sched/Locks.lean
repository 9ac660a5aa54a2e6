/-
# Xv6.Sched.Locks — the lock discipline of kernel threads, and what it keeps true of the machine.

`Ok` reads the code of one thread and follows the locks it holds: a lock is given back only while it is held,
`sched` is called with `p->lock` alone held and the state changed, and the state of a process is written
only under its lock.  `Inv` says of the whole machine that every thread has such code ahead of it and that
locks, CPUs and process states agree with it.  Code that is read once is thereby enough for every
interleaving: a step of any thread keeps `Inv` (`step_inv`) and so does every run (`run_inv`).
-/
import Xv6.Lib.Trace
import Xv6.Sched.Machine

namespace Xv6.Sched

open Lib List Option SpinLock Sched.Machine
open Function (update update_eq_self update_of_ne update_self)

/-! ## The discipline -/

/-- What a thread knows at one point of its code: the locks it holds, the state it has put its own process
in, the process it is setting up (`fork`), and the process it has got the CPU back from (a scheduler). -/
structure Ctx where
  held : List SpinLock
  own : ProcState
  new : Option (Fin NPROC)
  back : Option (Fin NPROC)

/-- No lock held, nothing under way. -/
def Ctx.free : Ctx := ⟨[], .RUNNING, none, none⟩

/-- One lock more. -/
def Ctx.take (x : Ctx) (lk : SpinLock) : Ctx := { x with held := lk :: x.held }

/-- One lock less. -/
def Ctx.drop (x : Ctx) (lk : SpinLock) : Ctx := { x with held := x.held.erase lk }

/-- The table entries agree on what the scheduler depends on. -/
structure Entry.Agrees (e e' : Entry) : Prop where
  state : e'.state = e.state
  creator : e'.creator = e.creator
  forkret : e'.forkret = e.forkret

theorem Entry.Agrees.refl (e : Entry) : e.Agrees e := ⟨rfl, rfl, rfl⟩

variable {C σ L : Type}

/-- The tables agree, except perhaps on `q`. -/
def Shared.AgreesOff (q : Fin NPROC) (s s' : Shared σ) : Prop :=
  ∀ i, i ≠ q → (s.proc i).Agrees (s'.proc i)

@[simp] theorem Shared.setProc_self (s : Shared σ) (q : Fin NPROC) (g : Entry → Entry) :
    (s.setProc q g).proc q = g (s.proc q) :=
  update_self _ _ _

theorem Shared.agreesOff_setProc (s : Shared σ) (q : Fin NPROC) (g : Entry → Entry) :
    s.AgreesOff q (s.setProc q g) := by
  intro i hi
  simp only [Shared.setProc, update_of_ne hi]
  exact .refl _

theorem Shared.agrees_setProc (s : Shared σ) (q : Fin NPROC) {g : Entry → Entry}
    (hg : (s.proc q).Agrees (g (s.proc q))) (i : Fin NPROC) :
    (s.proc i).Agrees ((s.setProc q g).proc i) := by
  by_cases hi : i = q
  · subst hi
    rwa [Shared.setProc_self]
  · exact s.agreesOff_setProc q g i hi

@[simp] theorem Ctx.drop_take (x : Ctx) (lk : SpinLock) : (x.take lk).drop lk = x := by
  simp [Ctx.take, Ctx.drop]

/-- What a thread knows of the table. -/
structure Knows (who : Option (Fin NPROC)) (x : Ctx) (s : Shared σ) : Prop where
  own : ∀ p, who = some p → (s.proc p).state = x.own
  new : ∀ q, x.new = some q → (s.proc q).state = .USED ∧ (s.proc q).creator = who

/-- The writes to process states that a thread may make, and what it knows after each. -/
inductive Moves (self : Option (Fin NPROC)) (x : Ctx) (s s' : Shared σ) : Ctx → Prop
  | keep (h : ∀ q, (s.proc q).Agrees (s'.proc q)) : Moves self x s s' x
  /-- `wakeup` and `kill` make a sleeping process runnable. -/
  | wake (q : Fin NPROC) (hq : SpinLock.proc q ∈ x.held) (hs : self ≠ some q)
      (off : s.AgreesOff q s') (h : (s.proc q).state = .SLEEPING) (h' : (s'.proc q).state = .RUNNABLE)
      (hc : (s'.proc q).creator = (s.proc q).creator)
      (hf : (s'.proc q).forkret = (s.proc q).forkret) : Moves self x s s' x
  /-- `allocproc` takes an unused entry. -/
  | alloc (p q : Fin NPROC) (hq : SpinLock.proc q ∈ x.held) (hp : self = some p) (hs : p ≠ q)
      (off : s.AgreesOff q s') (hn : x.new = none) (h : (s.proc q).state = .UNUSED) (h' : (s'.proc q).state = .USED)
      (hc : (s'.proc q).creator = self) (hf : (s'.proc q).forkret = true) :
      Moves self x s s' { x with new := some q }
  /-- `fork` makes its child runnable. -/
  | publish (q : Fin NPROC) (hq : SpinLock.proc q ∈ x.held) (hs : self ≠ some q)
      (off : s.AgreesOff q s') (hn : x.new = some q) (h' : (s'.proc q).state = .RUNNABLE)
      (hf : (s'.proc q).forkret = (s.proc q).forkret) : Moves self x s s' { x with new := none }
  /-- `fork` gives up and frees its child. -/
  | abandon (q : Fin NPROC) (hq : SpinLock.proc q ∈ x.held) (hs : self ≠ some q)
      (off : s.AgreesOff q s') (hn : x.new = some q) (h' : (s'.proc q).state = .UNUSED) :
      Moves self x s s' { x with new := none }
  /-- `wait` frees a zombie. -/
  | reap (q : Fin NPROC) (hq : SpinLock.proc q ∈ x.held) (hs : self ≠ some q)
      (hb : x.back ≠ some q) (off : s.AgreesOff q s') (h : (s.proc q).state = .ZOMBIE)
      (h' : (s'.proc q).state = .UNUSED) : Moves self x s s' x
  /-- `yield`, `sleep` and `exit` change the state of their own process. -/
  | leave (p : Fin NPROC) (hp : SpinLock.proc p ∈ x.held) (hs : self = some p)
      (off : s.AgreesOff p s') (hown : x.own = .RUNNING)
      (h' : (s'.proc p).state = .RUNNABLE ∨ (s'.proc p).state = .SLEEPING ∨
        (s'.proc p).state = .ZOMBIE)
      (hc : (s'.proc p).creator = (s.proc p).creator)
      (hf : (s'.proc p).forkret = (s.proc p).forkret) :
      Moves self x s s' { x with own := (s'.proc p).state }

/-- **The lock discipline**: the code may be run by the thread of `self` that knows `x`.  `pre` says what
holds at each label. -/
def Ok (pre : Fin NPROC → L → Ctx) (self : Option (Fin NPROC)) : Code σ L → Ctx → Prop
  | .ret, x => x = Ctx.free
  | .jump l, x => ∃ p, self = some p ∧ x = pre p l
  | .acquire lk k, x => lk ∉ x.held ∧ Ok pre self k (x.take lk)
  | .release lk k, x =>
    lk ∈ x.held ∧ (∀ p, lk = .proc p → (self = some p → x.own = .RUNNING) ∧ x.back ≠ some p) ∧
      Ok pre self k (x.drop lk)
  | .act f k, x => ∀ s, Knows self x s → ∃ x', Moves self x s (f s) x' ∧ Ok pre self (k s) x'
  | .sched k, x =>
    ∃ p, self = some p ∧ x.held = [.proc p] ∧
      (x.own = .ZOMBIE ∧ x.new = none ∨
        (x.own = .RUNNABLE ∨ x.own = .SLEEPING) ∧ Ok pre self k { x with own := .RUNNING })
  | .intena _ k, x => Ok pre self k x
  | .intr _ k, x => x.held = [] ∧ Ok pre self k x
  | .pick q k₁ k₂, x =>
    self = none ∧ x = ⟨[.proc q], .RUNNING, none, none⟩ ∧
      Ok pre self k₁ { x with back := some q } ∧ Ok pre self k₂ x
  | .idle k, x => self = none ∧ Ok pre self k { x with back := none }
  | .stop msg, _ => msg = "init exiting"

/-- The kernel's functions keep the discipline. -/
structure Disciplined (K : Kernel σ L) (pre : Fin NPROC → L → Ctx) : Prop where
  entry : ∀ p l, K.entry l = true → pre p l = Ctx.free
  body : ∀ p l, Ok pre (some p) (K.body p l) (pre p l)
  handler : ∀ l self k new, Ok pre self k ⟨[], .RUNNING, new, none⟩ →
    Ok pre self (K.handler l self k) ⟨[], .RUNNING, new, none⟩

/-! ## The invariant -/

section Invariant

variable (pre : Fin NPROC → L → Ctx)

/-- The thread that executes on `c` has code `k` ahead of it and holds the locks it knows of. -/
structure Runs (c : C) (u : Cpu) (lock : SpinLock → Option C) (k : Code σ L) (x : Ctx) : Prop where
  ok : Ok pre u.cur k x
  lock : ∀ lk, lock lk = some c ↔ lk ∈ x.held
  nodup : x.held.Nodup
  noff : u.noff = x.held.length
  intr : u.noff ≠ 0 → u.intr = false

/-- The thread that executes on a CPU knows the state of the processes it has to do with. -/
structure Sees (s : Shared σ) (u : Cpu) (x : Ctx) : Prop where
  proc : u.proc = u.cur.or x.back
  own : ∀ p, u.cur = some p →
    (s.proc p).state = x.own ∧ (s.proc p).forkret = false ∧
      (x.own ≠ .RUNNING → SpinLock.proc p ∈ x.held) ∧ x.back = none
  scheduler : u.cur = none → x.own = .RUNNING ∧ x.new = none
  back : ∀ q, x.back = some q → (s.proc q).state ≠ .RUNNING ∧ SpinLock.proc q ∈ x.held

/-- A process that no CPU executes is not running, and if it may run again its thread goes on with `k`
under its own lock. -/
structure Parked (p : Fin NPROC) (e : Entry) (k : Code σ L) (new : Option (Fin NPROC)) : Prop where
  state : e.state ≠ .RUNNING
  ready : e.state = .RUNNABLE ∨ e.state = .SLEEPING →
    if e.forkret then new = none else Ok pre (some p) k ⟨[.proc p], .RUNNING, new, none⟩
  dead : e.state = .UNUSED ∨ e.state = .USED ∨ e.state = .ZOMBIE → new = none
  used : e.state = .USED → e.forkret = true

/-- **The invariant of the machine**, with what each thread knows. -/
structure Inv (m : Machine C σ L) (X : Thread C → Ctx) : Prop where
  runs : ∀ c, Runs pre c (m.cpu c) m.lock (m.code (m.thread c)) (X (m.thread c))
  sees : ∀ c, Sees m.shared (m.cpu c) (X (m.thread c))
  uniq : ∀ c c' p, (m.cpu c).proc = some p → (m.cpu c').proc = some p → c = c'
  resume : ∀ c p, (m.cpu c).cur = some p →
    Ok pre none (m.code (.scheduler c)) ⟨[.proc p], .RUNNING, none, some p⟩
  parked : ∀ p, (∀ c, (m.cpu c).cur ≠ some p) →
    Parked pre p (m.shared.proc p) (m.code (.proc p)) (X (.proc p)).new
  new : ∀ p q, (X (.proc p)).new = some q →
    (m.shared.proc q).state = .USED ∧ (m.shared.proc q).creator = some p

variable {pre} {m : Machine C σ L} {X : Thread C → Ctx} {c c' : C} {p q : Fin NPROC}

theorem Machine.thread_of_cur (hp : (m.cpu c).cur = some p) : m.thread c = .proc p := by
  rw [thread, hp]
  rfl

/-- The thread tells the process, and the CPU if it is a scheduler. -/
theorem threadOf_inj (h : threadOf c o = threadOf c' o') :
    o = o' ∧ (o = none → c = c') := by
  cases o with
  | none =>
    cases o' with
    | none => exact ⟨rfl, fun _ => Thread.scheduler.inj h⟩
    | some q => cases h
  | some p =>
    cases o' with
    | none => cases h
    | some q => exact ⟨congrArg some (Thread.proc.inj h), nofun⟩

/-- The scheduler of a CPU that executes a process executes nowhere. -/
theorem Machine.scheduler_ne (hp : (m.cpu c).cur = some p) (c' : C) :
    Thread.scheduler c ≠ m.thread c' := by
  intro e
  obtain ⟨hnone, hc⟩ := threadOf_inj (o := none) e
  obtain rfl := hc rfl
  rw [hp] at hnone
  cases hnone

theorem Machine.parked_ne (hp : ∀ c, (m.cpu c).cur ≠ some p) (c : C) :
    Thread.proc p ≠ m.thread c :=
  fun e => hp c (threadOf_inj (c := c) (o := some p) e).1.symm

theorem Inv.proc_of_cur (h : Inv pre m X) (hp : (m.cpu c).cur = some p) :
    (m.cpu c).proc = some p := by
  rw [(h.sees c).proc, hp]
  rfl

/-- Two CPUs never execute the same thread. -/
theorem Inv.thread_inj (h : Inv pre m X) (ht : m.thread c' = m.thread c) : c' = c := by
  obtain ⟨hcur, hc⟩ := threadOf_inj ht
  cases hp : (m.cpu c').cur with
  | none => exact hc hp
  | some p => exact h.uniq c' c p (h.proc_of_cur hp) (h.proc_of_cur (hcur ▸ hp))

/-- The lock of a process and its state tell who executes it. -/
theorem Inv.not_cur (h : Inv pre m X) (hl : m.lock (.proc q) = some c) (hc : (m.cpu c).cur ≠ some q)
    (hq : (m.shared.proc q).state ≠ .RUNNING) (c' : C) : (m.cpu c').cur ≠ some q := by
  intro hcur
  obtain ⟨hstate, -, hheld, -⟩ := (h.sees c').own q hcur
  have hmem := hheld fun e => hq (hstate.trans e)
  have hl' := ((h.runs c').lock _).mpr hmem
  have hcc : c = c' := some.inj (hl.symm.trans hl')
  exact hc (hcc ▸ hcur)

/-- What a thread knows is true. -/
theorem Inv.knows (h : Inv pre m X) (c : C) : Knows (m.cpu c).cur (X (m.thread c)) m.shared := by
  refine ⟨fun p hp => ((h.sees c).own p hp).1, fun q hq => ?_⟩
  cases hc : (m.cpu c).cur with
  | none =>
    have hnone := ((h.sees c).scheduler hc).2
    rw [hnone] at hq
    cases hq
  | some p =>
    refine h.new p q ?_
    unfold thread at hq
    rw [hc] at hq
    exact hq

/-- Other CPUs do not notice that `c` takes or gives back a lock. -/
theorem lock_update_of_ne {l : SpinLock → Option C} (hc : c' ≠ c)
    (ho : o = none ∨ o = some c) (ho' : o' = none ∨ o' = some c) (hl : l lk = o) (lk' : SpinLock) :
    update l lk o' lk' = some c' ↔ l lk' = some c' := by
  have hne : ∀ {v : Option C}, v = none ∨ v = some c → v ≠ some c' := by
    rintro v (rfl | rfl) e
    · cases e
    · exact hc (some.inj e).symm
  by_cases hlk : lk' = lk
  · rw [hlk, update_self, hl]
    exact iff_of_false (hne ho') (hne ho)
  · rw [update_of_ne hlk]

section Local

variable {u : Cpu} {l : SpinLock → Option C} {lk : SpinLock} {k : Code σ L} {x : Ctx}
  {s s' : Shared σ} {e e' : Entry} {n : Option (Fin NPROC)}

theorem Runs.take (h : Runs pre c u l (.acquire lk k) x) :
    Runs pre c (pushOff u) (update l lk (some c)) k (x.take lk) := by
  obtain ⟨hnot, hok⟩ := h.ok
  refine ⟨hok, fun lk' => ?_, nodup_cons.mpr ⟨hnot, h.nodup⟩, congrArg (· + 1) h.noff,
    fun _ => rfl⟩
  by_cases hlk : lk' = lk
  · rw [hlk, update_self]
    exact iff_of_true rfl mem_cons_self
  · rw [update_of_ne hlk, h.lock]
    exact (mem_cons.trans (or_iff_right hlk)).symm

/-- A lock that is held can be given back: `pop_off` does not panic. -/
theorem Runs.drop (h : Runs pre c u l (.release lk k) x) :
    ∃ u', popOff u = .ok u' ∧ u'.cur = u.cur ∧ u'.proc = u.proc ∧
      Runs pre c u' (update l lk none) k (x.drop lk) := by
  obtain ⟨hmem, -, hok⟩ := h.ok
  have hlen : u.noff = (x.held.erase lk).length + 1 := by
    have hpos := length_pos_of_mem hmem
    rw [h.noff, length_erase_of_mem hmem]
    omega
  have hintr : u.intr = false := h.intr (by omega)
  have hpop : popOff u = .ok { u with
      noff := u.noff - 1, intr := decide (u.noff - 1 = 0) && u.intena } := by
    unfold popOff
    rw [hintr, if_neg Bool.false_ne_true, if_neg (by omega)]
  refine ⟨_, hpop, rfl, rfl, hok, fun lk' => ?_, h.nodup.erase lk, Nat.sub_eq_of_eq_add hlen,
    fun hne => ?_⟩
  · by_cases hlk : lk' = lk
    · rw [hlk, update_self]
      exact iff_of_false (fun e => by cases e) h.nodup.not_mem_erase
    · rw [update_of_ne hlk, h.lock]
      exact (mem_erase_of_ne hlk).symm
  · have hne' : u.noff - 1 ≠ 0 := hne
    show (decide (u.noff - 1 = 0) && u.intena) = false
    rw [decide_eq_false hne', Bool.false_and]

section

variable (h : Sees s u x)

include h

theorem Sees.cpu (hcur : u'.cur = u.cur) (hproc : u'.proc = u.proc) : Sees s u' x := by
  refine ⟨?_, fun p hp => h.own p (hcur ▸ hp), fun hp => h.scheduler (hcur ▸ hp), h.back⟩
  rw [hproc, hcur]
  exact h.proc

theorem Sees.take (lk : SpinLock) : Sees s u (x.take lk) := by
  refine ⟨h.proc, fun p hp => ?_, h.scheduler, fun q hq => ?_⟩
  · obtain ⟨h1, h2, h3, h4⟩ := h.own p hp
    exact ⟨h1, h2, fun e => mem_cons_of_mem _ (h3 e), h4⟩
  · obtain ⟨h1, h2⟩ := h.back q hq
    exact ⟨h1, mem_cons_of_mem _ h2⟩

/-- The own lock is kept as long as the own state is changed, and the scheduler keeps the lock of the
process it has got the CPU back from. -/
theorem Sees.drop (lk : SpinLock)
    (hlk : ∀ p, lk = .proc p → (u.cur = some p → x.own = .RUNNING) ∧ x.back ≠ some p) :
    Sees s u (x.drop lk) := by
  refine ⟨h.proc, fun p hp => ?_, h.scheduler, fun q hq => ?_⟩
  · obtain ⟨h1, h2, h3, h4⟩ := h.own p hp
    refine ⟨h1, h2, fun e => ?_, h4⟩
    have hne : SpinLock.proc p ≠ lk := fun e' => e ((hlk p e'.symm).1 hp)
    exact (mem_erase_of_ne hne).mpr (h3 e)
  · obtain ⟨h1, h2⟩ := h.back q hq
    have hne : SpinLock.proc q ≠ lk := fun e => (hlk q e.symm).2 hq
    exact ⟨h1, (mem_erase_of_ne hne).mpr h2⟩

/-- The table changes where this CPU does not look. -/
theorem Sees.table (hcur : ∀ p, u.cur = some p → (s.proc p).Agrees (s'.proc p))
    (hback : ∀ q, x.back = some q → (s'.proc q).state ≠ .RUNNING) : Sees s' u x := by
  refine ⟨h.proc, fun p hp => ?_, h.scheduler, fun q hq => ⟨hback q hq, (h.back q hq).2⟩⟩
  obtain ⟨h1, h2, h3, h4⟩ := h.own p hp
  exact ⟨(hcur p hp).state.trans h1, (hcur p hp).forkret.trans h2, h3, h4⟩

/-- Another process changes its state, and is not running before or after. -/
theorem Sees.off (hoff : s.AgreesOff q s') (hcur : u.cur ≠ some q)
    (hq : (s'.proc q).state ≠ .RUNNING) : Sees s' u x := by
  refine h.table (fun p hp => hoff p fun e => hcur (e ▸ hp)) fun r hr => ?_
  by_cases hrq : r = q
  · rwa [hrq]
  · rw [(hoff r hrq).state]
    exact (h.back r hr).1

/-- A process that is not this CPU's changes. -/
theorem Sees.other (hoff : s.AgreesOff q s') (hproc : u.proc ≠ some q) : Sees s' u x := by
  rw [h.proc] at hproc
  refine h.table (fun p hp => hoff p ?_) fun r hr => ?_
  · rintro rfl
    rw [hp] at hproc
    exact hproc rfl
  · have hrq : r ≠ q := by
      rintro rfl
      cases hc : u.cur with
      | none =>
        rw [hc, hr] at hproc
        exact hproc rfl
      | some p =>
        rw [(h.own p hc).2.2.2] at hr
        cases hr
    rw [(hoff r hrq).state]
    exact (h.back r hr).1

theorem Sees.agrees (ha : ∀ q, (s.proc q).Agrees (s'.proc q)) : Sees s' u x := by
  refine h.table (fun p _ => ha p) fun r hr => ?_
  rw [(ha r).state]
  exact (h.back r hr).1

theorem Sees.setNew (hcur : u.cur ≠ none) (n : Option (Fin NPROC)) : Sees s u { x with new := n } :=
  ⟨h.proc, h.own, fun e => absurd e hcur, h.back⟩

end

section

variable (h : Parked pre p e k n)

include h

theorem Parked.agrees (ha : e.Agrees e') : Parked pre p e' k n := by
  obtain ⟨hs, hc, hf⟩ := ha
  refine ⟨?_, ?_, ?_, ?_⟩
  · rw [hs]
    exact h.state
  · rw [hs, hf]
    exact h.ready
  · rw [hs]
    exact h.dead
  · rw [hs, hf]
    exact h.used

/-- `wakeup` and `kill`. -/
theorem Parked.wake (he : e.state = .SLEEPING) (he' : e'.state = .RUNNABLE)
    (hf : e'.forkret = e.forkret) : Parked pre p e' k n := by
  refine ⟨by simp [he'], fun _ => ?_, by simp [he'], by simp [he']⟩
  rw [hf]
  exact h.ready (.inr he)

/-- `freeproc`, of a process that was being set up or had exited. -/
theorem Parked.free (he : e.state = .USED ∨ e.state = .ZOMBIE)
    (he' : e'.state = .UNUSED) : Parked pre p e' k n :=
  ⟨by simp [he'], by simp [he'], fun _ => h.dead (.inr he), by simp [he']⟩

/-- `allocproc`. -/
theorem Parked.alloc (he : e.state = .UNUSED) (he' : e'.state = .USED)
    (hf : e'.forkret = true) : Parked pre p e' k n :=
  ⟨by simp [he'], by simp [he'], fun _ => h.dead (.inl he), fun _ => hf⟩

/-- The last step of `fork`. -/
theorem Parked.publish (he : e.state = .USED) (he' : e'.state = .RUNNABLE)
    (hf : e'.forkret = e.forkret) : Parked pre p e' k n := by
  refine ⟨by simp [he'], fun _ => ?_, by simp [he'], by simp [he']⟩
  rw [hf, h.used he, if_pos rfl]
  exact h.dead (.inr (.inl he))

end

end Local

end Invariant

/-! ## Steps keep the invariant -/

section Steps

variable [DecidableEq C] {pre : Fin NPROC → L → Ctx} {m : Machine C σ L} {X : Thread C → Ctx} {c c' : C}
  {p q : Fin NPROC} {n : Option (Fin NPROC)} {lk : SpinLock} {k k₁ k₂ : Code σ L} {s : Shared σ} {u : Cpu}
  {l : SpinLock → Option C} {x : Ctx}

/-- **All CPUs after a step of `c`**: what holds of `c` then, and held of every other CPU before, holds of
all; `D` is what is known of each thread. -/
theorem each_cpu {δ : Type} {code : Thread C → Code σ L} {D D' : Thread C → δ}
    {P : C → Cpu → Code σ L → δ → Prop}
    (hcode : ∀ c', c' ≠ c → code (m.thread c') = m.code (m.thread c'))
    (hD : ∀ c', c' ≠ c → D' (m.thread c') = D (m.thread c'))
    (hself : P c u (code (threadOf c u.cur)) (D' (threadOf c u.cur)))
    (hothers : ∀ c', c' ≠ c → P c' (m.cpu c') (m.code (m.thread c')) (D (m.thread c'))) (c' : C) :
    P c' (update m.cpu c u c') (code (threadOf c' (update m.cpu c u c').cur))
      (D' (threadOf c' (update m.cpu c u c').cur)) := by
  by_cases hc : c' = c
  · subst hc
    rw [update_self]
    exact hself
  · rw [update_of_ne hc]
    show P c' (m.cpu c') (code (m.thread c')) (D' (m.thread c'))
    rw [hcode c' hc, hD c' hc]
    exact hothers c' hc

/-- A thread that learns of no new child leaves the children-to-be as they were. -/
theorem new_of_update (hq : (update X t x t').new = some q)
    (hx : x.new = some q → (X t).new = some q) : (X t').new = some q := by
  by_cases ht : t' = t
  · subst ht
    rw [update_self] at hq
    exact hx hq
  · rwa [update_of_ne ht] at hq

section

variable (h : Inv pre m X)

include h

section Local

variable (c) (hcur : u.cur = (m.cpu c).cur) (hproc : ∀ p, u.proc = some p → (m.cpu c).proc = some p)
  (hlock : ∀ c', c' ≠ c → ∀ lk, l lk = some c' ↔ m.lock lk = some c') (hruns : Runs pre c u l k x)

include hcur hproc hlock hruns

/-- **A step of one thread.**  The thread on `c` goes on with `k` and knows `x`; it may have changed its CPU,
locks that no other CPU holds before or after, and the table as far as nobody else depends on it. -/
theorem Inv.local (hsees : Sees s u x) (hothers : ∀ c', c' ≠ c → Sees s (m.cpu c') (X (m.thread c')))
    (hparked : ∀ p, (∀ c', (m.cpu c').cur ≠ some p) →
      Parked pre p (s.proc p) (m.code (.proc p)) (X (.proc p)).new)
    (hnew : ∀ p q, (update X (m.thread c) x (.proc p)).new = some q →
      (s.proc q).state = .USED ∧ (s.proc q).creator = some p) :
    Inv pre ⟨s, l, update m.cpu c u, update m.code (m.thread c) k⟩
      (update X (m.thread c) x) := by
  have hcurs : ∀ c', (update m.cpu c u c').cur = (m.cpu c').cur := by
    intro c'
    by_cases hc : c' = c
    · rw [hc, update_self, hcur]
    · rw [update_of_ne hc]
  have hprocs : ∀ c' p, (update m.cpu c u c').proc = some p → (m.cpu c').proc = some p := by
    intro c' p hp
    by_cases hc : c' = c
    · subst hc
      rw [update_self] at hp
      exact hproc p hp
    · rwa [update_of_ne hc] at hp
  have ht : threadOf c u.cur = m.thread c := congrArg (threadOf c) hcur
  have hne : ∀ c', c' ≠ c → m.thread c' ≠ m.thread c := fun c' hc e => hc (h.thread_inj e)
  have hcode := fun c' hc => update_of_ne (hne c' hc) k m.code
  have hX := fun c' hc => update_of_ne (hne c' hc) x X
  constructor
  case runs =>
    refine each_cpu (P := fun c' v k x => Runs pre c' v l k x) hcode hX ?_ fun c' hc => ?_
    · simpa only [ht, update_self] using hruns
    · have hr := h.runs c'
      exact ⟨hr.ok, fun lk => (hlock c' hc lk).trans (hr.lock lk), hr.nodup, hr.noff, hr.intr⟩
  case sees =>
    refine each_cpu (P := fun _ v _ x => Sees s v x) hcode hX ?_ hothers
    simpa only [ht, update_self] using hsees
  case uniq =>
    intro c1 c2 p h1 h2
    exact h.uniq c1 c2 p (hprocs c1 p h1) (hprocs c2 p h2)
  case resume =>
    intro c' p hp
    have hp' : (m.cpu c').cur = some p := (hcurs c').symm.trans hp
    simp only [update_of_ne (scheduler_ne hp' c)]
    exact h.resume c' p hp'
  case parked =>
    intro p hp
    have hp' : ∀ c', (m.cpu c').cur ≠ some p := fun c' e => hp c' ((hcurs c').trans e)
    simp only [update_of_ne (parked_ne hp' c)]
    exact hparked p hp'
  case new => exact hnew

/-- A step that leaves the table alone. -/
theorem Inv.local_shared (hsees : Sees m.shared u x) (hnew : x.new = (X (m.thread c)).new) :
    Inv pre ⟨m.shared, l, update m.cpu c u, update m.code (m.thread c) k⟩
      (update X (m.thread c) x) := by
  refine h.local c hcur hproc hlock hruns hsees (fun c' _ => h.sees c') h.parked fun p q hq => ?_
  exact h.new p q (new_of_update hq fun e => hnew ▸ e)

end Local

/-- A step that only changes what the thread on `c` will do next. -/
theorem Inv.goto (c : C) (hok : Ok pre (m.cpu c).cur k (X (m.thread c))) :
    Inv pre (m.goto (m.thread c) k) X := by
  have hr := h.runs c
  have := h.local_shared c (u := m.cpu c) (k := k) rfl (fun _ hp => hp) (fun _ _ _ => Iff.rfl)
    ⟨hok, hr.lock, hr.nodup, hr.noff, hr.intr⟩ (h.sees c) rfl
  simp only [update_eq_self] at this
  exact this

theorem Inv.acquire (hk : m.code (m.thread c) = .acquire lk k) :
    ∃ m' X', acquire m c lk k = .ok m' ∧ Inv pre m' X' := by
  have hr := h.runs c
  rw [hk] at hr
  unfold Sched.acquire
  cases hl : m.lock lk with
  | some d =>
    have hd : d ≠ c := by
      rintro rfl
      exact hr.ok.1 ((hr.lock lk).mp hl)
    refine ⟨m, X, ?_, h⟩
    simp only [if_neg hd]
  | none =>
    exact ⟨_, _, rfl, h.local_shared c rfl (fun _ hp => hp)
      (fun c' hc => lock_update_of_ne hc (.inl rfl) (.inr rfl) hl) hr.take
      (((h.sees c).take lk).cpu rfl rfl) rfl⟩

theorem Inv.release (hk : m.code (m.thread c) = .release lk k) :
    ∃ m' X', release m c lk k = .ok m' ∧ Inv pre m' X' := by
  have hr := h.runs c
  rw [hk] at hr
  have hl : m.lock lk = some c := (hr.lock lk).mpr hr.ok.1
  obtain ⟨u, hu, hcur, hproc, hr'⟩ := hr.drop
  unfold Sched.release
  rw [if_neg (not_not_intro hl), hu]
  refine ⟨_, _, rfl, h.local_shared c hcur (fun p hp => hproc ▸ hp)
    (fun c' hc => lock_update_of_ne hc (.inr rfl) (.inl rfl) hl) hr' ?_ rfl⟩
  exact ((h.sees c).drop lk hr.ok.2.1).cpu hcur hproc

/-- **A change of another process's state**, under its lock.  Nobody executes that process, so only what
is known of it while it is parked and of who sets it up has to be looked at. -/
theorem Inv.change (c : C)
    (hlk : proc q ∈ (X (m.thread c)).held)
    (hcur : (m.cpu c).cur ≠ some q) (hoff : m.shared.AgreesOff q s)
    (hq : (m.shared.proc q).state ≠ .RUNNING) (hq' : (s.proc q).state ≠ .RUNNING)
    (hok : Ok pre (m.cpu c).cur k { X (m.thread c) with new := n })
    (hn : n ≠ (X (m.thread c)).new → (m.cpu c).cur ≠ none)
    (hpark : Parked pre q (m.shared.proc q) (m.code (.proc q)) (X (.proc q)).new →
      Parked pre q (s.proc q) (m.code (.proc q)) (X (.proc q)).new)
    (hnew : ∀ p, (update X (m.thread c) { X (m.thread c) with new := n } (.proc p)).new =
      some q → (s.proc q).state = .USED ∧ (s.proc q).creator = some p)
    (hkeep : ∀ r, r ≠ q → n = some r → (X (m.thread c)).new = some r) :
    ∃ X', Inv pre ((m.setShared s).goto (m.thread c) k) X' := by
  have hr := h.runs c
  have hnone := h.not_cur ((hr.lock _).mpr hlk) hcur hq
  have hsees : Sees s (m.cpu c) { X (m.thread c) with new := n } := by
    have hv := (h.sees c).off hoff hcur hq'
    by_cases hnn : n = (X (m.thread c)).new
    · rw [hnn]
      exact hv
    · exact hv.setNew (hn hnn) n
  have := h.local c (s := s) (l := m.lock) (u := m.cpu c) (k := k) rfl (fun _ hp => hp)
    (fun _ _ _ => Iff.rfl) ⟨hok, hr.lock, hr.nodup, hr.noff, hr.intr⟩ hsees
    (fun c' _ => (h.sees c').off hoff (hnone c') hq')
    (fun p hp => ?_) fun p r hpr => ?_
  · rw [update_eq_self] at this
    exact ⟨_, this⟩
  · by_cases hpq : p = q
    · subst hpq
      exact hpark (h.parked p hp)
    · exact (h.parked p hp).agrees (hoff p hpq)
  · by_cases hrq : r = q
    · subst hrq
      exact hnew p hpr
    · rw [(hoff r hrq).state, (hoff r hrq).creator]
      exact h.new p r (new_of_update hpr (hkeep r hrq))

/-- A process that is not being set up is no thread's child-to-be, whoever keeps what it knows. -/
theorem Inv.new_ne (hn : n = (X (m.thread c)).new) (hq : (m.shared.proc q).state ≠ .USED) :
    (update X (m.thread c) { X (m.thread c) with new := n } (.proc p)).new ≠ some q := by
  subst hn
  intro e
  have hX : update X (m.thread c) { X (m.thread c) with new := (X (m.thread c)).new } = X :=
    update_eq_self _ _
  rw [hX] at e
  exact hq (h.new p q e).1

/-- A thread that gives up its child-to-be was the only one that set it up. -/
theorem Inv.new_gone (hq : (X (m.thread c)).new = some q) :
    (update X (m.thread c) { X (m.thread c) with new := none } (.proc p)).new ≠ some q := by
  intro e
  by_cases ht : Thread.proc p = m.thread c
  · rw [ht, update_self] at e
    cases e
  · rw [update_of_ne ht] at e
    have hcur : (m.cpu c).cur = some p :=
      ((h.knows c).new q hq).2.symm.trans (h.new p q e).2
    exact ht (thread_of_cur hcur).symm

/-- `yield`, `sleep` and `exit` change their own state. -/
theorem Inv.leave
    (hp : proc p ∈ (X (m.thread c)).held) (hs : (m.cpu c).cur = some p)
    (hoff : m.shared.AgreesOff p s) (hown : (X (m.thread c)).own = .RUNNING)
    (h' : (s.proc p).state ≠ .RUNNING) (hf : (s.proc p).forkret = (m.shared.proc p).forkret)
    (hok : Ok pre (m.cpu c).cur k { X (m.thread c) with own := (s.proc p).state }) :
    ∃ X', Inv pre ((m.setShared s).goto (m.thread c) k) X' := by
  have hr := h.runs c
  have hv := h.sees c
  obtain ⟨h1, h2, -, h4⟩ := hv.own p hs
  have hsees : Sees s (m.cpu c) { X (m.thread c) with own := (s.proc p).state } := by
    refine ⟨hv.proc, fun p' hp' => ?_, fun e => ?_, fun q hq => ?_⟩
    · obtain rfl : p = p' := some.inj (hs.symm.trans hp')
      exact ⟨rfl, hf.trans h2, fun _ => hp, h4⟩
    · rw [hs] at e
      cases e
    · rw [h4] at hq
      cases hq
  have := h.local c (s := s) (l := m.lock) (u := m.cpu c) (k := k) rfl (fun _ hp => hp)
    (fun _ _ _ => Iff.rfl) ⟨hok, hr.lock, hr.nodup, hr.noff, hr.intr⟩ hsees
    (fun c' hc => (h.sees c').off hoff ?_ h') (fun r hcur => ?_) fun r q hq => ?_
  · rw [update_eq_self] at this
    exact ⟨_, this⟩
  · intro e
    exact hc (h.uniq c' c p (h.proc_of_cur e) (h.proc_of_cur hs))
  · have hrp : r ≠ p := by
      rintro rfl
      exact hcur c hs
    exact (h.parked r hcur).agrees (hoff r hrp)
  · have hu := h.new r q (new_of_update hq fun e => e)
    have hqp : q ≠ p := by
      rintro rfl
      rw [h1, hown] at hu
      cases hu.1
    rw [(hoff q hqp).state, (hoff q hqp).creator]
    exact hu

theorem Inv.act {f : Shared σ → Shared σ} {k : Shared σ → Code σ L}
    (hk : m.code (m.thread c) = .act f k) :
    ∃ X', Inv pre ((m.setShared (f m.shared)).goto (m.thread c) (k m.shared)) X' := by
  have hr := h.runs c
  have hkn := h.knows c
  rw [hk] at hr
  obtain ⟨x', hmove, hok⟩ := hr.ok m.shared hkn
  cases hmove with
  | keep ha =>
    have := h.local c (s := f m.shared) (l := m.lock) (u := m.cpu c) rfl (fun _ hp => hp)
      (fun _ _ _ => Iff.rfl) ⟨hok, hr.lock, hr.nodup, hr.noff, hr.intr⟩ ((h.sees c).agrees ha)
      (fun c' _ => (h.sees c').agrees ha) (fun p hp => (h.parked p hp).agrees (ha p))
      fun p q hq => ?_
    · rw [update_eq_self, update_eq_self] at this
      exact ⟨_, this⟩
    · rw [update_eq_self] at hq
      rw [(ha q).state, (ha q).creator]
      exact h.new p q hq
  | wake q hq hs hoff hst hst' hc hf =>
    exact h.change c hq hs hoff (by simp [hst]) (by simp [hst']) hok (fun e => absurd rfl e)
      (fun hp => hp.wake hst hst' hf) (fun p e => absurd e (h.new_ne rfl (by simp [hst])))
      fun _ _ e => e
  | alloc p q hq hp hs hoff hn hst hst' hc hf =>
    have hcur : (m.cpu c).cur ≠ some q := by
      rw [hp]
      exact fun e => hs (some.inj e)
    refine h.change c hq hcur hoff (by simp [hst]) (by simp [hst']) hok (fun _ => by simp [hp])
      (fun hpk => hpk.alloc hst hst' hf) (fun r e => ⟨hst', ?_⟩) fun r hrq e => ?_
    · rw [thread_of_cur hp] at e
      by_cases hrp : r = p
      · rw [hc, hp, hrp]
      · have hne : Thread.proc (C := C) r ≠ .proc p := fun e => hrp (Thread.proc.inj e)
        rw [update_of_ne hne] at e
        rw [(h.new r q e).1] at hst
        cases hst
    · exact absurd (some.inj e).symm hrq
  | publish q hq hs hoff hn hst' hf =>
    have hst := (hkn.new q hn).1
    exact h.change c hq hs hoff (by simp [hst]) (by simp [hst']) hok
      (fun _ e => by rw [((h.sees c).scheduler e).2] at hn; cases hn)
      (fun hp => hp.publish hst hst' hf) (fun p e => absurd e (h.new_gone hn))
      fun _ _ e => by cases e
  | abandon q hq hs hoff hn hst' =>
    have hst := (hkn.new q hn).1
    exact h.change c hq hs hoff (by simp [hst]) (by simp [hst']) hok
      (fun _ e => by rw [((h.sees c).scheduler e).2] at hn; cases hn)
      (fun hp => hp.free (.inl hst) hst') (fun p e => absurd e (h.new_gone hn))
      fun _ _ e => by cases e
  | reap q hq hs _ hoff hst hst' =>
    exact h.change c hq hs hoff (by simp [hst]) (by simp [hst']) hok (fun e => absurd rfl e)
      (fun hp => hp.free (.inr hst) hst') (fun p e => absurd e (h.new_ne rfl (by simp [hst])))
      fun _ _ e => e
  | leave p hp hs hoff hown hst' hc hf =>
    refine h.leave hp hs hoff hown ?_ hf hok
    rcases hst' with e | e | e <;> simp [e]

end

omit [DecidableEq C] in
theorem threadOf_ne (hc : c' ≠ c) (ho : o ≠ some p) :
    threadOf c' o ≠ .scheduler c ∧ threadOf c' o ≠ .proc p := by
  refine ⟨fun e => ?_, fun e => ho (threadOf_inj (c := c) (o := some p) e.symm).1.symm⟩
  exact hc ((threadOf_inj (o := none) e.symm).2 rfl).symm

/-- Who runs after a `swtch` on `c`. -/
theorem cur_update (hcur : u.cur = none ∨ u.cur = some p)
    (hq : (update m.cpu c u c').cur = some q) :
    c' = c ∧ q = p ∧ u.cur = some p ∨ c' ≠ c ∧ (m.cpu c').cur = some q := by
  by_cases hc : c' = c
  · rw [hc, update_self] at hq
    rcases hcur with e | e
    · rw [e] at hq
      cases hq
    · exact .inl ⟨hc, some.inj (hq.symm.trans e), e⟩
  · rw [update_of_ne hc] at hq
    exact .inr ⟨hc, hq⟩

/-- Who did not run before it. -/
theorem not_cur_of_update (hold : (m.cpu c).cur = none ∨ (m.cpu c).cur = some p)
    (hq : q ≠ p) (h : ∀ c', (update m.cpu c u c').cur ≠ some q) (c' : C) :
    (m.cpu c').cur ≠ some q := by
  intro e
  by_cases hc : c' = c
  · rw [hc] at e
    rcases hold with e' | e' <;> rw [e'] at e
    · cases e
    · exact hq (some.inj e).symm
  · refine h c' ?_
    rwa [update_of_ne hc]

/-- **`swtch`** between the scheduler of `c` and the process `p`, in either direction, under the lock of
`p`: nobody else knows of the two threads. -/
theorem Inv.swtch (h : Inv pre m X) {code : Thread C → Code σ L} {X' : Thread C → Ctx}
    (hold : (m.cpu c).cur = none ∨ (m.cpu c).cur = some p) (hcur : u.cur = none ∨ u.cur = some p)
    (hproc : u.proc = some p) (hothers : ∀ c', c' ≠ c → (m.cpu c').proc ≠ some p)
    (hoff : m.shared.AgreesOff p s)
    (hcode : ∀ t, t ≠ .scheduler c → t ≠ .proc p → code t = m.code t)
    (hX : ∀ t, t ≠ .scheduler c → t ≠ .proc p → X' t = X t)
    (hruns : Runs pre c u m.lock (code (threadOf c u.cur)) (X' (threadOf c u.cur)))
    (hsees : Sees s u (X' (threadOf c u.cur)))
    (hresume : u.cur = some p →
      Ok pre none (code (.scheduler c)) ⟨[.proc p], .RUNNING, none, some p⟩)
    (hparked : u.cur = none → Parked pre p (s.proc p) (code (.proc p)) (X' (.proc p)).new)
    (hnew : ∀ r q, (X' (.proc r)).new = some q → (X (.proc r)).new = some q)
    (hp : (m.shared.proc p).state ≠ .USED) : Inv pre ⟨s, m.lock, update m.cpu c u, code⟩ X' := by
  have hne : ∀ c', c' ≠ c → m.thread c' ≠ .scheduler c ∧ m.thread c' ≠ .proc p := by
    intro c' hc
    exact threadOf_ne hc fun e => hothers c' hc (h.proc_of_cur e)
  have hcodes := fun c' hc => hcode _ (hne c' hc).1 (hne c' hc).2
  have hXs := fun c' hc => hX _ (hne c' hc).1 (hne c' hc).2
  constructor
  case runs =>
    exact each_cpu (P := fun c' v k x => Runs pre c' v m.lock k x) hcodes hXs hruns fun c' _ => h.runs c'
  case sees =>
    exact each_cpu (P := fun _ v _ x => Sees s v x) hcodes hXs hsees fun c' hc =>
      (h.sees c').other hoff (hothers c' hc)
  case uniq =>
    have hprocs : ∀ c' r, (update m.cpu c u c').proc = some r →
        c' = c ∧ r = p ∨ c' ≠ c ∧ r ≠ p ∧ (m.cpu c').proc = some r := by
      intro c' r e
      by_cases hc : c' = c
      · rw [hc, update_self, hproc] at e
        exact .inl ⟨hc, (some.inj e).symm⟩
      · rw [update_of_ne hc] at e
        exact .inr ⟨hc, fun er => hothers c' hc (er ▸ e), e⟩
    intro c1 c2 r h1 h2
    rcases hprocs c1 r h1 with ⟨e1, er⟩ | ⟨-, hr, g1⟩
    · rcases hprocs c2 r h2 with ⟨e2, -⟩ | ⟨-, hr, -⟩
      · rw [e1, e2]
      · exact absurd er hr
    · rcases hprocs c2 r h2 with ⟨-, er⟩ | ⟨-, -, g2⟩
      · exact absurd er hr
      · exact h.uniq c1 c2 r g1 g2
  case resume =>
    intro c' q hq
    rcases cur_update hcur hq with ⟨rfl, rfl, e⟩ | ⟨hc, hq⟩
    · exact hresume e
    · show Ok pre none (code (.scheduler c')) _
      rw [hcode _ (fun e => hc (Thread.scheduler.inj e)) nofun]
      exact h.resume c' q hq
  case parked =>
    intro r hr
    change ∀ c', (update m.cpu c u c').cur ≠ some r at hr
    by_cases hrp : r = p
    · subst hrp
      refine hparked (hcur.resolve_right fun e => hr c ?_)
      rwa [update_self]
    · have h2 : Thread.proc (C := C) r ≠ .proc p := fun e => hrp (Thread.proc.inj e)
      show Parked pre r (s.proc r) (code (.proc r)) (X' (.proc r)).new
      have h1 : Thread.proc r ≠ .scheduler c := nofun
      rw [hcode _ h1 h2, hX _ h1 h2]
      exact (h.parked r (not_cur_of_update hold hrp hr)).agrees (hoff r hrp)
  case new =>
    intro r q hq
    have hu := h.new r q (hnew r q hq)
    have hqp : q ≠ p := by
      rintro rfl
      exact hp hu.1
    show (s.proc q).state = .USED ∧ (s.proc q).creator = some r
    rw [(hoff q hqp).state, (hoff q hqp).creator]
    exact hu

/-- **None of `sched`'s panics is reached**: it switches to the scheduler. -/
theorem Inv.sched_eq (h : Inv pre m X) (hk : m.code (m.thread c) = .sched k) :
    ∃ p, (m.cpu c).cur = some p ∧ (∀ lk, m.lock lk = some c ↔ lk ∈ [proc p]) ∧
      sched m c k = .ok ⟨m.shared, m.lock, update m.cpu c { m.cpu c with cur := none },
        update m.code (.proc p) (.intena (m.cpu c).intena k)⟩ := by
  have hr := h.runs c
  rw [hk] at hr
  obtain ⟨p, hcur, hheld, hown⟩ := hr.ok
  have hlock : ∀ lk, m.lock lk = some c ↔ lk ∈ [proc p] := by
    intro lk
    rw [hr.lock, hheld]
  have hnoff : (m.cpu c).noff = 1 := by rw [hr.noff, hheld]; rfl
  have hintr : (m.cpu c).intr = false := hr.intr (by omega)
  have hnotrun : (m.shared.proc p).state ≠ .RUNNING := by
    rw [((h.sees c).own p hcur).1]
    rcases hown with ⟨e, -⟩ | ⟨e | e, -⟩ <;> simp [e]
  refine ⟨p, hcur, hlock, ?_⟩
  unfold Sched.sched
  simp only [h.proc_of_cur hcur, (hlock (.proc p)).mpr (mem_singleton_self _), hnoff, hintr,
    hnotrun, thread_of_cur hcur, ne_eq, not_true_eq_false, if_false, Bool.false_eq_true]
  rfl

theorem Inv.sched (h : Inv pre m X) (hk : m.code (m.thread c) = .sched k) :
    ∃ m' X', sched m c k = .ok m' ∧ Inv pre m' X' := by
  obtain ⟨p, hcur, hlock, hsched⟩ := h.sched_eq hk
  have hr := h.runs c
  rw [hk] at hr
  obtain ⟨p', hcur', hheld, hown⟩ := hr.ok
  obtain rfl : p' = p := some.inj (hcur'.symm.trans hcur)
  have ht := thread_of_cur hcur
  obtain ⟨hstate, hfork, -, hback⟩ := (h.sees c).own p' hcur
  have hnoff : (m.cpu c).noff = 1 := by rw [hr.noff, hheld]; rfl
  have hproc := h.proc_of_cur hcur
  rw [ht] at hheld hown hstate hback
  have hleft : (X (.proc p')).own = .ZOMBIE ∨ (X (.proc p')).own = .RUNNABLE ∨
      (X (.proc p')).own = .SLEEPING := hown.imp And.left And.left
  have hnotrun : (m.shared.proc p').state ≠ .RUNNING := by
    rw [hstate]
    rcases hleft with e | e | e <;> simp [e]
  have hpark : Parked pre p' (m.shared.proc p') (.intena (m.cpu c).intena k) (X (.proc p')).new := by
    refine ⟨hnotrun, fun e => ?_, fun e => ?_, fun e => ?_⟩ <;> rw [hstate] at e
    · rw [hfork, if_neg Bool.false_ne_true]
      rcases hown with ⟨e', -⟩ | ⟨-, hok⟩
      · rw [e'] at e
        rcases e with e | e <;> cases e
      · rw [hheld, hback, hcur] at hok
        exact hok
    · rcases hown with ⟨-, hnew⟩ | ⟨e' | e', -⟩
      · exact hnew
      all_goals
        rw [e'] at e
        rcases e with e | e | e <;> cases e
    · rcases hleft with e' | e' | e' <;> rw [e'] at e <;> cases e
  have hne : Thread.scheduler c ≠ .proc p' := nofun
  refine ⟨_, update X (.scheduler c) ⟨[.proc p'], .RUNNING, none, some p'⟩, hsched,
    h.swtch (.inr hcur) (.inl rfl) hproc (fun c' hc e => hc (h.uniq c' c p' e hproc))
      (fun _ _ => .refl _) (fun t _ ht => update_of_ne ht _ _)
      (fun t ht _ => update_of_ne ht _ _) ?_ ?_ nofun (fun _ => ?_) (fun r q hq => ?_) ?_⟩
  · show Runs pre c _ _ (update m.code (.proc p') _ (.scheduler c)) _
    rw [update_of_ne hne]
    simp only [threadOf, update_self]
    exact ⟨h.resume c p' hcur, hlock, nodup_singleton _, hnoff,
      fun _ => hr.intr (by rw [hnoff]; decide)⟩
  · simp only [threadOf, update_self]
    refine ⟨hproc, nofun, fun _ => ⟨rfl, rfl⟩, fun q hq => ?_⟩
    obtain rfl : p' = q := some.inj hq
    exact ⟨hnotrun, mem_singleton_self _⟩
  · rw [update_self, update_of_ne hne.symm]
    exact hpark
  · have hne' : Thread.proc r ≠ .scheduler c := nofun
    rwa [update_of_ne hne'] at hq
  · rw [hstate]
    rcases hleft with e | e | e <;> simp [e]

omit [DecidableEq C] in
/-- A scheduler that holds the lock of a process that does not run is the only one to have to do with it. -/
theorem Inv.pick_alone (h : Inv pre m X) (hk : m.code (m.thread c) = .pick q k₁ k₂)
    (hq : (m.shared.proc q).state ≠ .RUNNING) :
    (m.cpu c).cur = none ∧ (∀ lk, m.lock lk = some c ↔ lk ∈ [proc q]) ∧
      (∀ c', (m.cpu c').cur ≠ some q) ∧ ∀ c', c' ≠ c → (m.cpu c').proc ≠ some q := by
  have hr := h.runs c
  rw [hk] at hr
  obtain ⟨hcur, hx, -, -⟩ := hr.ok
  have hlock : ∀ lk, m.lock lk = some c ↔ lk ∈ [proc q] := by
    intro lk
    rw [hr.lock, hx]
  have hl := (hlock _).mpr (mem_singleton_self _)
  have hnone : ∀ c', (m.cpu c').cur ≠ some q := h.not_cur hl (by simp [hcur]) hq
  refine ⟨hcur, hlock, hnone, fun c' hc e => ?_⟩
  rw [(h.sees c').proc] at e
  cases hc' : (m.cpu c').cur with
  | some r =>
    rw [hc'] at e
    exact hnone c' (hc'.trans e)
  | none =>
    rw [hc'] at e
    have hl' := ((h.runs c').lock _).mpr ((h.sees c').back q e).2
    exact hc (some.inj (hl'.symm.trans hl))

theorem Inv.pick (h : Inv pre m X) (hk : m.code (m.thread c) = .pick q k₁ k₂) :
    ∃ X', Inv pre (pick m c q k₁ k₂) X' := by
  have hr := h.runs c
  rw [hk] at hr
  obtain ⟨-, hx, hok1, hok2⟩ := hr.ok
  by_cases hq : (m.shared.proc q).state = .RUNNABLE
  case neg =>
    unfold Sched.pick
    rw [if_neg hq]
    exact ⟨X, h.goto c hok2⟩
  obtain ⟨hcur, hlock, hnone, hothers⟩ := h.pick_alone hk (by simp [hq])
  have hready := (h.parked q hnone).ready (.inl hq)
  have hnoff : (m.cpu c).noff = 1 := by rw [hr.noff, hx]; rfl
  have hne : Thread.scheduler c ≠ .proc q := nofun
  -- where the thread of the process goes on
  have hkq : Ok pre (some q) (if (m.shared.proc q).forkret then forkret q else m.code (.proc q))
      ⟨[.proc q], .RUNNING, (X (.proc q)).new, none⟩ := by
    cases hf : (m.shared.proc q).forkret with
    | true =>
      rw [hf, if_pos rfl] at hready
      refine ⟨mem_singleton_self _, fun p _ => ⟨fun _ => rfl, nofun⟩, ?_⟩
      simp [Ok, Ctx.drop, Ctx.free, hready]
    | false =>
      rw [hf, if_neg Bool.false_ne_true] at hready
      simpa using hready
  rw [pick_eq hcur hq]
  refine ⟨update X (.proc q) ⟨[.proc q], .RUNNING, (X (.proc q)).new, none⟩,
    h.swtch (.inl hcur) (.inr rfl) rfl hothers (m.shared.agreesOff_setProc _ _)
      (fun t h1 h2 => by rw [update_of_ne h2, update_of_ne h1])
      (fun t _ h2 => update_of_ne h2 _ _) ?_ ?_ (fun _ => ?_) nofun (fun r n hn => ?_)
      (by simp [hq])⟩
  · simp only [threadOf, update_self]
    exact ⟨hkq, hlock, nodup_singleton _, hnoff, fun _ => hr.intr (by rw [hnoff]; decide)⟩
  · simp only [threadOf, update_self]
    refine ⟨rfl, fun p hp => ?_, nofun, nofun⟩
    obtain rfl : q = p := some.inj hp
    rw [Shared.setProc_self]
    exact ⟨rfl, rfl, fun e => absurd rfl e, rfl⟩
  · rw [update_of_ne hne, update_self]
    rw [hx, hcur] at hok1
    exact hok1
  · exact new_of_update hn fun e => e

/-- The scheduler keeps the discipline. -/
theorem ok_schedulerScan (qs : List (Fin NPROC)) :
    Ok pre none (schedulerScan qs : Code σ L) Ctx.free := by
  induction qs with
  | nil => rfl
  | cons q qs ih =>
    have hunlock : Ok pre none (.release (.proc q) (schedulerScan qs) : Code σ L)
        ⟨[.proc q], .RUNNING, none, none⟩ := by
      refine ⟨mem_singleton_self _, fun p _ => ⟨nofun, nofun⟩, ?_⟩
      simpa [Ctx.drop, Ctx.free] using ih
    exact ⟨not_mem_nil, rfl, rfl, ⟨rfl, hunlock⟩, hunlock⟩

/-- `yield` keeps the discipline wherever no lock is held. -/
theorem ok_yield (hk : Ok pre (some p) k ⟨[], .RUNNING, n, none⟩) :
    Ok pre (some p) (yield p k) ⟨[], .RUNNING, n, none⟩ := by
  refine ⟨not_mem_nil, fun s _ => ⟨_, .leave p (mem_singleton_self _) rfl
    (s.agreesOff_setProc _ _) rfl (by simp) (by simp) (by simp), ?_⟩⟩
  refine ⟨p, rfl, rfl, .inr ⟨.inl (by simp), ?_⟩⟩
  refine ⟨mem_singleton_self _, fun q _ => ⟨fun _ => rfl, nofun⟩, ?_⟩
  simpa [Ctx.drop, Ctx.take] using hk

/-- `sleep` keeps the discipline when its lock is the only one held. -/
theorem ok_sleep (hlk : ∀ q, lk ≠ .proc q)
    (hk : Ok pre (some p) k ⟨[lk], .RUNNING, n, none⟩) :
    Ok pre (some p) (sleep p chan lk k) ⟨[lk], .RUNNING, n, none⟩ := by
  have herase : [proc p, lk].erase lk = [.proc p] := by
    simp [(hlk p).symm]
  refine ⟨fun e => hlk p (mem_singleton.mp e).symm, by simp [Ctx.take],
    fun q e => absurd e (hlk q), ?_⟩
  simp only [Ctx.take, Ctx.drop, herase]
  refine fun s _ => ⟨_, .leave p (mem_singleton_self _) rfl (s.agreesOff_setProc _ _) rfl
    (by simp) (by simp) (by simp), ?_⟩
  refine ⟨p, rfl, rfl, .inr ⟨.inr (by simp), ?_⟩⟩
  refine fun s _ => ⟨_, .keep (s.agrees_setProc p ⟨rfl, rfl, rfl⟩), ?_⟩
  refine ⟨mem_singleton_self _, fun q _ => ⟨fun _ => rfl, nofun⟩, ?_, ?_⟩
  · simp [Ctx.drop]
  · simpa [Ctx.drop, Ctx.take] using hk

theorem wake_agrees_or (chan : Option Chan) (e : Entry) :
    e.Agrees (wake chan e) ∨ e.state = .SLEEPING ∧ (wake chan e).state = .RUNNABLE ∧
      (wake chan e).creator = e.creator ∧ (wake chan e).forkret = e.forkret := by
  unfold wake
  split
  case isTrue h => exact .inr ⟨h.1, rfl, rfl, rfl⟩
  case isFalse => exact .inl (.refl e)

/-- `wakeup` keeps the discipline when no `p->lock` is held. -/
theorem ok_wakeup
    (hx : ∀ q, proc q ∉ x.held) (hback : x.back = none) (hk : Ok pre self k x) :
    Ok pre self (wakeup self chan k) x := by
  unfold wakeup
  generalize List.finRange NPROC = qs
  induction qs with
  | nil => exact hk
  | cons q qs ih =>
    rw [wakeupScan]
    by_cases hq : some q ≠ self
    case neg =>
      rw [if_neg hq]
      exact ih
    rw [if_pos hq]
    refine ⟨hx q, fun s _ => ⟨x.take (.proc q), ?_, ?_⟩⟩
    · rcases wake_agrees_or chan (s.proc q) with ha | ⟨h1, h2, h3, h4⟩
      · exact .keep (s.agrees_setProc q ha)
      · exact .wake q mem_cons_self hq.symm (s.agreesOff_setProc _ _) h1 (by simpa using h2)
          (by simpa using h3) (by simpa using h4)
    · refine ⟨mem_cons_self, fun p hp => ⟨fun e => ?_, ?_⟩, ?_⟩
      · obtain rfl : q = p := proc.inj hp
        exact absurd e.symm hq
      · show x.back ≠ some p
        rw [hback]
        exact nofun
      · rwa [Ctx.drop_take]

omit [DecidableEq C] in
/-- A CPU that can be interrupted executes a thread that holds no lock. -/
theorem Inv.interruptible (h : Inv pre m X) (hi : (m.cpu c).intr = true) :
    X (m.thread c) = ⟨[], .RUNNING, (X (m.thread c)).new, none⟩ := by
  have hr := h.runs c
  have hv := h.sees c
  have hnoff : (m.cpu c).noff = 0 := by
    by_contra hne
    rw [hr.intr hne] at hi
    cases hi
  have hheld : (X (m.thread c)).held = [] := length_eq_zero_iff.mp (hr.noff.symm.trans hnoff)
  have hback : (X (m.thread c)).back = none := by
    cases hb : (X (m.thread c)).back with
    | none => rfl
    | some q =>
      have hmem := (hv.back q hb).2
      rw [hheld] at hmem
      cases hmem
  have hown : (X (m.thread c)).own = .RUNNING := by
    cases hc : (m.cpu c).cur with
    | none => exact (hv.scheduler hc).1
    | some p =>
      by_contra hne
      have hmem := (hv.own p hc).2.2.1 hne
      rw [hheld] at hmem
      cases hmem
  rw [← hheld, ← hback, ← hown]

/-- A step that changes the CPU's interrupt flags and the code ahead. -/
theorem Inv.flags (h : Inv pre m X) (c : C) (hcur : u.cur = (m.cpu c).cur)
    (hproc : u.proc = (m.cpu c).proc) (hnoff : u.noff = (m.cpu c).noff)
    (hintr : u.noff ≠ 0 → u.intr = false) (hok : Ok pre (m.cpu c).cur k (X (m.thread c))) :
    Inv pre ((m.setCpu c u).goto (m.thread c) k) X := by
  have hr := h.runs c
  have := h.local_shared c hcur (fun p hp => hproc ▸ hp) (fun _ _ _ => Iff.rfl)
    ⟨hcur ▸ hok, hr.lock, hr.nodup, hnoff.trans hr.noff, hintr⟩ ((h.sees c).cpu hcur hproc) rfl
  rw [update_eq_self] at this
  exact this

theorem Inv.idle (h : Inv pre m X) (hk : m.code (m.thread c) = .idle k) :
    ∃ X', Inv pre ((m.setCpu c { m.cpu c with proc := none }).goto (m.thread c) k) X' := by
  have hr := h.runs c
  rw [hk] at hr
  obtain ⟨hcur, hok⟩ := hr.ok
  refine ⟨_, h.local_shared c rfl nofun (fun _ _ _ => Iff.rfl)
    ⟨hok, hr.lock, hr.nodup, hr.noff, hr.intr⟩ ⟨?_, fun p hp => ?_, (h.sees c).scheduler, nofun⟩ rfl⟩
  · simp only [hcur, or_none]
  · rw [hcur] at hp
    cases hp

variable {K : Kernel σ L}

section

variable (c) (h : Inv pre m X) (hK : Disciplined K pre)

include h hK

theorem Inv.irq (l : L) (timer : Bool) : Inv pre (irq K m c l timer) X := by
  unfold Sched.irq
  cases hi : (m.cpu c).intr with
  | false => exact h
  | true =>
    have hx := h.interruptible hi
    have hok := (h.runs c).ok
    refine h.flags c rfl rfl rfl (fun _ => rfl) ?_
    rw [hx] at hok ⊢
    refine hK.handler l _ _ _ ?_
    have hback : Ok pre (m.cpu c).cur (.intr true (m.code (m.thread c)))
        ⟨[], .RUNNING, (X (m.thread c)).new, none⟩ := ⟨rfl, hok⟩
    unfold afterIrq
    cases hp : (m.cpu c).proc with
    | none => exact hback
    | some p =>
      have hcur : (m.cpu c).cur = some p := by
        rw [(h.sees c).proc, hx, or_none] at hp
        exact hp
      rw [hcur] at hback ⊢
      by_cases ht : timer = true ∧ (m.shared.proc p).state = .RUNNING
      · simp only [if_pos ht]
        exact ok_yield hback
      · simp only [if_neg ht]
        exact hback

theorem Inv.call (l : L) (on : Bool) : Inv pre (call K m c l on) X := by
  unfold Sched.call
  cases hcur : (m.cpu c).cur with
  | none => exact h
  | some p =>
    cases hk : m.code (m.thread c) with
    | ret =>
      cases hl : K.entry l with
      | false => exact h
      | true =>
        have hr := h.runs c
        rw [hk] at hr
        have hx : X (m.thread c) = Ctx.free := hr.ok
        have hnoff : (m.cpu c).noff = 0 := by rw [hr.noff, hx]; rfl
        have hok := hK.body p l
        rw [hK.entry p l hl, ← hx, ← hcur] at hok
        simp only [if_true]
        rw [← thread_of_cur hcur]
        exact h.flags c rfl rfl rfl (fun hne => absurd hnoff hne) hok
    | _ => exact h

/-- **One instruction.**  The only panic that can be reached is that of `exit` in the first process. -/
theorem Inv.exec :
    (∃ m' X', exec K m c = .ok m' ∧ Inv pre m' X') ∨ exec K m c = .error "init exiting" := by
  have hr := h.runs c
  unfold Sched.exec
  cases hk : m.code (m.thread c) with
  | ret =>
    left
    have hx : X (m.thread c) = Ctx.free := by
      have hok := hr.ok
      rwa [hk] at hok
    cases hcur : (m.cpu c).cur with
    | some p => exact ⟨m, X, by simp [instr, hcur], h⟩
    | none =>
      refine ⟨_, X, by rw [instr, if_pos hcur], h.goto c ?_⟩
      rw [hcur, hx]
      exact ⟨rfl, ok_schedulerScan _⟩
  | jump l =>
    left
    rw [hk] at hr
    obtain ⟨p, hcur, hx⟩ := hr.ok
    refine ⟨_, X, by simp only [instr, hcur]; rfl, h.goto c ?_⟩
    rw [hx, hcur]
    exact hK.body p l
  | acquire lk k => exact .inl (h.acquire hk)
  | release lk k => exact .inl (h.release hk)
  | act f k =>
    obtain ⟨X', h'⟩ := h.act hk
    exact .inl ⟨_, X', rfl, h'⟩
  | sched k => exact .inl (h.sched hk)
  | intena b k =>
    rw [hk] at hr
    exact .inl ⟨_, X, rfl, h.flags c rfl rfl rfl hr.intr hr.ok⟩
  | intr b k =>
    rw [hk] at hr
    obtain ⟨hheld, hok⟩ := hr.ok
    refine .inl ⟨_, X, rfl, h.flags c rfl rfl rfl (fun hne => absurd ?_ hne) hok⟩
    show (m.cpu c).noff = 0
    rw [hr.noff, hheld]
    rfl
  | pick q k₁ k₂ =>
    obtain ⟨X', h'⟩ := h.pick hk
    exact .inl ⟨_, X', rfl, h'⟩
  | idle k =>
    obtain ⟨X', h'⟩ := h.idle hk
    exact .inl ⟨_, X', rfl, h'⟩
  | stop msg =>
    rw [hk] at hr
    exact .inr (congrArg Except.error hr.ok)

end

omit [DecidableEq C] in
/-- The invariant holds when the schedulers start. -/
theorem boot_inv (pre : Fin NPROC → L → Ctx) (init : Fin NPROC) (data : σ) :
    Inv pre (boot init data : Machine C σ L) fun _ => Ctx.free := by
  constructor
  case runs => exact fun c => ⟨rfl, by simp [boot, Ctx.free], nodup_nil, rfl, fun _ => rfl⟩
  case sees => exact fun c => ⟨rfl, nofun, fun _ => ⟨rfl, rfl⟩, nofun⟩
  case uniq => exact fun _ _ _ h => nomatch h
  case resume => exact fun _ _ h => nomatch h
  case new => exact fun _ _ h => nomatch h
  case parked =>
    intro p _
    by_cases hp : p = init
    · constructor <;> simp [boot, hp, Ctx.free]
    · constructor <;> simp [boot, hp, Ctx.free]

/-- **One step** keeps the invariant. -/
theorem step_inv (hK : Disciplined K pre) (h : Inv pre m X) (a : Action C L) :
    (∃ m' X', step K m a = .ok m' ∧ Inv pre m' X') ∨ step K m a = .error "init exiting" := by
  cases a with
  | exec c => exact h.exec c hK
  | call c l on => exact .inl ⟨_, X, rfl, h.call c hK l on⟩
  | irq c l timer => exact .inl ⟨_, X, rfl, h.irq c hK l timer⟩

/-- **Every run** keeps the invariant. -/
theorem run_inv (hK : Disciplined K pre) (as : List (Action C L)) :
    ∀ {m : Machine C σ L} {X : Thread C → Ctx}, Inv pre m X →
      (∃ m' X', run (step K) m as = .ok m' ∧ Inv pre m' X') ∨
        run (step K) m as = .error "init exiting" := by
  induction as with
  | nil => exact fun {m X} h => .inl ⟨m, X, rfl, h⟩
  | cons a as ih =>
    intro m X h
    rw [run_cons]
    rcases step_inv hK h a with ⟨m', X', hm, h'⟩ | he
    · rw [hm]
      exact ih h'
    · rw [he]
      exact .inr rfl

end Steps

end Xv6.Sched
