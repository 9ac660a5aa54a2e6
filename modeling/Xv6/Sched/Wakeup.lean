/-
# Xv6.Sched.Wakeup — no wakeup is lost (`sleep` and `wakeup` of `kernel/proc.c`).

A condition on data is guarded by a spin lock `lk`.  Who waits for it runs `while(!cond) sleep(chan, lk)` with
`lk` held; who makes it true does so with `lk` held and calls `wakeup(chan)` before giving `lk` back.
`Obeys` reads the code of a thread against these two rules.

`sleep` gives `lk` back before the process is marked, and `wakeup` looks at one process after the other, so
neither is atomic.  The invariant says what makes up for it: a process that is bound to sleep while the
condition holds is one that the holder of `lk` has still to look at.
-/
import Xv6.Sched.OneCpu

namespace Xv6.Sched

open Lib List Option SpinLock Sched.Machine
open Function (update update_eq_self update_of_ne update_self)

variable {C σ L : Type}

/-! ## The two rules -/

/-- Where a thread is with respect to the condition. -/
inductive Phase where
  /-- Without the lock. -/
  | out
  /-- With the lock; `owed` are the processes that are still to be looked at before it is given back. -/
  | crit (owed : List (Fin NPROC))
  /-- With the lock, and the condition was seen to be false. -/
  | checked
  /-- The condition was seen to be false; the lock has been given back under the own `p->lock`. -/
  | falling
  /-- Marked as sleeping, about to give up the CPU. -/
  | asleep

/-- The phases with the lock. -/
def Phase.Holds : Phase → Prop
  | .crit _ | .checked => True
  | _ => False

/-- What a thread owes at one point of its code, with locks it holds there. -/
structure Duty where
  held : List SpinLock
  phase : Phase

/-- Nothing. -/
def Duty.none : Duty := ⟨[], .out⟩

/-- A process sleeps on the channel. -/
def Entry.SleepsOn (chan : Chan) (e : Entry) : Prop :=
  e.state = .SLEEPING ∧ e.chan = some chan

section Rules

variable (lk : SpinLock) (chan : Chan) (cond : σ → Prop)

/-- What a thread may do to the shared state in a phase, and the phase it is in then. -/
inductive Acts (self : Option (Fin NPROC)) (d : Duty) (s s' : Shared σ) : Phase → Prop
  /-- Without the lock the condition cannot become true. -/
  | quiet (hd : d.phase = .out) (hc : cond s'.data → cond s.data) : Acts self d s s' .out
  /-- Still not marked. -/
  | fall (hd : d.phase = .falling) (hc : cond s'.data → cond s.data) : Acts self d s s' .falling
  /-- Marked. -/
  | mark (hd : d.phase = .falling) (hc : cond s'.data → cond s.data) : Acts self d s s' .asleep
  /-- The condition is false: nothing is owed. -/
  | off (hd : d.phase.Holds) (hc : ¬cond s'.data) : Acts self d s s' .checked
  /-- The condition has become true: every other process is to be looked at. -/
  | on (hd : d.phase.Holds) (hc : ¬cond s.data) (owed : List (Fin NPROC))
      (howed : ∀ q, some q ≠ self → q ∈ owed) : Acts self d s s' (.crit owed)
  /-- A process that was looked at under its lock, and does not sleep on the channel, is no longer owed. -/
  | pay (owed owed' : List (Fin NPROC)) (hd : d.phase = .crit owed) (hc : cond s'.data → cond s.data)
      (howed : ∀ q ∈ owed, q ∈ owed' ∨
        SpinLock.proc q ∈ d.held ∧ ¬(s'.proc q).SleepsOn chan) : Acts self d s s' (.crit owed')

/-- **The rules for the condition**: the code may be run by the thread of `self` that owes `d`. -/
def Obeys (pre : Fin NPROC → L → Duty) (self : Option (Fin NPROC)) : Code σ L → Duty → Prop
  | .ret, d => d.phase = .out
  | .jump l, d => ∃ p, self = some p ∧ d = pre p l
  | .acquire lk' k, d =>
    if lk' = lk then d.phase = .out ∧ Obeys pre self k ⟨lk' :: d.held, .crit []⟩
    else d.phase ≠ .asleep ∧ Obeys pre self k ⟨lk' :: d.held, d.phase⟩
  | .release lk' k, d =>
    if lk' = lk then
      (d.phase = .crit [] ∨ d.phase = .checked) ∧ Obeys pre self k ⟨d.held.filter (· ≠ lk'), .out⟩ ∨
      d.phase = .checked ∧ (∃ p, self = some p ∧ SpinLock.proc p ∈ d.held) ∧
        Obeys pre self k ⟨d.held.filter (· ≠ lk'), .falling⟩
    else
      (d.phase = .falling → ∀ p, self = some p → lk' ≠ .proc p) ∧ d.phase ≠ .asleep ∧
        Obeys pre self k ⟨d.held.filter (· ≠ lk'), d.phase⟩
  | .act f k, d =>
    ∀ s, (d.phase = .checked → ¬cond s.data) →
      (∀ q, ((f s).proc q).SleepsOn chan → (s.proc q).SleepsOn chan ∨
        self = some q ∧ d.phase = .falling) ∧
      ∃ ph, Acts chan cond self d s (f s) ph ∧ Obeys pre self (k s) ⟨d.held, ph⟩
  | .sched k, d => (d.phase = .out ∨ d.phase = .asleep) ∧ Obeys pre self k ⟨d.held, .out⟩
  | .intena _ k, d => Obeys pre self k d
  | .intr _ k, d => Obeys pre self k d
  | .pick _ k₁ k₂, d => d.phase = .out ∧ Obeys pre self k₁ d ∧ Obeys pre self k₂ d
  | .idle k, d => Obeys pre self k d
  | .stop _, _ => True

variable {lk chan cond} {pre : Fin NPROC → L → Duty} {self : Option (Fin NPROC)} {lk' : SpinLock} {k : Code σ L}
  {d : Duty}

theorem obeys_acquire : Obeys lk chan cond pre self (.acquire lk' k) d ↔
    if lk' = lk then d.phase = .out ∧ Obeys lk chan cond pre self k ⟨lk' :: d.held, .crit []⟩
    else d.phase ≠ .asleep ∧ Obeys lk chan cond pre self k ⟨lk' :: d.held, d.phase⟩ := Iff.rfl

theorem obeys_release : Obeys lk chan cond pre self (.release lk' k) d ↔
    if lk' = lk then
      (d.phase = .crit [] ∨ d.phase = .checked) ∧
        Obeys lk chan cond pre self k ⟨d.held.filter (· ≠ lk'), .out⟩ ∨
      d.phase = .checked ∧ (∃ p, self = some p ∧ proc p ∈ d.held) ∧
        Obeys lk chan cond pre self k ⟨d.held.filter (· ≠ lk'), .falling⟩
    else
      (d.phase = .falling → ∀ p, self = some p → lk' ≠ .proc p) ∧ d.phase ≠ .asleep ∧
        Obeys lk chan cond pre self k ⟨d.held.filter (· ≠ lk'), d.phase⟩ := Iff.rfl

variable (lk chan cond)

/-- The kernel's functions keep the rules.  (`sleep` takes `p->lock` itself, so `lk` is another lock.) -/
structure Guarded (K : Kernel σ L) (pre : Fin NPROC → L → Duty) : Prop where
  lock : ∀ q, lk ≠ .proc q
  entry : ∀ p l, K.entry l = true → pre p l = .none
  body : ∀ p l, Obeys lk chan cond pre (some p) (K.body p l) (pre p l)
  handler : ∀ l self k, Obeys lk chan cond pre self k .none →
    Obeys lk chan cond pre self (K.handler l self k) .none

end Rules

/-! ## The invariant -/

section Invariant

variable (lk : SpinLock) (chan : Chan) (cond : σ → Prop) (pre : Fin NPROC → L → Duty)

/-- A process sleeps on the channel or is about to. -/
def Bound (m : Machine C σ L) (D : Thread C → Duty) (q : Fin NPROC) : Prop :=
  (m.shared.proc q).SleepsOn chan ∨ ∃ c, (m.cpu c).cur = some q ∧ (D (m.thread c)).phase = .falling

/-- The same after a step of `c` to the shared state `s` and the phase `ph`. -/
def BoundAfter (m : Machine C σ L) (D : Thread C → Duty) (c : C) (s : Shared σ) (ph : Phase)
    (q : Fin NPROC) : Prop :=
  (s.proc q).SleepsOn chan ∨
  (∃ c', c' ≠ c ∧ (m.cpu c').cur = some q ∧ (D (m.thread c')).phase = .falling) ∨
  (m.cpu c).cur = some q ∧ ph = .falling

/-- **The invariant of sleeping and waking**, with what each thread owes. -/
structure WInv (m : Machine C σ L) (D : Thread C → Duty) : Prop where
  obeys : ∀ c, Obeys lk chan cond pre (m.cpu c).cur (m.code (m.thread c)) (D (m.thread c))
  held : ∀ c, ∀ lk' ∈ (D (m.thread c)).held, m.lock lk' = some c
  holds : ∀ c, (D (m.thread c)).phase.Holds ↔ m.lock lk = some c
  checked : ∀ c, (D (m.thread c)).phase = .checked → ¬cond m.shared.data
  falling : ∀ c, (D (m.thread c)).phase = .falling ∨ (D (m.thread c)).phase = .asleep →
    ∃ p, (m.cpu c).cur = some p ∧ m.lock (.proc p) = some c
  awake : ∀ c p, (m.cpu c).cur = some p → (D (m.thread c)).phase ≠ .falling →
    (D (m.thread c)).phase ≠ .asleep → ¬(m.shared.proc p).SleepsOn chan
  parked : ∀ p, (∀ c, (m.cpu c).cur ≠ some p) →
    ∃ held, held ⊆ [SpinLock.proc p] ∧
      Obeys lk chan cond pre (some p) (m.code (.proc p)) ⟨held, .out⟩
  resume : ∀ c p, (m.cpu c).cur = some p →
    ∃ held, held ⊆ [SpinLock.proc p] ∧
      Obeys lk chan cond pre none (m.code (.scheduler c)) ⟨held, .out⟩
  owed : cond m.shared.data → ∀ q, Bound chan m D q →
    ∃ c owed, (D (m.thread c)).phase = .crit owed ∧ q ∈ owed

/-- What the invariant says of the CPU `c`, whose thread goes on with `k` and owes `d`. -/
structure OnCpu (s : Shared σ) (l : SpinLock → Option C) (c : C) (cur : Option (Fin NPROC))
    (k : Code σ L) (d : Duty) : Prop where
  obeys : Obeys lk chan cond pre cur k d
  held : ∀ lk' ∈ d.held, l lk' = some c
  holds : d.phase.Holds ↔ l lk = some c
  checked : d.phase = .checked → ¬cond s.data
  falling : d.phase = .falling ∨ d.phase = .asleep → ∃ p, cur = some p ∧ l (.proc p) = some c
  awake : ∀ p, cur = some p → d.phase ≠ .falling → d.phase ≠ .asleep → ¬(s.proc p).SleepsOn chan

/-- When the lock is free, nobody sleeps on the channel while the condition holds. -/
theorem WInv.not_lost {lk chan cond pre} {D : Thread C → Duty}
    (h : WInv lk chan cond pre m D) (hl : m.lock lk = none) (q : Fin NPROC)
    (hq : (m.shared.proc q).SleepsOn chan) : ¬cond m.shared.data := by
  intro hc
  obtain ⟨c, owed, hph, -⟩ := h.owed hc q (.inl hq)
  have := (h.holds c).mp (by rw [hph]; trivial)
  rw [hl] at this
  cases this

end Invariant

/-! ## Steps keep the invariant -/

section Steps

variable [DecidableEq C] {lk : SpinLock} {chan : Chan} {cond : σ → Prop}
  {pre : Fin NPROC → L → Duty} {pre' : Fin NPROC → L → Ctx} {m m' : Machine C σ L}
  {D : Thread C → Duty} {X : Thread C → Ctx} {c : C} {p q : Fin NPROC} {self : Option (Fin NPROC)}
  {lk' : SpinLock} {k k₁ k₂ : Code σ L} {s : Shared σ} {u : Cpu} {l : SpinLock → Option C} {d : Duty}

section

variable (h : WInv lk chan cond pre m D) (hI : Inv pre' m X)

include h hI

omit hI [DecidableEq C] in
theorem WInv.onCpu (c : C) : OnCpu lk chan cond pre m.shared m.lock c (m.cpu c).cur
    (m.code (m.thread c)) (D (m.thread c)) :=
  ⟨h.obeys c, h.held c, h.holds c, h.checked c, h.falling c, h.awake c⟩

section Local

variable (c) (hcur : u.cur = (m.cpu c).cur)
  (hlock : ∀ c', c' ≠ c → ∀ lk', l lk' = some c' ↔ m.lock lk' = some c')

include hcur hlock

/-- **A step of one thread** that goes on with `k` and owes `d`.  What the others owe stays; the last three
hypotheses are about the shared state and the thread's own phase. -/
theorem WInv.local (hon : OnCpu lk chan cond pre s l c (m.cpu c).cur k d)
    (hchecked : (∃ c', c' ≠ c ∧ (D (m.thread c')).phase = .checked) → ¬cond s.data)
    (hothers : ∀ q, (m.cpu c).cur ≠ some q → (s.proc q).SleepsOn chan →
      (m.shared.proc q).SleepsOn chan)
    (howed : cond s.data → ∀ q, BoundAfter chan m D c s d.phase q →
      (∃ owed, d.phase = .crit owed ∧ q ∈ owed) ∨
      ∃ c' owed, c' ≠ c ∧ (D (m.thread c')).phase = .crit owed ∧ q ∈ owed) :
    WInv lk chan cond pre ⟨s, l, update m.cpu c u, update m.code (m.thread c) k⟩
      (update D (m.thread c) d) := by
  have hcurs : ∀ c', (update m.cpu c u c').cur = (m.cpu c').cur := by
    intro c'
    by_cases hc : c' = c
    · rw [hc, update_self, hcur]
    · rw [update_of_ne hc]
  have hthread : ∀ c', thread (σ := σ) (L := L)
      ⟨s, l, update m.cpu c u, update m.code (m.thread c) k⟩ c' = m.thread c' :=
    fun c' => congrArg (threadOf c') (hcurs c')
  have ht : threadOf c u.cur = m.thread c := congrArg (threadOf c) hcur
  have hne : ∀ c', c' ≠ c → m.thread c' ≠ m.thread c := fun c' hc e => hc (hI.thread_inj e)
  have hcode := fun c' hc => update_of_ne (hne c' hc) k m.code
  have hD := fun c' hc => update_of_ne (hne c' hc) d D
  have hcpu := each_cpu (m := m) (u := u) (P := fun c' v k d => OnCpu lk chan cond pre s l c' v.cur k d)
    hcode hD (by rwa [ht, update_self, update_self, hcur]) fun c' hc => by
      have hon' := h.onCpu c'
      refine { hon' with
        held := fun lk' hlk' => (hlock c' hc lk').mpr (hon'.held lk' hlk')
        holds := hon'.holds.trans (hlock c' hc lk).symm
        checked := fun hph => hchecked ⟨c', hc, hph⟩
        falling := fun hph => ?_
        awake := fun p hp h1 h2 hs => ?_ }
      · obtain ⟨p, hp, hl⟩ := hon'.falling hph
        exact ⟨p, hp, (hlock c' hc _).mpr hl⟩
      · refine hon'.awake p hp h1 h2 (hothers p (fun e => hc ?_) hs)
        exact hI.uniq c' c p (hI.proc_of_cur hp) (hI.proc_of_cur e)
  refine ⟨fun c => (hcpu c).obeys, fun c => (hcpu c).held, fun c => (hcpu c).holds,
    fun c => (hcpu c).checked, fun c => (hcpu c).falling, fun c => (hcpu c).awake, ?_, ?_, ?_⟩
  case refine_1 =>
    intro p hp
    have hp' : ∀ c', (m.cpu c').cur ≠ some p := fun c' e => hp c' ((hcurs c').trans e)
    simp only [update_of_ne (parked_ne hp' c)]
    exact h.parked p hp'
  case refine_2 =>
    intro c' p hp
    have hp' : (m.cpu c').cur = some p := (hcurs c').symm.trans hp
    simp only [update_of_ne (scheduler_ne hp' c)]
    exact h.resume c' p hp'
  case refine_3 =>
    intro hcd q hb
    have hb' : BoundAfter chan m D c s d.phase q := by
      rcases hb with hs | ⟨c', hq, hph⟩
      · exact .inl hs
      · refine each_cpu (P := fun _ v _ d' => v.cur = some q → d'.phase = .falling →
          BoundAfter chan m D c s d.phase q) hcode hD ?_ ?_ c' hq hph
        · rw [ht, update_self, hcur]
          exact fun hq hph => .inr (.inr ⟨hq, hph⟩)
        · exact fun c' hc hq hph => .inr (.inl ⟨c', hc, hq, hph⟩)
    rcases howed hcd q hb' with ⟨owed, hph, hq⟩ | ⟨c', owed, hc, hph, hq⟩
    · refine ⟨c, owed, ?_, hq⟩
      rw [hthread, update_self]
      exact hph
    · refine ⟨c', owed, ?_, hq⟩
      rw [hthread, hD c' hc]
      exact hph

/-- A step that leaves the shared state alone. -/
theorem WInv.local_shared (hobeys : Obeys lk chan cond pre (m.cpu c).cur k d)
    (hheld : ∀ lk' ∈ d.held, l lk' = some c) (hholds : d.phase.Holds ↔ l lk = some c)
    (hfalling : d.phase = .falling ∨ d.phase = .asleep →
      ∃ p, (m.cpu c).cur = some p ∧ l (.proc p) = some c)
    (hchecked : d.phase = .checked → (D (m.thread c)).phase = .checked)
    (hawake : d.phase ≠ .falling → d.phase ≠ .asleep →
      (D (m.thread c)).phase ≠ .falling ∧ (D (m.thread c)).phase ≠ .asleep)
    (hkeep : cond m.shared.data → (d.phase = .falling → (D (m.thread c)).phase = .falling) ∧
      ∀ owed, (D (m.thread c)).phase = .crit owed → owed = [] ∨ d.phase = .crit owed) :
    WInv lk chan cond pre
      ⟨m.shared, l, update m.cpu c u, update m.code (m.thread c) k⟩
      (update D (m.thread c) d) := by
  refine h.local c hI hcur hlock ⟨hobeys, hheld, hholds, fun e => h.checked c (hchecked e), hfalling,
    fun p hp h1 h2 => h.awake c p hp (hawake h1 h2).1 (hawake h1 h2).2⟩ ?_ (fun _ _ hs => hs) ?_
  · rintro ⟨c', -, e⟩
    exact h.checked c' e
  · intro hcd q hb
    have hb' : Bound chan m D q := by
      rcases hb with hs | ⟨c', -, hq, hph⟩ | ⟨hq, hph⟩
      · exact .inl hs
      · exact .inr ⟨c', hq, hph⟩
      · exact .inr ⟨c, hq, (hkeep hcd).1 hph⟩
    obtain ⟨c', owed, hph, hq⟩ := h.owed hcd q hb'
    by_cases hc : c' = c
    · subst hc
      left
      rcases (hkeep hcd).2 owed hph with rfl | e
      · cases hq
      · exact ⟨owed, e, hq⟩
    · exact .inr ⟨c', owed, hc, hph, hq⟩

end Local

/-- A step that keeps what the thread owes. -/
theorem WInv.goto (c : C) (hcur : u.cur = (m.cpu c).cur)
    (hobeys : Obeys lk chan cond pre (m.cpu c).cur k (D (m.thread c))) :
    WInv lk chan cond pre ((m.setCpu c u).goto (m.thread c) k) D := by
  have := h.local_shared c hI (l := m.lock) hcur (fun _ _ _ => Iff.rfl) hobeys (h.held c) (h.holds c)
    (h.falling c) id (fun h1 h2 => ⟨h1, h2⟩) fun _ => ⟨id, fun _ e => .inr e⟩
  rw [update_eq_self] at this
  exact this

theorem WInv.acquire (hk : m.code (m.thread c) = .acquire lk' k) (hm : acquire m c lk' k = .ok m') :
    ∃ D', WInv lk chan cond pre m' D' := by
  have hob := h.obeys c
  rw [hk, obeys_acquire] at hob
  unfold Sched.acquire at hm
  cases hl : m.lock lk' with
  | some e =>
    rw [hl] at hm
    simp only at hm
    split at hm
    · cases hm
    · cases hm
      exact ⟨D, h⟩
  | none =>
    rw [hl] at hm
    cases hm
    have hlock : ∀ {lk''}, m.lock lk'' = some c → update m.lock lk' (some c) lk'' = some c := by
      intro lk'' hlk
      by_cases e : lk'' = lk'
      · rw [e, update_self]
      · rwa [update_of_ne e]
    have hheld : ∀ lk'' ∈ lk' :: (D (m.thread c)).held,
        update m.lock lk' (some c) lk'' = some c := by
      intro lk'' hmem
      rcases mem_cons.mp hmem with rfl | hmem
      · rw [update_self]
      · exact hlock (h.held c lk'' hmem)
    by_cases hlk : lk' = lk
    · rw [if_pos hlk] at hob
      obtain ⟨hph, hob⟩ := hob
      refine ⟨_, h.local_shared c hI rfl (fun c' hc => lock_update_of_ne hc (.inl rfl) (.inr rfl) hl)
        hob hheld ⟨fun _ => ?_, fun _ => trivial⟩ (by rintro (e | e) <;> cases e) nofun
        (fun _ _ => by simp [hph]) fun _ => ⟨nofun, fun owed e => ?_⟩⟩
      · rw [← hlk]
        exact update_self _ _ _
      · rw [hph] at e
        cases e
    · rw [if_neg hlk] at hob
      obtain ⟨-, hob⟩ := hob
      refine ⟨_, h.local_shared c hI rfl (fun c' hc => lock_update_of_ne hc (.inl rfl) (.inr rfl) hl)
        hob hheld ?_ (fun e => ?_) id (fun h1 h2 => ⟨h1, h2⟩) fun _ => ⟨id, fun _ e => .inr e⟩⟩
      · show _ ↔ update m.lock lk' (some c) lk = some c
        rw [update_of_ne (Ne.symm hlk)]
        exact h.holds c
      · obtain ⟨p, hp, hpl⟩ := h.falling c e
        exact ⟨p, hp, hlock hpl⟩

theorem WInv.release (hk : m.code (m.thread c) = .release lk' k) (hm : release m c lk' k = .ok m')
    (hlk : ∀ q, lk ≠ .proc q) : ∃ D', WInv lk chan cond pre m' D' := by
  have hob := h.obeys c
  rw [hk, obeys_release] at hob
  unfold Sched.release at hm
  have hr := hI.runs c
  rw [hk] at hr
  have hl : m.lock lk' = some c := (hr.lock lk').mpr hr.ok.1
  obtain ⟨u, hu, hcur, -, -⟩ := hr.drop
  rw [if_neg (not_not_intro hl), hu] at hm
  cases hm
  have hothers : ∀ c', c' ≠ c → ∀ lk'',
      update m.lock lk' none lk'' = some c' ↔ m.lock lk'' = some c' :=
    fun c' hc => lock_update_of_ne hc (.inr rfl) (.inl rfl) hl
  have hheld : ∀ lk'' ∈ (D (m.thread c)).held.filter (· ≠ lk'),
      update m.lock lk' none lk'' = some c := by
    intro lk'' hmem
    obtain ⟨hmem, hne⟩ := mem_filter.mp hmem
    rw [update_of_ne (of_decide_eq_true hne)]
    exact h.held c lk'' hmem
  have hfree : ¬update m.lock lk' none lk' = some c := by
    rw [update_self]
    exact nofun
  by_cases heq : lk' = lk
  · rw [if_pos heq] at hob
    subst heq
    rcases hob with ⟨hph, hob⟩ | ⟨hph, ⟨p, hp, hmem⟩, hob⟩
    · -- nothing is owed any more, or the condition is false
      refine ⟨_, h.local_shared c hI hcur hothers hob hheld ⟨nofun, fun e => absurd e hfree⟩
        (by rintro (e | e) <;> cases e) nofun (fun _ _ => by rcases hph with e | e <;> simp [e])
        fun _ => ⟨nofun, fun owed e => ?_⟩⟩
      rcases hph with e' | e' <;> rw [e'] at e <;> cases e
      exact .inl rfl
    · -- from here on the process is bound to sleep, and the condition is false
      refine ⟨_, h.local_shared c hI hcur hothers hob hheld ⟨nofun, fun e => absurd e hfree⟩
        (fun _ => ⟨p, hp, ?_⟩) nofun (fun e => absurd rfl e) fun hcd => absurd hcd (h.checked c hph)⟩
      have hne : proc p ≠ lk' := (hlk p).symm
      exact (update_of_ne hne _ _).trans (h.held c _ hmem)
  · rw [if_neg heq] at hob
    obtain ⟨hfall, hawake, hob⟩ := hob
    refine ⟨_, h.local_shared c hI hcur hothers hob hheld ?_ (fun e => ?_) id
      (fun h1 h2 => ⟨h1, h2⟩) fun _ => ⟨id, fun _ e => .inr e⟩⟩
    · show _ ↔ update m.lock lk' none lk = some c
      rw [update_of_ne (Ne.symm heq)]
      exact h.holds c
    · obtain ⟨p, hp, hpl⟩ := h.falling c e
      refine ⟨p, hp, ?_⟩
      have hne : lk' ≠ .proc p := hfall (e.resolve_right hawake) p hp
      exact (update_of_ne hne.symm _ _).trans hpl

/-- A write to the shared state that takes the thread to phase `ph`. -/
theorem WInv.write
    (hsleep : ∀ q, (s.proc q).SleepsOn chan → (m.shared.proc q).SleepsOn chan ∨
      (m.cpu c).cur = some q ∧ (D (m.thread c)).phase = .falling)
    (hob : Obeys lk chan cond pre (m.cpu c).cur k ⟨(D (m.thread c)).held, ph⟩)
    (hholds : ph.Holds ↔ (D (m.thread c)).phase.Holds) (hfall : ph = .falling ∨ ph = .asleep ↔
      (D (m.thread c)).phase = .falling ∨ (D (m.thread c)).phase = .asleep)
    (hchk : ph = .checked ∨ (∃ c', c' ≠ c ∧ (D (m.thread c')).phase = .checked) → ¬cond s.data)
    (howed : cond s.data → ∀ q, BoundAfter chan m D c s ph q →
      (∃ owed, ph = .crit owed ∧ q ∈ owed) ∨
      ∃ c' owed, c' ≠ c ∧ (D (m.thread c')).phase = .crit owed ∧ q ∈ owed) :
    ∃ D', WInv lk chan cond pre ((m.setShared s).goto (m.thread c) k) D' := by
  have := h.local c hI (s := s) (u := m.cpu c) (l := m.lock) rfl (fun _ _ _ => Iff.rfl)
    ⟨hob, h.held c, hholds.trans (h.holds c), fun e => hchk (.inl e),
      fun e => h.falling c (hfall.mp e), ?_⟩ (fun e => hchk (.inr e)) ?_ howed
  · rw [update_eq_self] at this
    exact ⟨_, this⟩
  · intro p hp h1 h2 hs
    have hno : ¬(ph = .falling ∨ ph = .asleep) := fun e => e.elim h1 h2
    rw [hfall, not_or] at hno
    exact h.awake c p hp hno.1 hno.2 ((hsleep p hs).resolve_right fun e => hno.1 e.2)
  · exact fun q hq hs => (hsleep q hs).resolve_right fun e => hq e.1

/-- **Reading and writing.**  Only the holder of the lock can make the condition true, and then it owes
everybody else a look; a process leaves the debt when it is looked at under its lock, which a process that
is about to sleep holds itself. -/
theorem WInv.act {f : Shared σ → Shared σ}
    {k : Shared σ → Code σ L} (hk : m.code (m.thread c) = .act f k) :
    ∃ D', WInv lk chan cond pre ((m.setShared (f m.shared)).goto (m.thread c) (k m.shared)) D' := by
  have hob := h.obeys c
  rw [hk] at hob
  obtain ⟨hsleep, ph, hacts, hob⟩ := hob m.shared (h.checked c)
  -- two holders of the lock are one
  have hone : ∀ {c'}, (D (m.thread c)).phase.Holds → (D (m.thread c')).phase.Holds → c' = c := by
    intro c' h1 h2
    exact some.inj (((h.holds c').mp h2).symm.trans ((h.holds c).mp h1))
  -- who is bound to sleep afterwards was so before
  have hbound : ∀ {ph'} q, BoundAfter chan m D c (f m.shared) ph' q →
      (ph' = .falling → (D (m.thread c)).phase = .falling) → Bound chan m D q := by
    rintro ph' q (hs | ⟨c', -, hq, hf⟩ | ⟨hq, hf⟩) hph
    · rcases hsleep q hs with hs' | ⟨hq, hf⟩
      · exact .inl hs'
      · exact .inr ⟨c, hq, hf⟩
    · exact .inr ⟨c', hq, hf⟩
    · exact .inr ⟨c, hq, hph hf⟩
  -- a thread without the lock pays nothing, and the condition was true if it is
  have hwithout : ∀ {ph'},
      Obeys lk chan cond pre (m.cpu c).cur (k m.shared) ⟨(D (m.thread c)).held, ph'⟩ →
      ¬(D (m.thread c)).phase.Holds → ¬ph'.Holds → (ph' = .falling ∨ ph' = .asleep ↔
        (D (m.thread c)).phase = .falling ∨ (D (m.thread c)).phase = .asleep) →
      (ph' = .falling → (D (m.thread c)).phase = .falling) →
      (cond (f m.shared).data → cond m.shared.data) →
      ∃ D', WInv lk chan cond pre ((m.setShared (f m.shared)).goto (m.thread c) (k m.shared)) D' := by
    intro ph' hob hno hno' hf hph hc
    refine h.write hI hsleep hob (iff_of_false hno' hno) hf ?_ fun hcd q hb => .inr ?_
    · rintro (rfl | ⟨c', -, e⟩)
      · exact absurd trivial hno'
      · exact fun hcd => h.checked _ e (hc hcd)
    · obtain ⟨c', owed, hcrit, hq⟩ := h.owed (hc hcd) q (hbound q hb hph)
      refine ⟨c', owed, fun e => hno ?_, hcrit, hq⟩
      rw [← e, hcrit]
      trivial
  have hfree : (D (m.thread c)).phase.Holds →
      ¬((D (m.thread c)).phase = .falling ∨ (D (m.thread c)).phase = .asleep) := by
    rintro hd (e | e) <;> rw [e] at hd <;> exact hd
  -- the holder of the lock goes on with a debt
  have hwith : ∀ {owed}, (D (m.thread c)).phase.Holds →
      (cond (f m.shared).data → ∀ q, BoundAfter chan m D c (f m.shared) (.crit owed) q → q ∈ owed) →
      Obeys lk chan cond pre (m.cpu c).cur (k m.shared) ⟨(D (m.thread c)).held, .crit owed⟩ →
      ∃ D', WInv lk chan cond pre ((m.setShared (f m.shared)).goto (m.thread c) (k m.shared)) D' := by
    intro owed hd howed hob
    refine h.write hI hsleep hob (iff_of_true trivial hd)
      (iff_of_false (by rintro (e | e) <;> cases e) (hfree hd)) ?_
      fun hcd q hb => .inl ⟨owed, rfl, howed hcd q hb⟩
    rintro (e | ⟨c', hne, e⟩)
    · cases e
    · exact absurd (hone hd (by rw [e]; trivial)) hne
  cases hacts with
  | quiet hd hc => exact hwithout hob (by rw [hd]; exact id) id (by rw [hd]) nofun hc
  | fall hd hc => exact hwithout hob (by rw [hd]; exact id) id (by rw [hd]) (fun _ => hd) hc
  | mark hd hc => exact hwithout hob (by rw [hd]; exact id) id (by simp [hd]) nofun hc
  | off hd hc =>
    exact h.write hI hsleep hob (iff_of_true trivial hd)
      (iff_of_false (by rintro (e | e) <;> cases e) (hfree hd)) (fun _ => hc) fun hcd => absurd hcd hc
  | on hd hc owed howed =>
    refine hwith hd (fun _ q hb => howed q fun e => ?_) hob
    -- the thread itself is awake
    rcases hb with hs | ⟨c', hne, hq, -⟩ | ⟨-, hph⟩
    · obtain ⟨h1, h2⟩ := not_or.mp (hfree hd)
      exact h.awake c q e.symm h1 h2 ((hsleep q hs).resolve_right fun e' => h1 e'.2)
    · exact hne (hI.uniq c' c q (hI.proc_of_cur hq) (hI.proc_of_cur e.symm))
    · cases hph
  | pay owed owed' hd hc howed =>
    have hold : (D (m.thread c)).phase.Holds := by rw [hd]; trivial
    refine hwith hold (fun hcd q hb => ?_) hob
    obtain ⟨c', owed0, hph, hq⟩ := h.owed (hc hcd) q (hbound q hb nofun)
    obtain rfl : c' = c := hone hold (by rw [hph]; trivial)
    obtain rfl : owed0 = owed := Phase.crit.inj (hph.symm.trans hd)
    refine (howed q hq).resolve_right ?_
    rintro ⟨hheld, hawake⟩
    have hlock := h.held c' _ hheld
    rcases hb with hs | ⟨d, hne, hcur, hfall⟩ | ⟨-, hph⟩
    · exact hawake hs
    · -- a process that is about to sleep holds the lock under which it would be looked at
      obtain ⟨p, hp, hl⟩ := h.falling d (.inl hfall)
      obtain rfl : p = q := some.inj (hp.symm.trans hcur)
      exact hne (some.inj (hl.symm.trans hlock))
    · cases hph

/-- **`swtch`** between the scheduler of `c` and the process `p`, neither of which has the lock. -/
theorem WInv.swtch {code : Thread C → Code σ L}
    {D' : Thread C → Duty} (hold : (m.cpu c).cur = none ∨ (m.cpu c).cur = some p)
    (hcur : u.cur = none ∨ u.cur = some p) (hothers : ∀ c', c' ≠ c → (m.cpu c').proc ≠ some p)
    (hcode : ∀ t, t ≠ .scheduler c → t ≠ .proc p → code t = m.code t)
    (hD : ∀ t, t ≠ .scheduler c → t ≠ .proc p → D' t = D t)
    (hobeys : Obeys lk chan cond pre u.cur (code (threadOf c u.cur)) (D' (threadOf c u.cur)))
    (hheld : ∀ lk' ∈ (D' (threadOf c u.cur)).held, m.lock lk' = some c)
    (hph : (D (m.thread c)).phase = .out ∨ (D (m.thread c)).phase = .asleep)
    (hph' : (D' (threadOf c u.cur)).phase = .out)
    (hsleep : ∀ q, (s.proc q).SleepsOn chan → (m.shared.proc q).SleepsOn chan)
    (hawake : u.cur = some p → ¬(s.proc p).SleepsOn chan) (hdata : s.data = m.shared.data)
    (hresume : u.cur = some p → ∃ held, held ⊆ [proc p] ∧
      Obeys lk chan cond pre none (code (.scheduler c)) ⟨held, .out⟩)
    (hparked : u.cur = none → ∃ held, held ⊆ [proc p] ∧
      Obeys lk chan cond pre (some p) (code (.proc p)) ⟨held, .out⟩) :
    WInv lk chan cond pre ⟨s, m.lock, update m.cpu c u, code⟩ D' := by
  have hne : ∀ c', c' ≠ c → m.thread c' ≠ .scheduler c ∧ m.thread c' ≠ .proc p :=
    fun c' hc => threadOf_ne hc fun e => hothers c' hc (hI.proc_of_cur e)
  have hcodes := fun c' hc => hcode _ (hne c' hc).1 (hne c' hc).2
  have hDs := fun c' hc => hD _ (hne c' hc).1 (hne c' hc).2
  have hlk : m.lock lk ≠ some c := by
    intro e
    have hholds := (h.holds c).mpr e
    rcases hph with e' | e' <;> rw [e'] at hholds <;> exact hholds
  have hself : OnCpu lk chan cond pre s m.lock c u.cur (code (threadOf c u.cur))
      (D' (threadOf c u.cur)) := by
    refine ⟨hobeys, hheld, ?_, ?_, ?_, fun q hq _ _ => ?_⟩
    · rw [hph']
      exact iff_of_false id hlk
    · rw [hph']
      exact nofun
    · rw [hph']
      rintro (e | e) <;> cases e
    · rcases hcur with e | e <;> rw [e] at hq
      · cases hq
      · obtain rfl : p = q := some.inj hq
        exact hawake e
  have hcpu := each_cpu (m := m) (P := fun c' v k d => OnCpu lk chan cond pre s m.lock c' v.cur k d)
    hcodes hDs hself fun c' _ => { h.onCpu c' with
      checked := fun e => hdata ▸ h.checked c' e
      awake := fun q hq h1 h2 hs => h.awake c' q hq h1 h2 (hsleep q hs) }
  refine ⟨fun c => (hcpu c).obeys, fun c => (hcpu c).held, fun c => (hcpu c).holds,
    fun c => (hcpu c).checked, fun c => (hcpu c).falling, fun c => (hcpu c).awake, ?_, ?_, ?_⟩
  case refine_1 =>
    intro r hr
    change ∀ c', (update m.cpu c u c').cur ≠ some r at hr
    by_cases hrp : r = p
    · subst hrp
      refine hparked (hcur.resolve_right fun e => hr c ?_)
      rwa [update_self]
    · have h1 : Thread.proc r ≠ .scheduler c := nofun
      have h2 : Thread.proc (C := C) r ≠ .proc p := fun e => hrp (Thread.proc.inj e)
      simp only [hcode _ h1 h2]
      exact h.parked r (not_cur_of_update hold hrp hr)
  case refine_2 =>
    intro c' q hq
    rcases cur_update hcur hq with ⟨rfl, rfl, e⟩ | ⟨hc, hq⟩
    · exact hresume e
    · have h1 : Thread.scheduler c' ≠ .scheduler c := fun e => hc (Thread.scheduler.inj e)
      have h2 : Thread.scheduler c' ≠ .proc p := nofun
      simp only [hcode _ h1 h2]
      exact h.resume c' q hq
  case refine_3 =>
    intro hcd q hb
    have hb' : Bound chan m D q := by
      rcases hb with hs | ⟨c', hq, hf⟩
      · exact .inl (hsleep q hs)
      · refine each_cpu (P := fun _ v _ d => v.cur = some q → d.phase = .falling → Bound chan m D q) hcodes hDs
          (fun _ e => ?_) (fun c' _ hq hf => .inr ⟨c', hq, hf⟩) c' hq hf
        rw [hph'] at e
        cases e
    have hcd' : cond m.shared.data := hdata ▸ hcd
    obtain ⟨c', owed, hcrit, hq⟩ := h.owed hcd' q hb'
    have hc : c' ≠ c := by
      rintro rfl
      rcases hph with e | e <;> rw [e] at hcrit <;> cases hcrit
    refine ⟨c', owed, ?_, hq⟩
    simp only [thread, update_of_ne hc]
    exact (congrArg Duty.phase (hDs c' hc)).trans hcrit

theorem WInv.sched (hk : m.code (m.thread c) = .sched k) (hm : sched m c k = .ok m') :
    ∃ D', WInv lk chan cond pre m' D' := by
  have hob := h.obeys c
  rw [hk] at hob
  obtain ⟨hph, hob⟩ := hob
  obtain ⟨p, hcur, hlock, hsched⟩ := hI.sched_eq hk
  obtain rfl := Except.ok.inj (hsched.symm.trans hm)
  obtain ⟨held, hsub, hres⟩ := h.resume c p hcur
  have hproc := hI.proc_of_cur hcur
  have hne : Thread.scheduler c ≠ .proc p := nofun
  refine ⟨update D (.scheduler c) ⟨held, .out⟩,
    h.swtch hI (.inr hcur) (.inl rfl) (fun c' hc e => hc (hI.uniq c' c p e hproc))
      (fun t _ ht => update_of_ne ht _ _) (fun t ht _ => update_of_ne ht _ _)
      ?_ ?_ hph ?_ (fun _ hs => hs) nofun rfl nofun fun _ => ?_⟩
  · simp only [threadOf, update_self, update_of_ne hne]
    exact hres
  · simp only [threadOf, update_self]
    exact fun lk' hlk' => (hlock lk').mpr (hsub hlk')
  · simp only [threadOf, update_self]
  · rw [update_self]
    refine ⟨(D (m.thread c)).held, fun lk' hlk' => (hlock lk').mp (h.held c lk' hlk'), ?_⟩
    rw [hcur] at hob
    exact hob

theorem WInv.pick (hk : m.code (m.thread c) = .pick q k₁ k₂) (hlk : ∀ q, lk ≠ .proc q) :
    ∃ D', WInv lk chan cond pre (pick m c q k₁ k₂) D' := by
  have hob := h.obeys c
  rw [hk] at hob
  obtain ⟨hph, hob1, hob2⟩ := hob
  by_cases hq : (m.shared.proc q).state = .RUNNABLE
  case neg =>
    unfold Sched.pick
    rw [if_neg hq]
    have := h.goto hI c (u := m.cpu c) rfl hob2
    rw [setCpu, update_eq_self] at this
    exact ⟨D, this⟩
  obtain ⟨hcur, hlock, hnone, hothers⟩ := hI.pick_alone hk (by simp [hq])
  have ht : m.thread c = .scheduler c := by rw [thread, hcur]; rfl
  obtain ⟨held, hsub, hpark⟩ := h.parked q hnone
  have hne : Thread.scheduler c ≠ .proc q := (by rintro ⟨⟩)
  have hawake : ¬((m.shared.setProc q fun e =>
      { e with state := .RUNNING, forkret := false }).proc q).SleepsOn chan := by
    rw [Shared.setProc_self]
    exact fun e => by cases e.1
  -- where the thread of the process goes on
  have hkq : Obeys lk chan cond pre (some q)
      (if (m.shared.proc q).forkret then forkret q else m.code (.proc q)) ⟨held, .out⟩ := by
    split
    · rw [forkret, obeys_release, if_neg (hlk q).symm]
      exact ⟨by rintro ⟨⟩, by rintro ⟨⟩, rfl⟩
    · exact hpark
  rw [pick_eq hcur hq]
  refine ⟨update D (.proc q) ⟨held, .out⟩,
    h.swtch hI (.inl hcur) (.inr rfl) hothers
      (fun t h1 h2 => by rw [update_of_ne h2, update_of_ne h1])
      (fun t _ h2 => update_of_ne h2 _ _) ?_ ?_ (.inl hph) ?_ (fun r hs => ?_)
      (fun _ => hawake) rfl (fun _ => ?_) (by rintro ⟨⟩)⟩
  · simp only [threadOf, update_self]
    exact hkq
  · simp only [threadOf, update_self]
    exact fun lk' hlk' => (hlock lk').mpr (hsub hlk')
  · simp only [threadOf, update_self]
  · by_cases hrq : r = q
    · exact absurd (hrq ▸ hs) hawake
    · simpa only [Shared.setProc, update_of_ne hrq] using hs
  · rw [update_of_ne hne, update_self]
    refine ⟨(D (m.thread c)).held, fun lk' hlk' => (hlock lk').mp (h.held c lk' hlk'), ?_⟩
    rw [hcur] at hob1
    rw [← hph]
    exact hob1

end

/-- The scheduler keeps the rules. -/
theorem obeys_schedulerScan (hlk : ∀ q, lk ≠ .proc q) (qs : List (Fin NPROC)) :
    ∀ held, Obeys lk chan cond pre none (schedulerScan qs : Code σ L) ⟨held, .out⟩ := by
  induction qs with
  | nil => exact fun _ => rfl
  | cons q qs ih =>
    intro held
    have hunlock : ∀ held', Obeys lk chan cond pre none
        (.release (.proc q) (schedulerScan qs) : Code σ L) ⟨held', .out⟩ := by
      intro held'
      rw [obeys_release, if_neg (hlk q).symm]
      exact ⟨nofun, nofun, ih _⟩
    rw [schedulerScan, obeys_acquire, if_neg (hlk q).symm]
    exact ⟨nofun, rfl, hunlock _, hunlock _⟩

omit [DecidableEq C] in
theorem filter_ne_cons_self (h : lk' ∉ held) :
    (lk' :: held).filter (· ≠ lk') = held := by
  rw [filter_cons_of_neg (by simp)]
  exact filter_eq_self.mpr fun a ha => decide_eq_true fun e => h (e ▸ ha)

/-- `p->lock` may be given back by a thread that is not about to sleep. -/
theorem obeys_unlock (hlk : ∀ q, lk ≠ .proc q)
    (hq : proc q ∉ held) (h₁ : ph ≠ .falling) (h₂ : ph ≠ .asleep)
    (hk : Obeys lk chan cond pre self k ⟨held, ph⟩) :
    Obeys lk chan cond pre self (.release (.proc q) k) ⟨.proc q :: held, ph⟩ := by
  rw [obeys_release, if_neg (hlk q).symm]
  refine ⟨fun e => absurd e h₁, h₂, ?_⟩
  rw [filter_ne_cons_self hq]
  exact hk

/-- A write to one process that does not put it to sleep. -/
theorem sleepsOn_setProc {g : Entry → Entry}
    (hg : (g (s.proc p)).SleepsOn chan → (s.proc p).SleepsOn chan) (q : Fin NPROC)
    (h : ((s.setProc p g).proc q).SleepsOn chan) : (s.proc q).SleepsOn chan := by
  by_cases hq : q = p
  · subst hq
    rw [Shared.setProc_self] at h
    exact hg h
  · simpa only [Shared.setProc, update_of_ne hq] using h

theorem obeys_yield (hlk : ∀ q, lk ≠ .proc q) (hk : Obeys lk chan cond pre (some p) k .none) :
    Obeys lk chan cond pre (some p) (yield p k) .none := by
  rw [yield, obeys_acquire, if_neg (hlk p).symm]
  refine ⟨nofun, fun s _ => ⟨fun q hs => .inl (sleepsOn_setProc (by rintro ⟨e, -⟩; cases e) q hs), .out,
    .quiet rfl id, .inl rfl, ?_⟩⟩
  exact obeys_unlock hlk not_mem_nil nofun nofun hk

variable {K : Kernel σ L}

section

variable (h : WInv lk chan cond pre m D) (hI : Inv pre' m X) (hG : Guarded lk chan cond K pre)
  (c)

include h hI hG

theorem WInv.irq (l : L) (timer : Bool) : WInv lk chan cond pre (irq K m c l timer) D := by
  unfold Sched.irq
  cases hi : (m.cpu c).intr with
  | false => exact h
  | true =>
    -- no lock is held, so nothing is owed
    have hx := hI.interruptible hi
    have hfree : ∀ lk', m.lock lk' ≠ some c := by
      intro lk' e
      have hmem := ((hI.runs c).lock lk').mp e
      rw [hx] at hmem
      cases hmem
    have hph : (D (m.thread c)).phase = .out := by
      have hno := mt (h.holds c).mp (hfree lk)
      have hfall := mt (h.falling c) (by rintro ⟨p, -, e⟩; exact hfree _ e)
      cases e : (D (m.thread c)).phase <;> simp_all [Phase.Holds]
    have hD : D (m.thread c) = .none := by
      have hheld : (D (m.thread c)).held = [] :=
        eq_nil_iff_forall_not_mem.mpr fun lk' hlk' => hfree lk' (h.held c lk' hlk')
      rw [Duty.none, ← hheld, ← hph]
    have hob := h.obeys c
    refine h.goto hI c rfl ?_
    rw [hD] at hob ⊢
    refine hG.handler l _ _ ?_
    unfold afterIrq
    cases hp : (m.cpu c).proc with
    | none => exact hob
    | some p =>
      have hcur : (m.cpu c).cur = some p := by
        rw [(hI.sees c).proc, hx, or_none] at hp
        exact hp
      rw [hcur] at hob ⊢
      dsimp only
      split
      · exact obeys_yield hG.lock hob
      · exact hob

theorem WInv.call (l : L) (on : Bool) : ∃ D', WInv lk chan cond pre (call K m c l on) D' := by
  unfold Sched.call
  cases hcur : (m.cpu c).cur with
  | none => exact ⟨D, h⟩
  | some p =>
    cases hk : m.code (m.thread c) with
    | ret =>
      cases hl : K.entry l with
      | false => exact ⟨D, h⟩
      | true =>
        have hob := hG.body p l
        rw [hG.entry p l hl, ← hcur] at hob
        have hph := h.obeys c
        rw [hk] at hph
        have hph : (D (m.thread c)).phase = .out := hph
        simp only [if_true]
        rw [← thread_of_cur hcur]
        have := h.local_shared c hI (l := m.lock) (u := { m.cpu c with intr := on }) rfl
          (fun _ _ _ => Iff.rfl) hob nofun
          (by rw [← h.holds c, hph]; rfl) (by rintro (e | e) <;> cases e) nofun
          (fun _ _ => by simp [hph]) fun _ => ⟨nofun, fun owed e => by rw [hph] at e; cases e⟩
        exact ⟨_, this⟩
    | _ => exact ⟨D, h⟩

end

/-- **One step** keeps the invariant. -/
theorem step_winv (hG : Guarded lk chan cond K pre) (hI : Inv pre' m X)
    (h : WInv lk chan cond pre m D) (hm : step K m a = .ok m') :
    ∃ D', WInv lk chan cond pre m' D' := by
  cases a with
  | call c l on =>
    obtain rfl := Except.ok.inj hm
    exact h.call c hI hG l on
  | irq c l timer =>
    obtain rfl := Except.ok.inj hm
    exact ⟨D, h.irq c hI hG l timer⟩
  | exec c =>
    replace hm : instr K m c (m.code (m.thread c)) = .ok m' := hm
    have hob := h.obeys c
    have hstay : ∀ {k : Code σ L}, Obeys lk chan cond pre (m.cpu c).cur k (D (m.thread c)) →
        WInv lk chan cond pre (m.goto (m.thread c) k) D := by
      intro k hk
      have := h.goto hI c (u := m.cpu c) rfl hk
      rwa [setCpu, update_eq_self] at this
    cases hk : m.code (m.thread c) with
    | ret =>
      rw [hk] at hm hob
      rw [instr] at hm
      split at hm
      case isTrue hcur =>
        cases hm
        refine ⟨D, hstay ?_⟩
        replace hob : (D (m.thread c)).phase = .out := hob
        rw [hcur]
        have : Obeys lk chan cond pre none (schedulerScan (List.finRange NPROC) : Code σ L)
            ⟨(D (m.thread c)).held, .out⟩ := obeys_schedulerScan hG.lock _ _
        rw [← hob] at this
        exact this
      case isFalse =>
        cases hm
        exact ⟨D, h⟩
    | jump l =>
      rw [hk, instr] at hm
      rw [hk] at hob
      obtain ⟨p, hcur, hd⟩ := hob
      simp only [hcur] at hm
      cases hm
      refine ⟨D, hstay ?_⟩
      rw [hd, hcur]
      exact hG.body p l
    | acquire lk' k =>
      rw [hk] at hm
      exact h.acquire hI hk hm
    | release lk' k =>
      rw [hk] at hm
      exact h.release hI hk hm hG.lock
    | act f k =>
      rw [hk] at hm
      cases hm
      exact h.act hI hk
    | sched k =>
      rw [hk] at hm
      exact h.sched hI hk hm
    | intena b k | intr | idle =>
      rw [hk] at hm hob
      cases hm
      exact ⟨D, h.goto hI c rfl hob⟩
    | pick q k₁ k₂ =>
      rw [hk] at hm
      cases hm
      exact h.pick hI hk hG.lock
    | stop msg =>
      rw [hk] at hm
      cases hm

omit [DecidableEq C] in
theorem boot_winv (init : Fin NPROC) (data : σ) :
    WInv lk chan cond pre (boot init data : Machine C σ L) fun _ => .none := by
  have hawake : ∀ q, ¬((boot (C := C) (L := L) init data).shared.proc q).SleepsOn chan := by
    intro q hs
    by_cases hq : q = init
    · simp [boot, hq, Entry.SleepsOn] at hs
    · simp [boot, hq, Entry.SleepsOn] at hs
  constructor
  case obeys => exact fun c => rfl
  case held => exact fun c lk' h => by cases h
  case holds => exact fun c => ⟨by rintro ⟨⟩, by rintro ⟨⟩⟩
  case checked => exact fun c h => by cases h
  case falling => exact fun c h => by rcases h with h | h <;> cases h
  case awake => exact fun c p _ _ _ => hawake p
  case parked => exact fun p _ => ⟨[], nil_subset _, rfl⟩
  case resume => exact fun c p h => by cases h
  case owed =>
    rintro - q (hs | ⟨c, hc, -⟩)
    · exact absurd hs (hawake q)
    · cases hc

/-- **Every run** keeps the invariant. -/
theorem run_winv (hK : Disciplined K pre') (hG : Guarded lk chan cond K pre)
    (as : List (Action C L)) :
    ∀ {m m' : Machine C σ L} {X : Thread C → Ctx} {D : Thread C → Duty}, Inv pre' m X →
      WInv lk chan cond pre m D → run (step K) m as = .ok m' → ∃ D', WInv lk chan cond pre m' D' := by
  induction as with
  | nil =>
    intro m m' X D _ h hm
    obtain rfl := Except.ok.inj hm
    exact ⟨D, h⟩
  | cons a as ih =>
    intro m m' X D hI h hm
    obtain ⟨m1, h1, hm⟩ := run_cons_ok.mp hm
    obtain ⟨D', h'⟩ := step_winv hG hI h h1
    rcases step_inv hK hI a with ⟨m2, X', h2, hI'⟩ | he
    · obtain rfl : m2 = m1 := Except.ok.inj (h2.symm.trans h1)
      exact ih hI' h' hm
    · rw [h1] at he
      cases he

end Steps

/-! ## Code that keeps the rules -/

section Monitor

variable {lk : SpinLock} {chan : Chan} {cond : σ → Prop} {duty : Fin NPROC → L → Duty}

/-- `sleep` in the loop of a waiter, which has seen that the condition is false. -/
theorem obeys_sleep (hlk : ∀ q, lk ≠ .proc q)
    (hk : Obeys lk chan cond duty (some p) k ⟨[lk], .crit []⟩) :
    Obeys lk chan cond duty (some p) (sleep p chan lk k) ⟨[lk], .checked⟩ := by
  have hne := hlk p
  rw [sleep, obeys_acquire, if_neg hne.symm]
  refine ⟨by rintro ⟨⟩, ?_⟩
  rw [obeys_release, if_pos rfl]
  refine .inr ⟨rfl, ⟨p, rfl, mem_cons_self⟩, fun s _ => ⟨fun q hs => ?_, .asleep,
    .mark rfl id, .inr rfl, fun s _ => ⟨fun q hs => .inl ?_, .out, .quiet rfl id, ?_⟩⟩⟩
  · by_cases hq : q = p
    · exact .inr ⟨congrArg some hq.symm, rfl⟩
    · left
      simpa only [Shared.setProc, update_of_ne hq] using hs
  · exact sleepsOn_setProc (by rintro ⟨-, e⟩; cases e) q hs
  · rw [obeys_release, if_neg hne.symm]
    refine ⟨by rintro ⟨⟩, by rintro ⟨⟩, ?_⟩
    rw [obeys_acquire, if_pos rfl]
    refine ⟨rfl, ?_⟩
    simpa [hne.symm] using hk

/-- `wakeup` pays what is owed to everybody else, one process after the other. -/
theorem obeys_wakeup (hlk : ∀ q, lk ≠ .proc q)
    (hheld : ∀ q, proc q ∉ held)
    (hk : Obeys lk chan cond duty self k ⟨held, .crit []⟩) :
    Obeys lk chan cond duty self (wakeup self (some chan) k)
      ⟨held, .crit ((List.finRange NPROC).filter (some · ≠ self))⟩ := by
  unfold wakeup
  generalize List.finRange NPROC = qs
  induction qs with
  | nil => exact hk
  | cons q qs ih =>
    rw [wakeupScan]
    by_cases hq : some q ≠ self
    case neg =>
      rw [if_neg hq, filter_cons_of_neg (by simpa using hq)]
      exact ih
    rw [if_pos hq, obeys_acquire, if_neg (hlk q).symm, filter_cons_of_pos (by simpa using hq)]
    have hawake : ∀ e : Entry, ¬(wake (some chan) e).SleepsOn chan := by
      rintro e ⟨h1, h2⟩
      unfold wake at h1 h2
      split at h1
      case isTrue => cases h1
      case isFalse hno =>
        rw [if_neg hno] at h2
        exact hno ⟨h1, h2⟩
    refine ⟨by rintro ⟨⟩, fun s _ => ⟨fun r hs => .inl ?_, .crit (qs.filter (some · ≠ self)),
      .pay _ _ rfl id fun r hr => ?_, ?_⟩⟩
    · exact sleepsOn_setProc (fun hs => absurd hs (hawake _)) r hs
    · rcases mem_cons.mp hr with rfl | hr
      · refine .inr ⟨mem_cons_self, ?_⟩
        rw [Shared.setProc_self]
        exact hawake _
      · exact .inl hr
    · exact obeys_unlock hlk (hheld q) (by rintro ⟨⟩) (by rintro ⟨⟩) ih

theorem obeys_kill (hlk : ∀ q, lk ≠ .proc q) (p : Fin NPROC) (pid : BitVec 32)
    (qs : List (Fin NPROC)) : Obeys lk chan cond duty (some p) (kill pid qs : Code σ L) .none := by
  induction qs with
  | nil => rfl
  | cons q qs ih =>
    rw [kill, obeys_acquire, if_neg (hlk q).symm]
    refine ⟨nofun, fun s _ => ⟨fun r hs => .inl ?_, .out, .quiet rfl ?_, ?_⟩⟩
    · beta_reduce at hs
      split at hs
      · refine sleepsOn_setProc (fun hs => ?_) r hs
        obtain ⟨h1, h2⟩ := hs
        unfold killed at h1
        split at h1
        · cases h1
        · exact ⟨h1, h2⟩
      · exact hs
    · beta_reduce
      split <;> exact id
    · refine obeys_unlock hlk not_mem_nil nofun nofun ?_
      split
      · rfl
      · exact ih

end Monitor

/-- What processes do with the guarded data: wait for the condition and then change the data, or change it
and wake the others up. -/
inductive Use (σ : Type) where
  | await (take : σ → σ)
  | awaitLoop (take : σ → σ)
  | change (f : σ → σ)
  | kill (pid : BitVec 32)

section Monitor

variable (lk : SpinLock) (chan : Chan) (cond : σ → Prop) [DecidablePred cond]

/-- `acquire(lk); data = f(data); wakeup(chan); release(lk)`. -/
def change (self : Option (Fin NPROC)) (f : σ → σ) (k : Code σ (Use σ)) : Code σ (Use σ) :=
  .acquire lk <|
  .act (fun s => { s with data := f s.data }) fun _ =>
  wakeup self (some chan) <|
  .release lk k

/-- `acquire(lk); while(!cond) sleep(chan, lk); data = take(data); release(lk)`, the calls that change the
data, and `kill`. -/
def Use.body (p : Fin NPROC) : Use σ → Code σ (Use σ)
  | .await take => .acquire lk (.jump (.awaitLoop take))
  | .awaitLoop take =>
    .act (fun s => if cond s.data then { s with data := take s.data } else s) fun s =>
    if cond s.data then .release lk .ret else Sched.sleep p chan lk (.jump (.awaitLoop take))
  | .change f => Sched.change lk chan (some p) f .ret
  | .kill pid => Sched.kill pid (List.finRange NPROC)

/-- A kernel whose processes share the guarded data; an interrupt may change it too. -/
def monitor : Kernel σ (Use σ) where
  entry
    | .awaitLoop _ => false
    | _ => true
  body p l := l.body lk chan cond p
  handler l self k :=
    match l with
    | .change f => change lk chan self f k
    | _ => k

/-- What holds where a call starts or goes on. -/
def Use.pre (_ : Fin NPROC) : Use σ → Ctx
  | .awaitLoop _ => ⟨[lk], .RUNNING, none, none⟩
  | _ => Ctx.free

/-- What is owed there. -/
def Use.duty (_ : Fin NPROC) : Use σ → Duty
  | .awaitLoop _ => ⟨[lk], .crit []⟩
  | _ => .none

variable {lk chan}

theorem ok_change (hlk : ∀ q, lk ≠ .proc q) {f : σ → σ}
    (hk : Ok (Use.pre lk) self k ⟨[], .RUNNING, n, none⟩) :
    Ok (Use.pre lk) self (change lk chan self f k) ⟨[], .RUNNING, n, none⟩ := by
  refine ⟨not_mem_nil, fun s _ => ⟨_, .keep fun q => .refl _, ok_wakeup ?_ rfl ?_⟩⟩
  · exact fun q e => hlk q (mem_singleton.mp e).symm
  · refine ⟨mem_cons_self, fun q e => absurd e (hlk q), ?_⟩
    rwa [Ctx.drop_take]

theorem monitor_disciplined (hlk : ∀ q, lk ≠ .proc q) :
    Disciplined (monitor lk chan cond) (Use.pre lk) where
  entry p l hl := by
    cases l with
    | awaitLoop => cases hl
    | _ => rfl
  body p l := by
    cases l with
    | await take => exact ⟨not_mem_nil, p, rfl, rfl⟩
    | awaitLoop take =>
      refine fun s _ => ⟨_, .keep fun q => ?_, ?_⟩
      · beta_reduce
        split <;> exact .refl _
      · beta_reduce
        split
        · refine ⟨mem_singleton_self _, fun q e => absurd e (hlk q), ?_⟩
          simp [Ok, Ctx.drop, Ctx.free, Use.pre]
        · exact ok_sleep hlk ⟨p, rfl, rfl⟩
    | change f => exact ok_change hlk rfl
    | kill pid => exact ok_kill p pid _
  handler l self k n hk := by
    cases l with
    | change f => exact ok_change hlk hk
    | _ => exact hk

theorem obeys_change (hlk : ∀ q, lk ≠ .proc q) {f : σ → σ}
    (hk : Obeys lk chan cond (Use.duty lk) self k .none) :
    Obeys lk chan cond (Use.duty lk) self (change lk chan self f k) .none := by
  rw [change, obeys_acquire, if_pos rfl]
  refine ⟨rfl, fun s _ => ⟨fun q hs => .inl hs,
    .crit ((List.finRange NPROC).filter (some · ≠ self)), ?_, ?_⟩⟩
  · by_cases hc : cond s.data
    · exact .pay [] _ rfl (fun _ => hc) nofun
    · refine .on ?_ hc _ fun q hq => mem_filter.mpr ⟨mem_finRange q, by simpa using hq⟩
      trivial
  · refine obeys_wakeup hlk (fun q e => hlk q (mem_singleton.mp e).symm) ?_
    rw [obeys_release, if_pos rfl]
    refine .inl ⟨.inl rfl, ?_⟩
    simpa [Duty.none] using hk

/-- **Waiting in a loop and waking up after every change keep the rules**, whatever the condition and the
changes are. -/
theorem monitor_guarded (hlk : ∀ q, lk ≠ .proc q) :
    Guarded lk chan cond (monitor lk chan cond) (Use.duty lk) where
  lock := hlk
  entry p l hl := by
    cases l with
    | awaitLoop => cases hl
    | _ => rfl
  body p l := by
    cases l with
    | await take =>
      show Obeys lk chan cond (Use.duty lk) (some p) (.acquire lk _) _
      rw [obeys_acquire, if_pos rfl]
      exact ⟨rfl, p, rfl, rfl⟩
    | awaitLoop take =>
      intro s _
      refine ⟨fun q hs => .inl ?_, ?_⟩
      · beta_reduce at hs
        split at hs <;> exact hs
      · beta_reduce
        by_cases hc : cond s.data
        · simp only [if_pos hc]
          refine ⟨.crit [], .pay [] [] rfl (fun _ => hc) nofun, ?_⟩
          rw [obeys_release, if_pos rfl]
          exact .inl ⟨.inl rfl, rfl⟩
        · simp only [if_neg hc]
          exact ⟨.checked, .off trivial hc, obeys_sleep hlk ⟨p, rfl, rfl⟩⟩
    | change f => exact obeys_change cond hlk rfl
    | kill pid => exact obeys_kill hlk p pid _
  handler l self k hk := by
    cases l with
    | change f => exact obeys_change cond hlk hk
    | _ => exact hk

end Monitor

/-! ## No wakeup is lost -/

/-- **No lost wakeup.**  For any condition on data guarded by `lk` and any kernel whose functions keep the
lock discipline and the two rules (who waits, waits in `while(!cond) sleep(chan, lk)`; who makes the
condition true holds `lk` and calls `wakeup(chan)` before giving it back): in every state that any
interleaving reaches, if `lk` is not held, no process sleeps on `chan` with the condition true. -/
theorem no_lost_wakeup [DecidableEq C] {lk : SpinLock} {chan : Chan} {cond : σ → Prop}
    {K : Kernel σ L} {pre : Fin NPROC → L → Ctx} {duty : Fin NPROC → L → Duty}
    (hK : Disciplined K pre) (hG : Guarded lk chan cond K duty) (init : Fin NPROC) (data : σ)
    (as : List (Action C L)) (m : Machine C σ L) (hm : run (step K) (boot init data) as = .ok m)
    (hlk : m.lock lk = none) (q : Fin NPROC) :
    ¬((m.shared.proc q).state = .SLEEPING ∧ (m.shared.proc q).chan = some chan ∧
      cond m.shared.data) := by
  rintro ⟨hs, hc, hcd⟩
  obtain ⟨D, h⟩ := run_winv hK hG as (boot_inv pre init data) (boot_winv init data) hm
  exact h.not_lost hlk q ⟨hs, hc⟩ hcd

/-- One CPU runs the first process, which waits for a flag. -/
def flagRun : List (Action Unit (Use Bool)) :=
  List.replicate 5 (.exec ()) ++ [.call () (.await fun _ => false) true] ++
    List.replicate 9 (.exec ())

theorem flagRun_sleeps :
    ∃ m, run (step (monitor (.other 0) (.other 0) (· = true))) (boot firstProc false) flagRun =
        .ok m ∧
      m.lock (.other 0) = none ∧ (m.shared.proc firstProc).state = .SLEEPING ∧
      (m.shared.proc firstProc).chan = some (.other 0) := by
  have h : ((run (step (monitor (.other 0) (.other 0) (· = true))) (boot firstProc false)
      flagRun).toOption.map fun m => (m.lock (.other 0), (m.shared.proc firstProc).state,
        (m.shared.proc firstProc).chan)) = some (none, .SLEEPING, some (.other 0)) := by
    decide +kernel
  obtain ⟨m, hm, hs⟩ := ok_of_map h
  simp only [Prod.mk.injEq] at hs
  exact ⟨m, hm, hs⟩

/-- The first process waits for a flag that nobody has set, and falls asleep. -/
theorem no_lost_wakeup_flag :
    ∃ m : Machine Unit Bool (Use Bool),
      run (step (monitor (.other 0) (.other 0) (· = true))) (boot firstProc false)
        flagRun = .ok m ∧
      m.lock (.other 0) = none ∧ (m.shared.proc firstProc).state = .SLEEPING ∧
      (m.shared.proc firstProc).chan = some (.other 0) ∧
      ¬((m.shared.proc firstProc).state = .SLEEPING ∧ (m.shared.proc firstProc).chan = some (.other 0) ∧
        m.shared.data = true) := by
  have hne : ∀ q, other 0 ≠ .proc q := nofun
  obtain ⟨m, hm, hl, hs, hc⟩ := flagRun_sleeps
  exact ⟨m, hm, hl, hs, hc, no_lost_wakeup (monitor_disciplined _ hne) (monitor_guarded _ hne)
    firstProc false flagRun m hm hl firstProc⟩

end Xv6.Sched
