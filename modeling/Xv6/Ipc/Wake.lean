/-
# Xv6.Ipc.Wake — who may sleep on the two channels of a pipe.

A process that sleeps on `&pi->nread` is owed a wakeup as soon as there is a byte to read, and one that
sleeps on `&pi->nwrite` as soon as there is room.  While the lock is held the wakeup may be outstanding:
the holder is then at a point from which the source goes on to it.  There is one way out of `pipewrite`
that does not, the return of -1 in its loop; the runs in which that matters are told apart by `Careful`.
-/
import Xv6.Ipc.Fifo

namespace Xv6.Ipc

open Lib Function

variable {P : Type}

/-- A process sleeps on `&pi->nread`. -/
def Sys.ReadersSleep (s : Sys P) : Prop := ∃ q r, s.pc q = .rSleep r

/-- A process sleeps on `&pi->nwrite`. -/
def Sys.WritersSleep (s : Sys P) : Prop := ∃ q w, s.pc q = .wSleep w

/-- Nobody sleeps without a reason: readers while there is nothing to read and a writer is left, writers
while there is no room and a reader is left. -/
def Sys.SleepsSound (s : Sys P) : Prop :=
  (s.ReadersSleep → s.pipe.Empty ∧ s.pipe.writeopen = true) ∧
  (s.WritersSleep → s.pipe.Full ∧ s.pipe.readopen = true)

/-- The holder of the lock is on its way to `wakeup(&pi->nread)`. -/
def Pc.OwesRead : Pc → Prop
  | .wLoop w => w.owes = true
  | .wExit _ => True
  | _ => False

/-- The holder of the lock is on its way to `wakeup(&pi->nwrite)`. -/
def Pc.OwesWrite : Pc → Prop
  | .rCopy _ | .rExit _ => True
  | _ => False

/-- What is known of a process by where it is. -/
def Pc.Ok (pi : Pipe) (lock : Option P) (p : P) : Pc → Prop
  | .wAcquire w | .wSleep w => w.owes = false
  | .wLoop w => lock = some p ∧ (w.owes = true → ¬pi.Empty)
  | .wExit _ | .rWait _ | .rCopy _ | .rExit _ => lock = some p
  | .idle | .rAcquire _ | .rSleep _ => True

/-- The step does not leave `pipewrite` by the return in its loop with bytes stored since the last
`wakeup(&pi->nread)` while a process sleeps on that channel. -/
def Careful (s : Sys P) : Act P → Prop
  | .turn p => ∀ w, s.pc p = .wLoop w → (w.i : Int) < w.n →
      (s.pipe.readopen = false ∨ s.killed p = true) → w.owes = true → ¬s.ReadersSleep
  | _ => True

namespace Pc

variable {pi pi' : Pipe} {lock lock' : Option P} {p : P} {pc : Pc}

theorem Ok.lock_eq (h : pc.Ok pi lock p) (hc : pc.Critical) : lock = some p := by
  cases pc with
  | wLoop w => exact h.1
  | wExit | rWait | rCopy | rExit => exact h
  | _ => exact hc.elim

/-- Outside the critical points nothing depends on the pipe. -/
theorem Ok.of_not_critical (h : pc.Ok pi lock p) (hc : ¬pc.Critical) : pc.Ok pi' lock' p := by
  cases pc with
  | wLoop | wExit | rWait | rCopy | rExit => exact (hc trivial).elim
  | _ => exact h

theorem Ok.wakeRead (h : pc.Ok pi lock p) : pc.wakeRead.Ok pi lock p := by
  cases pc with
  | rSleep => trivial
  | _ => exact h

theorem Ok.wakeWrite (h : pc.Ok pi lock p) : pc.wakeWrite.Ok pi lock p := by
  cases pc <;> exact h

theorem OwesRead.critical (h : pc.OwesRead) : pc.Critical := by
  cases pc with
  | wLoop | wExit => trivial
  | _ => exact h.elim

theorem OwesWrite.critical (h : pc.OwesWrite) : pc.Critical := by
  cases pc with
  | rCopy | rExit => trivial
  | _ => exact h.elim

theorem critical_of (h : pc = pc') (hc : pc'.Critical) : pc.Critical := h ▸ hc

theorem critical_wakeRead : pc.wakeRead.Critical ↔ pc.Critical := by
  cases pc <;> exact Iff.rfl

theorem critical_wakeWrite : pc.wakeWrite.Critical ↔ pc.Critical := by
  cases pc <;> exact Iff.rfl

end Pc

/-! ## Sleepers after a change -/

namespace Sys

variable {s : Sys P} {p : P} {pc : Pc}

theorem not_readersSleep_wakeRead : ¬s.wakeRead.ReadersSleep := by
  rintro ⟨q, r, hq⟩
  have hq' : (s.pc q).wakeRead = .rSleep r := hq
  revert hq'
  cases s.pc q <;> nofun

theorem not_writersSleep_wakeWrite : ¬s.wakeWrite.WritersSleep := by
  rintro ⟨q, w, hq⟩
  have hq' : (s.pc q).wakeWrite = .wSleep w := hq
  revert hq'
  cases s.pc q <;> nofun

theorem readersSleep_wakeWrite : s.wakeWrite.ReadersSleep → s.ReadersSleep := by
  rintro ⟨q, r, hq⟩
  have hq' : (s.pc q).wakeWrite = .rSleep r := hq
  refine ⟨q, r, ?_⟩
  revert hq'
  cases s.pc q with
  | wSleep => nofun
  | _ => exact id

theorem writersSleep_wakeRead : s.wakeRead.WritersSleep → s.WritersSleep := by
  rintro ⟨q, w, hq⟩
  have hq' : (s.pc q).wakeRead = .wSleep w := hq
  refine ⟨q, w, ?_⟩
  revert hq'
  cases s.pc q with
  | rSleep => nofun
  | _ => exact id

variable [DecidableEq P]

theorem readersSleep_update {f : P → Pc} (h : ∃ q r, update f p pc q = .rSleep r)
    (hpc : ∀ r, pc ≠ .rSleep r) : ∃ q r, f q = .rSleep r := by
  obtain ⟨q, r, hq⟩ := h
  by_cases hqp : q = p
  · subst hqp
    rw [update_self] at hq
    exact absurd hq (hpc r)
  · rw [update_of_ne hqp] at hq
    exact ⟨q, r, hq⟩

theorem writersSleep_update {f : P → Pc} (h : ∃ q w, update f p pc q = .wSleep w)
    (hpc : ∀ w, pc ≠ .wSleep w) : ∃ q w, f q = .wSleep w := by
  obtain ⟨q, w, hq⟩ := h
  by_cases hqp : q = p
  · subst hqp
    rw [update_self] at hq
    exact absurd hq (hpc w)
  · rw [update_of_ne hqp] at hq
    exact ⟨q, w, hq⟩

end Sys

/-! ## Where the processes are -/

/-- Every process is where its point allows. -/
def Points (s : Sys P) : Prop := ∀ p, (s.pc p).Ok s.pipe s.lock p

namespace Points

variable {s s' : Sys P} {p q : P} {pc : Pc}

theorem lock_eq (h : Points s) (hp : (s.pc p).Critical) : s.lock = some p := (h p).lock_eq hp

theorem eq_of_critical (h : Points s) (hp : (s.pc p).Critical) (hq : (s.pc q).Critical) : q = p :=
  Option.some_inj.mp ((h.lock_eq hq).symm.trans (h.lock_eq hp))

theorem not_critical (h : Points s) (hfree : s.lock = none) : ¬(s.pc q).Critical := by
  intro hq
  have hlock := h.lock_eq hq
  rw [hfree] at hlock
  cases hlock

theorem wakeRead (h : Points s) : Points s.wakeRead := fun q => (h q).wakeRead

theorem wakeWrite (h : Points s) : Points s.wakeWrite := fun q => (h q).wakeWrite

variable [DecidableEq P]

theorem ok_update (hpc : pc.Ok pi lock p)
    (h : ∀ q ≠ p, (s.pc q).Ok pi lock q) (q : P) : (update s.pc p pc q).Ok pi lock q := by
  by_cases hq : q = p
  · subst hq
    rw [update_self]
    exact hpc
  · rw [update_of_ne hq]
    exact h q hq

theorem goto (h : Points s) (hpc : pc.Ok s.pipe s.lock p) : Points (s.goto p pc) :=
  ok_update hpc fun q _ => h q

/-- The holder of the lock changes the pipe, or gives the lock back. -/
theorem holder (h : Points s) (hp : (s.pc p).Critical)
    (hpc : pc.Ok pi lock p) : ∀ q, (update s.pc p pc q).Ok pi lock q :=
  ok_update hpc fun q hq => (h q).of_not_critical fun hcq => hq (h.eq_of_critical hp hcq)

/-- The lock is taken. -/
theorem acquire (h : Points s) (hfree : s.lock = none) (hpc : pc.Ok s.pipe (some p) p) :
    Points { s.goto p pc with lock := some p } :=
  ok_update hpc fun q _ => (h q).of_not_critical (h.not_critical hfree)

theorem turn (h : Points s) (hi : Inv s) (ht : s.turn p = .ok s') : Points s' := by
  cases Sys.turn_cases ht with
  | quit hpc | stop hpc | wait hpc => exact h.holder (Pc.critical_of hpc trivial) trivial
  | full hpc =>
    exact h.wakeRead.holder (Pc.critical_wakeRead.mpr (Pc.critical_of hpc trivial)) rfl
  | @store w ch hpc hfull hch =>
    have hc := Pc.critical_of hpc trivial
    exact h.holder hc ⟨h.lock_eq hc, fun _ => hi.not_empty_put hfull ch⟩
  | leave hpc | copy hpc | copied hpc => exact h.goto (h.lock_eq (Pc.critical_of hpc trivial))
  | wrote hpc =>
    exact h.wakeRead.holder (Pc.critical_wakeRead.mpr (Pc.critical_of hpc trivial)) trivial
  | fetch hpc hempty hpc' =>
    have hc := Pc.critical_of hpc trivial
    refine h.holder hc ?_
    rcases hpc' with rfl | rfl
    · exact h.lock_eq hc
    · exact h.lock_eq hc
  | done hpc =>
    exact h.wakeWrite.holder (Pc.critical_wakeWrite.mpr (Pc.critical_of hpc trivial)) trivial

theorem step (h : Points s) (hi : Inv s) (hs : s.step a = .ok s') : Points s' := by
  cases a with
  | pipewrite p src n =>
    simp only [Sys.step] at hs
    split at hs
    · cases hs
      exact h.goto rfl
    · cases hs
  | piperead p dst n =>
    simp only [Sys.step] at hs
    split at hs
    · cases hs
      exact h.goto trivial
    · cases hs
  | acquire p =>
    simp only [Sys.step] at hs
    split at hs
    · rename_i hfree
      split at hs
      · rename_i w hpc
        cases hs
        have hpaid := h p
        rw [hpc] at hpaid
        exact h.acquire hfree.1 ⟨rfl, fun howes => absurd (hpaid.symm.trans howes) (by rintro ⟨⟩)⟩
      · cases hs
        exact h.acquire hfree.1 rfl
      · cases hs
    · cases hs
  | turn p => exact h.turn hi hs
  | pipeclose writable =>
    simp only [Sys.step] at hs
    split at hs
    · rename_i hfree
      cases hs
      intro q
      cases writable with
      | true =>
        exact (h q).wakeRead.of_not_critical fun hc =>
          h.not_critical hfree.1 (Pc.critical_wakeRead.mp hc)
      | false =>
        exact (h q).wakeWrite.of_not_critical fun hc =>
          h.not_critical hfree.1 (Pc.critical_wakeWrite.mp hc)
    · cases hs
  | kill p =>
    cases hs
    exact h.goto (h p).wakeRead.wakeWrite

end Points

/-! ## Who sleeps -/

/-- Whoever sleeps without a reason is owed a wakeup by the holder of the lock. -/
structure Owed (s : Sys P) : Prop where
  reads : s.ReadersSleep → (s.pipe.Empty ∧ s.pipe.writeopen = true) ∨ ∃ p, (s.pc p).OwesRead
  writes : s.WritersSleep → (s.pipe.Full ∧ s.pipe.readopen = true) ∨ ∃ p, (s.pc p).OwesWrite

namespace Owed

variable {s s' : Sys P} {p : P} {pc pc' : Pc}

section

variable (h : Owed s) (hpt : Points s)

include h hpt

/-- Readers sleep soundly if the holder of the lock owes them nothing. -/
theorem reads_sound (hpc : s.pc p = pc) (hc : pc.Critical) (hp : ¬pc.OwesRead)
    (hsl : s.ReadersSleep) : s.pipe.Empty ∧ s.pipe.writeopen = true := by
  rcases h.reads hsl with hr | ⟨q, hq⟩
  · exact hr
  · obtain rfl := hpt.eq_of_critical (Pc.critical_of hpc hc) hq.critical
    exact absurd (hpc ▸ hq) hp

/-- Writers sleep soundly if the holder of the lock owes them nothing. -/
theorem writes_sound (hpc : s.pc p = pc) (hc : pc.Critical) (hp : ¬pc.OwesWrite)
    (hsl : s.WritersSleep) : s.pipe.Full ∧ s.pipe.readopen = true := by
  rcases h.writes hsl with hr | ⟨q, hq⟩
  · exact hr
  · obtain rfl := hpt.eq_of_critical (Pc.critical_of hpc hc) hq.critical
    exact absurd (hpc ▸ hq) hp

/-- When the lock is free nobody is owed a wakeup. -/
theorem sound (hfree : s.lock = none) : s.SleepsSound := by
  constructor
  · intro hsl
    rcases h.reads hsl with hr | ⟨q, hq⟩
    · exact hr
    · exact absurd hq.critical (hpt.not_critical hfree)
  · intro hsl
    rcases h.writes hsl with hr | ⟨q, hq⟩
    · exact hr
    · exact absurd hq.critical (hpt.not_critical hfree)

/-- The lock is free and stays so, or a process takes it. -/
theorem of_free (hfree : s.lock = none) (hpipe : s'.pipe = s.pipe)
    (hr : s'.ReadersSleep → s.ReadersSleep) (hw : s'.WritersSleep → s.WritersSleep) : Owed s' := by
  obtain ⟨hreads, hwrites⟩ := h.sound hpt hfree
  refine ⟨fun hsl => .inl ?_, fun hsl => .inl ?_⟩
  · rw [hpipe]
    exact hreads (hr hsl)
  · rw [hpipe]
    exact hwrites (hw hsl)

theorem pipeclose (hfree : s.lock = none) (writable : Bool) : Owed (s.pipeclose writable) := by
  obtain ⟨hreads, hwrites⟩ := h.sound hpt hfree
  cases writable with
  | true =>
    refine ⟨fun hsl => absurd hsl Sys.not_readersSleep_wakeRead, fun hsl => .inl ?_⟩
    exact hwrites (Sys.writersSleep_wakeRead hsl)
  | false =>
    refine ⟨fun hsl => .inl ?_, fun hsl => absurd hsl Sys.not_writersSleep_wakeWrite⟩
    exact hreads (Sys.readersSleep_wakeWrite hsl)

end

variable [DecidableEq P]

/-- What a process owes is still owed when it goes on to a point that owes it too. -/
theorem owes_goto {owes : Pc → Prop} (hpc : s.pc p = pc) (hp : owes pc → owes pc')
    (h : ∃ q, owes (s.pc q)) : ∃ q, owes ((s.goto p pc').pc q) := by
  obtain ⟨q, hq⟩ := h
  refine ⟨q, ?_⟩
  show owes (update s.pc p pc' q)
  by_cases hqp : q = p
  · subst hqp
    rw [update_self]
    exact hp (hpc ▸ hq)
  · rw [update_of_ne hqp]
    exact hq

/-- A process goes to a point at which it does not sleep and still owes what it owed. -/
theorem goto (h : Owed s) (hpc : s.pc p = pc) (hrs : ∀ r, pc' ≠ .rSleep r)
    (hws : ∀ w, pc' ≠ .wSleep w) (hr : pc.OwesRead → pc'.OwesRead)
    (hw : pc.OwesWrite → pc'.OwesWrite) : Owed (s.goto p pc') where
  reads hsl := (h.reads (Sys.readersSleep_update hsl hrs)).imp id (owes_goto hpc hr)
  writes hsl := (h.writes (Sys.writersSleep_update hsl hws)).imp id (owes_goto hpc hw)

theorem turn (h : Owed s) (hpt : Points s) (hcare : Careful s (.turn p)) (ht : s.turn p = .ok s') :
    Owed s' := by
  cases Sys.turn_cases ht with
  | @quit w hpc hi hquit =>
    refine ⟨fun hsl => .inl ?_, fun hsl => .inl ?_⟩
    · have hold := Sys.readersSleep_update hsl nofun
      exact h.reads_sound hpt hpc trivial (fun howes => hcare w hpc hi hquit howes hold) hold
    · exact h.writes_sound hpt hpc trivial id (Sys.writersSleep_update hsl nofun)
  | full hpc hopen hfull =>
    refine ⟨fun hsl => ?_, fun _ => .inl ⟨hfull, hopen⟩⟩
    exact absurd (Sys.readersSleep_update hsl nofun) Sys.not_readersSleep_wakeRead
  | store hpc hfull hch =>
    refine ⟨fun _ => .inr ⟨p, ?_⟩, fun hsl => absurd ?_ hfull⟩
    · show (update s.pc p _ p).OwesRead
      rw [update_self]
      rfl
    · exact (h.writes_sound hpt hpc trivial id (Sys.writersSleep_update hsl nofun)).1
  | leave hpc => exact h.goto hpc nofun nofun (fun _ => trivial) id
  | wrote hpc =>
    refine ⟨fun hsl => ?_, fun hsl => .inl ?_⟩
    · exact absurd (Sys.readersSleep_update hsl nofun) Sys.not_readersSleep_wakeRead
    · have hold := Sys.writersSleep_update hsl nofun
      exact h.writes_sound hpt hpc trivial id (Sys.writersSleep_wakeRead hold)
  | stop hpc =>
    refine ⟨fun hsl => .inl ?_, fun hsl => .inl ?_⟩
    · exact h.reads_sound hpt hpc trivial id (Sys.readersSleep_update hsl nofun)
    · exact h.writes_sound hpt hpc trivial id (Sys.writersSleep_update hsl nofun)
  | wait hpc hempty hopen =>
    refine ⟨fun _ => .inl ⟨hempty, hopen⟩, fun hsl => .inl ?_⟩
    exact h.writes_sound hpt hpc trivial id (Sys.writersSleep_update hsl nofun)
  | copy hpc | copied hpc => exact h.goto hpc nofun nofun id fun _ => trivial
  | fetch hpc hempty hpc' =>
    refine ⟨fun hsl => absurd ?_ hempty, fun _ => .inr ⟨p, ?_⟩⟩
    · refine (h.reads_sound hpt hpc trivial id (Sys.readersSleep_update hsl ?_)).1
      rcases hpc' with rfl | rfl <;> nofun
    · show (update s.pc p _ p).OwesWrite
      rw [update_self]
      rcases hpc' with rfl | rfl <;> trivial
  | done hpc =>
    refine ⟨fun hsl => .inl ?_, fun hsl => ?_⟩
    · have hold := Sys.readersSleep_update hsl nofun
      exact h.reads_sound hpt hpc trivial id (Sys.readersSleep_wakeWrite hold)
    · exact absurd (Sys.writersSleep_update hsl nofun) Sys.not_writersSleep_wakeWrite

/-- `kill` wakes the process, wherever it sleeps. -/
theorem kill (h : Owed s) (p : P) : Owed (s.kill p) := by
  have hg : Owed (s.goto p (s.pc p).wakeRead.wakeWrite) := by
    refine h.goto rfl (fun r => ?_) (fun w => ?_) ?_ ?_
    · cases s.pc p <;> nofun
    · cases s.pc p <;> nofun
    · cases s.pc p <;> exact id
    · cases s.pc p <;> exact id
  exact ⟨hg.reads, hg.writes⟩

theorem step (h : Owed s) (hpt : Points s) (hcare : Careful s a)
    (hs : s.step a = .ok s') : Owed s' := by
  cases a with
  | pipewrite p src n =>
    simp only [Sys.step] at hs
    split at hs
    · rename_i hpc
      cases hs
      have hg : Owed (s.goto p (.wAcquire ⟨s.calls, src, n, 0, false⟩)) :=
        h.goto hpc (by rintro _ ⟨⟩) (by rintro _ ⟨⟩) id id
      exact ⟨hg.reads, hg.writes⟩
    · cases hs
  | piperead p dst n =>
    simp only [Sys.step] at hs
    split at hs
    · rename_i hpc
      cases hs
      exact h.goto hpc (by rintro _ ⟨⟩) (by rintro _ ⟨⟩) id id
    · cases hs
  | acquire p =>
    simp only [Sys.step] at hs
    split at hs
    · rename_i hfree
      split at hs <;> cases hs
      all_goals
        exact h.of_free hpt hfree.1 rfl (fun hsl => Sys.readersSleep_update hsl (by rintro _ ⟨⟩))
          fun hsl => Sys.writersSleep_update hsl (by rintro _ ⟨⟩)
    · cases hs
  | turn p => exact h.turn hpt hcare hs
  | pipeclose writable =>
    simp only [Sys.step] at hs
    split at hs
    · rename_i hfree
      cases hs
      exact h.pipeclose hpt hfree.1 writable
    · cases hs
  | kill p =>
    cases hs
    exact h.kill p

end Owed

variable [DecidableEq P] {data : Fin PIPESIZE → Byte} {s : Sys P} {as : List (Act P)}

/-- Every run keeps every process where its point allows. -/
theorem run_points (h : run Sys.step (Sys.init data) as = .ok s) : Inv s ∧ Points s :=
  run_invariant (I := fun s => Inv s ∧ Points s)
    (fun _ _ _ hi hs => ⟨hi.1.step hs, hi.2.step hi.1 hs⟩) h ⟨Inv.init data, fun _ => trivial⟩

/-- A run of careful steps wakes whoever has to be woken. -/
theorem run_owed (h : run Sys.step (Sys.init data) as = .ok s)
    (hcare : ∀ pre a t, pre ++ [a] <+: as → run Sys.step (Sys.init data) pre = .ok t → Careful t a) :
    Owed s ∧ Points s ∧ Inv s := by
  refine run_invariant_of (I := fun s => Owed s ∧ Points s ∧ Inv s) ?_ h hcare ?_
  · rintro s a s' ⟨ho, hpt, hi⟩ hca hs
    exact ⟨ho.step hpt hca hs, hpt.step hi hs, hi.step hs⟩
  · refine ⟨⟨?_, ?_⟩, fun _ => trivial, Inv.init data⟩
    · rintro ⟨q, r, hq⟩
      cases hq
    · rintro ⟨q, w, hq⟩
      cases hq

/-- A step that is not careful leaves a reader asleep with a byte to read and the lock free. -/
theorem not_sound_of_not_careful (hpt : Points s) (hcare : ¬Careful s a) :
    ∃ s', s.step a = .ok s' ∧ s'.lock = none ∧ ¬s'.SleepsSound := by
  cases a with
  | turn p =>
    simp only [Careful, not_forall] at hcare
    obtain ⟨w, hpc, hi, hquit, howes, hsl⟩ := hcare
    obtain ⟨q, r, hq⟩ := not_not.mp hsl
    have hok := hpt p
    rw [hpc] at hok
    refine ⟨s.retWrite p w none, ?_, rfl, fun hsound => ?_⟩
    · show s.turn p = _
      rw [Sys.turn, hpc]
      simp only [if_pos hi, if_pos hquit]
    · refine hok.2 howes (hsound.1 ⟨q, r, ?_⟩).1
      have hqp : q ≠ p := by
        rintro rfl
        rw [hpc] at hq
        cases hq
      exact (update_of_ne hqp _ _).trans hq
  | _ => exact absurd trivial hcare

/-- **Who sleeps on a pipe.**  In every state of a run in which `pi->lock` is free, nobody sleeps on
`&pi->nread` with a byte to read or no writer left, nor on `&pi->nwrite` with room left or no reader left,
exactly if every step of the run is careful: `pipewrite` never returns -1 from its loop with bytes stored
since its last `wakeup(&pi->nread)` while a process sleeps on that channel. -/
theorem pipe_sleeps_sound_iff (data : Fin PIPESIZE → Byte) (as : List (Act P)) :
    (∀ pre s, pre <+: as → run Sys.step (Sys.init data) pre = .ok s → s.lock = none →
      s.SleepsSound) ↔
    ∀ pre a s, pre ++ [a] <+: as → run Sys.step (Sys.init data) pre = .ok s → Careful s a := by
  constructor
  · intro hsound pre a s hpre hrun
    by_contra hcare
    obtain ⟨s', hs, hfree, hnot⟩ := not_sound_of_not_careful (run_points hrun).2 hcare
    exact hnot (hsound _ s' hpre (run_append_ok hrun (run_cons_ok.mpr ⟨s', hs, rfl⟩)) hfree)
  · intro hcare pre s hpre hrun hfree
    obtain ⟨ho, hpt, -⟩ := run_owed hrun fun pre' a t hpre' => hcare pre' a t (hpre'.trans hpre)
    exact ho.sound hpt hfree

/-- A reader sleeps; a writer stores a byte and is killed before the next one. -/
def killedWriter : List (Act Bool) :=
  [.piperead false (fun _ => true) 1, .acquire false, .turn false,
    .pipewrite true (fun _ => some 7) 2, .acquire true, .turn true, .kill true, .turn true]

theorem reader_sleeps_with_data :
    ∃ s, run Sys.step (Sys.init fun _ => 0) killedWriter = .ok s ∧ s.lock = none ∧
      (∃ r, s.pc false = .rSleep r) ∧ s.pipe.nread ≠ s.pipe.nwrite :=
  ⟨_, rfl, rfl, ⟨_, rfl⟩, by decide⟩

end Xv6.Ipc
