/-
# Xv6.Ipc.Fifo — a pipe delivers bytes in the order in which they were put in.

The ring holds the bytes that were put in and not yet taken out, whether or not the counters have wrapped
around.  A call of `pipewrite` has put in the first bytes of its source, as many as its `i` says, between
those of other calls.
-/
import Xv6.Ipc.Pipe

namespace Xv6.Ipc

open Lib Function List

variable {put : List (Nat × Byte)}

/-! ## What a call has put in -/

/-- The call of `pipewrite` that a process is in. -/
def Pc.write : Pc → Option Write
  | .wAcquire w | .wLoop w | .wSleep w | .wExit w => some w
  | _ => none

/-- The bytes that a call put in. -/
def bytesOf (put : List (Nat × Byte)) (id : Nat) : List Byte := (put.filter (·.1 == id)).map Prod.snd

theorem bytesOf_append_self (put : List (Nat × Byte)) (id : Nat) (ch : Byte) :
    bytesOf (put ++ [(id, ch)]) id = bytesOf put id ++ [ch] := by
  simp [bytesOf]

theorem bytesOf_append_ne {id id' : Nat} (h : id' ≠ id) (ch : Byte) :
    bytesOf (put ++ [(id', ch)]) id = bytesOf put id := by
  simp [bytesOf, h]

theorem bytesOf_fresh {id : Nat} (h : ∀ e ∈ put, e.1 < id) : bytesOf put id = [] := by
  rw [bytesOf, map_eq_nil_iff, filter_eq_nil_iff]
  intro e he
  have := h e he
  simp
  omega

/-- A call has put in the first `i` bytes of its source. -/
def PutBy (put : List (Nat × Byte)) (w : Write) : Prop :=
  (bytesOf put w.id).map some = (List.range w.i).map w.src

/-! ## The invariant -/

section

variable {P : Type}

/-- The two calls are the same, apart from what a call owes. -/
def Write.Same (w w' : Write) : Prop := w'.id = w.id ∧ w'.src = w.src ∧ w'.i = w.i

theorem PutBy.same {w w' : Write} (h : PutBy put w) (hs : w.Same w') : PutBy put w' := by
  rw [PutBy, hs.1, hs.2.1, hs.2.2]
  exact h

structure Inv (s : Sys P) : Prop where
  ring : ∃ l, RingHolds s.pipe.data s.pipe.nread s.pipe.nwrite l ∧ s.put.map Prod.snd = s.taken ++ l
  call : ∀ p w, (s.pc p).write = some w → w.id < s.calls ∧ PutBy s.put w
  alone : ∀ p q w w', (s.pc p).write = some w → (s.pc q).write = some w' → w.id = w'.id → p = q
  ended : ∀ e ∈ s.written, e.1.id < s.calls ∧ (∀ p w, (s.pc p).write = some w → w.id ≠ e.1.id) ∧
    PutBy s.put e.1 ∧ ∀ i, e.2 = some i → i = e.1.i
  fresh : ∀ e ∈ s.put, e.1 < s.calls
  freed : s.freed = true → s.pipe.readopen = false ∧ s.pipe.writeopen = false

namespace Inv

variable {s s' : Sys P}

/-- A step that changes neither the ring nor the history, and starts no call. -/
theorem quiet (h : Inv s) (hdata : s'.pipe.data = s.pipe.data) (hnread : s'.pipe.nread = s.pipe.nread)
    (hnwrite : s'.pipe.nwrite = s.pipe.nwrite) (hput : s'.put = s.put) (htaken : s'.taken = s.taken)
    (hcalls : s'.calls = s.calls) (hwritten : s'.written = s.written)
    (hpc : ∀ p w', (s'.pc p).write = some w' → ∃ w, (s.pc p).write = some w ∧ w.Same w')
    (hfreed : s'.freed = true → s'.pipe.readopen = false ∧ s'.pipe.writeopen = false) : Inv s' where
  ring := by
    rw [hdata, hnread, hnwrite, hput, htaken]
    exact h.ring
  call p w' hw' := by
    obtain ⟨w, hw, hsame⟩ := hpc p w' hw'
    obtain ⟨hid, hby⟩ := h.call p w hw
    rw [hcalls, hput, hsame.1]
    exact ⟨hid, hby.same hsame⟩
  alone p q w w' hw hw' hid := by
    obtain ⟨u, hu, hsame⟩ := hpc p w hw
    obtain ⟨u', hu', hsame'⟩ := hpc q w' hw'
    exact h.alone p q u u' hu hu' (by rw [← hsame.1, ← hsame'.1, hid])
  ended e he := by
    rw [hwritten] at he
    obtain ⟨hid, hno, hby, hval⟩ := h.ended e he
    rw [hcalls, hput]
    refine ⟨hid, fun p w' hw' => ?_, hby, hval⟩
    obtain ⟨w, hw, hsame⟩ := hpc p w' hw'
    rw [hsame.1]
    exact hno p w hw
  fresh := by
    rw [hput, hcalls]
    exact h.fresh
  freed := hfreed

theorem lock (h : Inv s) (o : Option P) : Inv { s with lock := o } :=
  h.quiet rfl rfl rfl rfl rfl rfl rfl (fun _ w hw => ⟨w, hw, rfl, rfl, rfl⟩) h.freed

theorem wakeRead (h : Inv s) : Inv s.wakeRead := by
  refine h.quiet rfl rfl rfl rfl rfl rfl rfl (fun p w hw => ⟨w, ?_, rfl, rfl, rfl⟩) h.freed
  rw [← hw]
  show (s.pc p).write = (s.pc p).wakeRead.write
  cases s.pc p <;> rfl

theorem wakeWrite (h : Inv s) : Inv s.wakeWrite := by
  refine h.quiet rfl rfl rfl rfl rfl rfl rfl (fun p w hw => ⟨w, ?_, rfl, rfl, rfl⟩) h.freed
  rw [← hw]
  show (s.pc p).write = (s.pc p).wakeWrite.write
  cases s.pc p <;> rfl

theorem pipeclose (h : Inv s) (writable : Bool) : Inv (s.pipeclose writable) := by
  cases writable with
  | true =>
    have hw := h.wakeRead
    refine ⟨hw.ring, hw.call, hw.alone, hw.ended, hw.fresh, fun hf => ?_⟩
    simpa [Sys.pipeclose] using hf
  | false =>
    have hw := h.wakeWrite
    refine ⟨hw.ring, hw.call, hw.alone, hw.ended, hw.fresh, fun hf => ?_⟩
    simpa [Sys.pipeclose] using hf

theorem init (data : Fin PIPESIZE → Byte) : Inv (Sys.init data : Sys P) where
  ring := ⟨[], .nil data 0, rfl⟩
  call _ _ hw := nomatch hw
  alone _ _ _ _ hw := nomatch hw
  ended _ he := absurd he not_mem_nil
  fresh _ he := absurd he not_mem_nil
  freed hf := nomatch hf

theorem size_lt : PIPESIZE < 2 ^ 32 := by decide

theorem size_dvd : PIPESIZE ∣ 2 ^ 32 := ⟨2 ^ 23, by decide⟩

/-- There is room for a byte: the ring holds it behind what it held. -/
theorem ring_put (h : Inv s) (hfull : ¬s.pipe.Full) (ch : Byte) :
    ∃ l, RingHolds (s.pipe.put ch).data (s.pipe.put ch).nread (s.pipe.put ch).nwrite (l ++ [ch]) ∧
      s.put.map Prod.snd = s.taken ++ l := by
  obtain ⟨l, hl, hput⟩ := h.ring
  have hlt : l.length < PIPESIZE :=
    Nat.lt_of_le_of_ne hl.le fun he => hfull ((hl.full_iff size_lt).mpr he)
  exact ⟨l, hl.push size_dvd hlt ch, hput⟩

theorem not_empty_put (h : Inv s) (hfull : ¬s.pipe.Full) (ch : Byte) : ¬(s.pipe.put ch).Empty := by
  obtain ⟨l, hl, -⟩ := h.ring_put hfull ch
  intro hempty
  simpa using (hl.eq_iff size_lt).mp hempty

variable [DecidableEq P] {p : P} {w : Write} {pc : Pc}

/-- The writer is the process that went on, or one that stayed where it was. -/
theorem write_goto {q : P} (h : ((s.goto p pc).pc q).write = some w) :
    (q = p ∧ pc.write = some w) ∨ (q ≠ p ∧ (s.pc q).write = some w) := by
  simp only [Sys.goto] at h
  by_cases hq : q = p
  · subst hq
    rw [update_self] at h
    exact .inl ⟨rfl, h⟩
  · rw [update_of_ne hq] at h
    exact .inr ⟨hq, h⟩

section

variable (h : Inv s) (hpc : ∀ w', pc.write = some w' → ∃ w, (s.pc p).write = some w ∧ w.Same w')

include h hpc

/-- A process goes on inside its call, or leaves it without a result. -/
theorem goto : Inv (s.goto p pc) := by
  refine h.quiet rfl rfl rfl rfl rfl rfl rfl (fun q w' hw' => ?_) h.freed
  rcases write_goto hw' with ⟨rfl, hp⟩ | ⟨-, hq⟩
  · exact hpc w' hp
  · exact ⟨w', hq, rfl, rfl, rfl⟩

theorem release : Inv (s.release p pc) :=
  (h.goto hpc).lock none

end

/-- A call starts. -/
theorem start (h : Inv s) (src : Nat → Option Byte) (n : Int) :
    Inv { s.goto p (.wAcquire ⟨s.calls, src, n, 0, false⟩) with calls := s.calls + 1 } where
  ring := h.ring
  call q w hw := by
    rcases write_goto hw with ⟨rfl, hp⟩ | ⟨-, hq⟩
    · cases hp
      refine ⟨Nat.lt_succ_self _, ?_⟩
      show (bytesOf s.put s.calls).map some = []
      rw [bytesOf_fresh h.fresh]
      rfl
    · obtain ⟨hid, hby⟩ := h.call q w hq
      exact ⟨Nat.lt_succ_of_lt hid, hby⟩
  alone q q' w w' hw hw' hid := by
    rcases write_goto hw with ⟨rfl, hp⟩ | ⟨-, hq⟩ <;>
      rcases write_goto hw' with ⟨rfl, hp'⟩ | ⟨-, hq'⟩
    · rfl
    · cases hp
      exact absurd hid (h.call q' w' hq').1.ne'
    · cases hp'
      exact absurd hid (h.call q w hq).1.ne
    · exact h.alone q q' w w' hq hq' hid
  ended e he := by
    obtain ⟨hid, hno, hby, hval⟩ := h.ended e he
    refine ⟨Nat.lt_succ_of_lt hid, fun q w hw => ?_, hby, hval⟩
    rcases write_goto hw with ⟨rfl, hp⟩ | ⟨-, hq⟩
    · cases hp
      exact hid.ne'
    · exact hno q w hq
  fresh e he := Nat.lt_succ_of_lt (h.fresh e he)
  freed := h.freed

/-- A call returns -1, or the number of bytes it put in. -/
theorem retWrite (h : Inv s) (hw : (s.pc p).write = some w) {value : Option Nat}
    (hval : ∀ i, value = some i → i = w.i) : Inv (s.retWrite p w value) := by
  have hr : Inv (s.release p .idle) := h.release nofun
  refine ⟨hr.ring, hr.call, hr.alone, fun e he => ?_, hr.fresh, hr.freed⟩
  rcases mem_append.mp he with he | he
  · exact hr.ended e he
  · obtain rfl := mem_singleton.mp he
    obtain ⟨hid, hby⟩ := h.call p w hw
    refine ⟨hid, fun q w' hw' hne => ?_, hby, hval⟩
    rcases write_goto hw' with ⟨rfl, hp⟩ | ⟨hq, hold⟩
    · cases hp
    · exact hq (h.alone q p w' w hold hw hne)

/-- **Put.** A call puts in the next byte of its source. -/
theorem store (h : Inv s) (hw : (s.pc p).write = some w) (hfull : ¬s.pipe.Full) {ch : Byte}
    (hch : w.src w.i = some ch) : Inv (s.store p w ch) := by
  obtain ⟨l, hl, hput⟩ := h.ring_put hfull ch
  refine ⟨⟨l ++ [ch], hl, ?_⟩, fun q w' hw' => ?_, fun q q' u u' hu hu' hid => ?_,
    fun e he => ?_, fun e he => ?_, h.freed⟩
  · show (s.put ++ [(w.id, ch)]).map Prod.snd = s.taken ++ (l ++ [ch])
    rw [map_append, hput, append_assoc]
    rfl
  · rcases write_goto hw' with ⟨rfl, hp⟩ | ⟨hq, hold⟩
    · obtain ⟨hid, hby⟩ := h.call q w hw
      cases hp
      refine ⟨hid, ?_⟩
      show (bytesOf (s.put ++ [(w.id, ch)]) w.id).map some = (range (w.i + 1)).map w.src
      rw [bytesOf_append_self, map_append, range_succ, map_append]
      exact congrArg₂ _ hby (by simp [hch])
    · obtain ⟨hid, hby⟩ := h.call q w' hold
      refine ⟨hid, ?_⟩
      show (bytesOf (s.put ++ [(w.id, ch)]) w'.id).map some = _
      rw [bytesOf_append_ne fun he => hq (h.alone q p w' w hold hw he.symm)]
      exact hby
  · rcases write_goto hu with ⟨rfl, hp⟩ | ⟨-, hq⟩ <;>
      rcases write_goto hu' with ⟨rfl, hp'⟩ | ⟨-, hq'⟩
    · rfl
    · cases hp
      exact h.alone q q' w u' hw hq' hid
    · cases hp'
      exact h.alone q q' u w hq hw hid
    · exact h.alone q q' u u' hq hq' hid
  · obtain ⟨hid, hno, hby, hval⟩ := h.ended e he
    have hne : w.id ≠ e.1.id := hno p w hw
    refine ⟨hid, fun q w' hw' => ?_, ?_, hval⟩
    · rcases write_goto hw' with ⟨rfl, hp⟩ | ⟨-, hq⟩
      · cases hp
        exact hne
      · exact hno q w' hq
    · show (bytesOf (s.put ++ [(w.id, ch)]) e.1.id).map some = _
      rw [bytesOf_append_ne hne]
      exact hby
  · rcases mem_append.mp he with he | he
    · exact h.fresh e he
    · obtain rfl := mem_singleton.mp he
      exact (h.call p w hw).1

/-- **Take.** The byte taken out is the first one that is in the ring. -/
theorem fetch (h : Inv s) (hne : ¬s.pipe.Empty)
    (hpc : ∀ w', pc.write = some w' → ∃ w, (s.pc p).write = some w ∧ w.Same w') :
    Inv (s.fetch p pc) := by
  have hg : Inv (s.goto p pc) := h.goto hpc
  obtain ⟨l, hl, hput⟩ := h.ring
  refine ⟨?_, hg.call, hg.alone, hg.ended, hg.fresh, hg.freed⟩
  cases l with
  | nil => exact absurd ((hl.eq_iff size_lt).mpr rfl) hne
  | cons x l =>
    obtain ⟨hget, hrest⟩ := hl.pop
    refine ⟨l, hrest, ?_⟩
    show s.put.map Prod.snd = s.taken ++ [s.pipe.first] ++ l
    rw [hput, Pipe.first, hget, append_assoc, singleton_append]

theorem retRead (h : Inv s) (r : Read) (value : Option Nat) : Inv (s.retRead p r value) := by
  have hr : Inv (s.release p .idle) := h.release nofun
  exact ⟨hr.ring, hr.call, hr.alone, hr.ended, hr.fresh, hr.freed⟩

theorem kill (h : Inv s) (p : P) : Inv (s.kill p) := by
  have hg : Inv (s.goto p (s.pc p).wakeRead.wakeWrite) := by
    refine h.goto fun w' hw' => ⟨w', ?_, rfl, rfl, rfl⟩
    rw [← hw']
    cases s.pc p <;> rfl
  exact ⟨hg.ring, hg.call, hg.alone, hg.ended, hg.fresh, hg.freed⟩

/-- One turn of the holder of the lock. -/
theorem turn (h : Inv s) (ht : s.turn p = .ok s') : Inv s' := by
  cases Sys.turn_cases ht with
  | quit hpc => exact h.retWrite (congrArg Pc.write hpc) nofun
  | @full w hpc =>
    refine h.wakeRead.release fun w' hw' => ⟨w, ?_, ?_⟩
    · show (s.pc p).wakeRead.write = some w
      rw [hpc]
      rfl
    · cases hw'
      exact ⟨rfl, rfl, rfl⟩
  | store hpc hfull hch => exact h.store (congrArg Pc.write hpc) hfull hch
  | leave hpc => exact h.goto fun w' hw' => ⟨w', (congrArg Pc.write hpc).trans hw', rfl, rfl, rfl⟩
  | @wrote w hpc =>
    refine h.wakeRead.retWrite ?_ fun i hi => (Option.some_inj.mp hi).symm
    show (s.pc p).wakeRead.write = some w
    rw [hpc]
    rfl
  | stop => exact h.retRead _ none
  | wait => exact h.release nofun
  | copy | copied => exact h.goto nofun
  | fetch hpc hempty hpc' =>
    refine h.fetch hempty fun w' hw' => ?_
    rcases hpc' with rfl | rfl
    · cases hw'
    · cases hw'
  | done => exact h.wakeWrite.retRead _ _

theorem step {a : Act P} (h : Inv s) (hs : s.step a = .ok s') : Inv s' := by
  cases a with
  | pipewrite p src n =>
    simp only [Sys.step] at hs
    split at hs
    · cases hs
      exact h.start src n
    · cases hs
  | piperead p dst n =>
    simp only [Sys.step] at hs
    split at hs
    · cases hs
      exact h.goto nofun
    · cases hs
  | acquire p =>
    simp only [Sys.step] at hs
    split at hs
    · split at hs
      · rename_i w hpc
        cases hs
        refine (h.goto fun w' hw' => ⟨w', ?_, rfl, rfl, rfl⟩).lock _
        rw [hpc]
        exact hw'
      · rename_i r hpc
        cases hs
        have hg : Inv (s.goto p (.rWait r)) := h.goto nofun
        exact hg.lock _
      · cases hs
    · cases hs
  | turn p => exact h.turn hs
  | pipeclose writable =>
    simp only [Sys.step] at hs
    split at hs
    · cases hs
      exact h.pipeclose writable
    · cases hs
  | kill p =>
    cases hs
    exact h.kill p

end Inv

/-- Every run keeps the invariant. -/
theorem run_inv [DecidableEq P] {data : Fin PIPESIZE → Byte} {s : Sys P} {as : List (Act P)}
    (h : run Sys.step (Sys.init data) as = .ok s) : Inv s :=
  run_invariant (I := Inv) (fun _ _ _ hi hs => hi.step hs) h (Inv.init data)

/-- **Pipes are FIFO.**  After any interleaving, over runs of any length: the distance of the
counters is at most `PIPESIZE`; every byte that was put in and not yet taken out is still in its slot;
the bytes taken out are a first part of the bytes put in; a `pipewrite` that returned `i` put in exactly
the first `i` bytes of its source, in order; and the pipe is not freed while an end is open. -/
theorem pipe_fifo [DecidableEq P] {data : Fin PIPESIZE → Byte} {s : Sys P} {as : List (Act P)}
    (h : run Sys.step (Sys.init data) as = .ok s) :
    (s.pipe.nwrite - s.pipe.nread).toNat ≤ PIPESIZE ∧
    RingHolds s.pipe.data s.pipe.nread s.pipe.nwrite ((s.put.map Prod.snd).drop s.taken.length) ∧
    s.taken <+: s.put.map Prod.snd ∧
    (∀ w i, (w, some i) ∈ s.written →
      (bytesOf s.put w.id).map some = (List.range i).map w.src) ∧
    (s.pipe.readopen = true ∨ s.pipe.writeopen = true → s.freed = false) := by
  have hi := run_inv h
  obtain ⟨l, hl, hput⟩ := hi.ring
  refine ⟨?_, ?_, ⟨l, hput.symm⟩, fun w i hw => ?_, fun hopen => ?_⟩
  · rw [hl.len Inv.size_lt]
    exact hl.le
  · rw [hput, drop_left]
    exact hl
  · obtain ⟨-, -, hby, hval⟩ := hi.ended _ hw
    rw [hval i rfl]
    exact hby
  · by_contra hf
    obtain ⟨h1, h2⟩ := hi.freed (Bool.eq_true_of_not_eq_false hf)
    rcases hopen with ho | ho
    · rw [h1] at ho
      cases ho
    · rw [h2] at ho
      cases ho

end

/-- One process writes three bytes, another reads two of them, and the end for writing is closed. -/
def twoOfThree : List (Act Bool) :=
  [.pipewrite true (fun i => some (i + 7)) 3, .acquire true, .turn true, .turn true,
    .turn true, .turn true, .turn true, .piperead false (fun _ => true) 2, .acquire false,
    .turn false, .turn false, .turn false, .turn false, .turn false, .pipeclose true]

theorem pipe_fifo_two_of_three :
    ∃ s, run Sys.step (Sys.init fun _ => 0) twoOfThree = .ok s ∧ s.taken = [7, 8] ∧
      s.taken <+: s.put.map Prod.snd ∧ s.freed = false := by
  have hok : ((run Sys.step (Sys.init fun _ => 0) twoOfThree).toOption.map fun s =>
    (s.taken, s.pipe.readopen)) = some ([7, 8], true) := by decide +kernel
  obtain ⟨s, hc, hs⟩ := ok_of_map hok
  obtain ⟨htaken, hopen⟩ := Prod.mk.inj hs
  obtain ⟨-, -, hfst, -, hfreed⟩ := pipe_fifo hc
  exact ⟨s, hc, htaken, hfst, hfreed (.inl hopen)⟩

end Xv6.Ipc
