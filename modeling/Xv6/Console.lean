/-
# Xv6.Console — the line discipline of the console (`kernel/console.c`).

Input goes through one ring of `INPUT_BUF_SIZE` bytes with three indices: bytes between `r` and `w` are
there to be read, bytes between `w` and `e` can still be edited.  `consoleintr` is one critical section of
`cons.lock`; `consoleread` gives the lock back while it waits, so calls of several processes interleave.
One turn of its loop is one step here.

The abstract console is a queue of committed bytes and an edit line.  The two take the same steps and
return the same bytes.
-/
import Xv6.Lib.Bytes
import Xv6.Lib.Ring
import Xv6.Lib.Trace

namespace Xv6.Console

open Lib Function List

/-! ## The driver -/

def INPUT_BUF_SIZE : Nat := 128

instance : NeZero INPUT_BUF_SIZE := ⟨by decide⟩

/-- `C('D')`, end of file. -/
def ctrlD : Byte := 0x04
/-- `C('H')`, backspace. -/
def ctrlH : Byte := 0x08
/-- `C('P')`, print the process list. -/
def ctrlP : Byte := 0x10
/-- `C('U')`, kill line. -/
def ctrlU : Byte := 0x15
/-- The delete key. -/
def del : Byte := 0x7f
def newline : Byte := 0x0a
def carriageReturn : Byte := 0x0d

/-- `struct cons`, less its lock. -/
structure Cons where
  buf : Fin INPUT_BUF_SIZE → Byte
  r : BitVec 32
  w : BitVec 32
  e : BitVec 32

/-- The loop of `C('U')`.  It turns at most `e - w` times. -/
def killLine : (fuel : Nat) → Cons → Cons
  | 0, s => s
  | fuel + 1, s =>
    if s.e ≠ s.w ∧ s.buf (cell _ (s.e - 1)) ≠ newline then killLine fuel { s with e := s.e - 1 } else s

/-- The default case of `consoleintr`, for a byte that is stored. -/
def store (c : Byte) (s : Cons) : Cons :=
  let s := { s with buf := update s.buf (cell _ s.e) c, e := s.e + 1 }
  if c = newline ∨ c = ctrlD ∨ s.e - s.r = BitVec.ofNat 32 INPUT_BUF_SIZE then { s with w := s.e } else s

/-- The console input interrupt handler. -/
def consoleintr (c : Byte) (s : Cons) : Cons :=
  if c = ctrlP then s
  else if c = ctrlU then killLine (s.e - s.w).toNat s
  else if c = ctrlH ∨ c = del then
    if s.e ≠ s.w then { s with e := s.e - 1 } else s
  else if c ≠ 0 ∧ (s.e - s.r).toNat < INPUT_BUF_SIZE then
    store (if c = carriageReturn then newline else c) s
  else
    s

/-- A call of `consoleread` in progress: what was asked for, what is left, and the bytes copied out. -/
structure Call where
  target : Int
  n : Int
  got : List Byte

/-- What a call returned (`none` is -1), with the bytes it copied out. -/
structure Ret (P : Type) where
  proc : P
  value : Option Int
  bytes : List Byte

/-- The driver, the calls in progress, and what was returned so far. -/
structure Sys (P : Type) where
  cons : Cons
  call : P → Option Call
  log : List (Ret P)

/-- What can happen. -/
inductive Act (P : Type) where
  /-- An input character arrives. -/
  | intr (c : Byte)
  /-- A process calls `consoleread`. -/
  | read (p : P) (n : Int)
  /-- One turn of the loop of `consoleread`. -/
  | turn (p : P)
  /-- A process that waits in `consoleread` finds that it was killed. -/
  | killed (p : P)

section

variable {P : Type} [DecidableEq P]

/-- The call of `p` goes on. -/
def Sys.goOn (s : Sys P) (p : P) (cons : Cons) (q : Call) : Sys P :=
  { s with cons := cons, call := update s.call p (some q) }

/-- The call of `p` returns. -/
def Sys.ret (s : Sys P) (p : P) (cons : Cons) (value : Option Int) (bytes : List Byte) : Sys P :=
  { cons := cons, call := update s.call p none, log := s.log ++ [⟨p, value, bytes⟩] }

/-- One turn of the loop of `consoleread`; refused while the call has to wait. -/
def turn (s : Sys P) (p : P) (q : Call) : Except Unit (Sys P) :=
  if q.n > 0 then
    if s.cons.r = s.cons.w then .error ()
    else
      let c := s.cons.buf (cell _ s.cons.r)
      let cons := { s.cons with r := s.cons.r + 1 }
      if c = ctrlD then
        let cons := if q.n < q.target then { cons with r := cons.r - 1 } else cons
        .ok (s.ret p cons (some (q.target - q.n)) q.got)
      else
        let q := { q with n := q.n - 1, got := q.got ++ [c] }
        if c = newline then .ok (s.ret p cons (some (q.target - q.n)) q.got) else .ok (s.goOn p cons q)
  else
    .ok (s.ret p s.cons (some (q.target - q.n)) q.got)

def step (s : Sys P) : Act P → Except Unit (Sys P)
  | .intr c => .ok { s with cons := consoleintr c s.cons }
  | .read p n =>
    match s.call p with
    | none => .ok (s.goOn p s.cons ⟨n, n, []⟩)
    | some _ => .error ()
  | .turn p =>
    match s.call p with
    | none => .error ()
    | some q => turn s p q
  | .killed p =>
    match s.call p with
    | none => .error ()
    | some q => if q.n > 0 ∧ s.cons.r = s.cons.w then .ok (s.ret p s.cons none q.got) else .error ()

/-- Boot: the indices are zero and no call is in progress. -/
def init (P : Type) (buf : Fin INPUT_BUF_SIZE → Byte) : Sys P := ⟨⟨buf, 0, 0, 0⟩, fun _ => none, []⟩

/-! ## The abstract console -/

/-- A queue of committed bytes and an edit line, with the history of both ends of the queue. -/
structure Abs where
  queue : List Byte
  line : List Byte
  /-- All bytes that were committed. -/
  committed : List Byte
  /-- All bytes that left the queue. -/
  taken : List Byte

/-- The edit line joins the queue. -/
def Abs.commit (a : Abs) : Abs :=
  { a with queue := a.queue ++ a.line, line := [], committed := a.committed ++ a.line }

/-- A byte is typed. -/
def Abs.type (c : Byte) (a : Abs) : Abs :=
  let c := if c = carriageReturn then newline else c
  if c = ctrlU then { a with line := [] }
  else if c = ctrlH ∨ c = del then { a with line := a.line.dropLast }
  else if c = 0 ∨ c = ctrlP ∨ a.queue.length + a.line.length ≥ INPUT_BUF_SIZE then a
  else
    let a := { a with line := a.line ++ [c] }
    if c = newline ∨ c = ctrlD ∨ a.queue.length + a.line.length = INPUT_BUF_SIZE then a.commit else a

/-- The first byte of the queue leaves it. -/
def Abs.take (a : Abs) (c : Byte) (rest : List Byte) : Abs :=
  { a with queue := rest, taken := a.taken ++ [c] }

/-- The abstract console, the reads in progress (what was asked for and what was delivered), and what was
returned so far. -/
structure AbsSys (P : Type) where
  abs : Abs
  read : P → Option (Int × List Byte)
  log : List (Ret P)

/-- The read of `p` goes on. -/
def AbsSys.goOn (s : AbsSys P) (p : P) (abs : Abs) (n : Int) (got : List Byte) : AbsSys P :=
  { s with abs := abs, read := update s.read p (some (n, got)) }

/-- The read of `p` ends. -/
def AbsSys.ret (s : AbsSys P) (p : P) (abs : Abs) (value : Option Int) (bytes : List Byte) : AbsSys P :=
  { abs := abs, read := update s.read p none, log := s.log ++ [⟨p, value, bytes⟩] }

/-- A read takes one more byte, or ends: after `n` bytes, after a newline, or before a control-D, which
it consumes if it delivered nothing. -/
def AbsSys.deliver (s : AbsSys P) (p : P) (n : Int) (got : List Byte) : Except Unit (AbsSys P) :=
  if (got.length : Int) < n then
    match s.abs.queue with
    | [] => .error ()
    | c :: rest =>
      if c = ctrlD then
        .ok (s.ret p (if got = [] then s.abs.take c rest else s.abs) (some got.length) got)
      else if c = newline then
        .ok (s.ret p (s.abs.take c rest) (some (got.length + 1)) (got ++ [c]))
      else
        .ok (s.goOn p (s.abs.take c rest) n (got ++ [c]))
  else
    .ok (s.ret p s.abs (some got.length) got)

def absStep (s : AbsSys P) : Act P → Except Unit (AbsSys P)
  | .intr c => .ok { s with abs := s.abs.type c }
  | .read p n =>
    match s.read p with
    | none => .ok (s.goOn p s.abs n [])
    | some _ => .error ()
  | .turn p =>
    match s.read p with
    | none => .error ()
    | some (n, got) => s.deliver p n got
  | .killed p =>
    match s.read p with
    | none => .error ()
    | some (n, got) =>
      if (got.length : Int) < n ∧ s.abs.queue = [] then .ok (s.ret p s.abs none got) else .error ()

def absInit (P : Type) : AbsSys P := ⟨⟨[], [], [], []⟩, fun _ => none, []⟩

end

/-! ## The two agree on the input -/

/-- The driver stands for the abstract console. -/
structure Stands (s : Cons) (a : Abs) : Prop where
  ring : RingHolds s.buf s.r s.e (a.queue ++ a.line)
  write : s.w = s.r + BitVec.ofNat 32 a.queue.length
  line : ∀ c ∈ a.line, c ≠ newline
  history : a.committed = a.taken ++ a.queue

theorem size_lt : INPUT_BUF_SIZE < 2 ^ 32 := by decide

theorem size_dvd : INPUT_BUF_SIZE ∣ 2 ^ 32 := ⟨2 ^ 25, by decide⟩

namespace Stands

variable {s : Cons} {a : Abs} {c : Byte}

section

variable (h : Stands s a)

include h

theorem queue : RingHolds s.buf s.r s.w a.queue := h.write ▸ h.ring.append_left

theorem edit : RingHolds s.buf s.w s.e a.line := h.write ▸ h.ring.append_right

/-- Nothing to be read. -/
theorem read_eq_iff : s.r = s.w ↔ a.queue = [] := h.queue.eq_iff size_lt

/-- Nothing to be edited. -/
theorem edit_eq_iff : s.e = s.w ↔ a.line = [] :=
  eq_comm.trans (h.edit.eq_iff size_lt)

/-- The indices are in order. -/
theorem order : (s.w - s.r).toNat ≤ (s.e - s.r).toNat ∧ (s.e - s.r).toNat ≤ INPUT_BUF_SIZE := by
  have hle := h.ring.le
  rw [h.queue.len size_lt, h.ring.len size_lt, length_append]
  rw [length_append] at hle
  exact ⟨Nat.le_add_right _ _, hle⟩

/-- The last byte of the line is dropped. -/
theorem backspace (hl : a.line = l ++ [c]) :
    s.buf (cell _ (s.e - 1)) = c ∧ Stands { s with e := s.e - 1 } { a with line := l } := by
  have hring := h.ring
  rw [hl, ← append_assoc] at hring
  obtain ⟨hget, hrest⟩ := hring.dropLast
  refine ⟨hget, hrest, h.write, fun c hc => h.line c ?_, h.history⟩
  rw [hl]
  exact mem_append_left _ hc

/-- The loop of `C('U')` empties the line: there is no newline in it to stop at. -/
theorem killLine (hl : a.line = l) :
    Stands (killLine l.length s) { a with line := [] } := by
  induction l using List.reverseRecOn generalizing s a with
  | nil =>
    obtain ⟨queue, line, committed, taken⟩ := a
    cases hl
    exact h
  | append_singleton l c ih =>
    obtain ⟨hget, hrest⟩ := h.backspace hl
    have hne : s.e ≠ s.w := fun he => by
      rw [h.edit_eq_iff.mp he] at hl
      simp at hl
    have hc : c ≠ newline := h.line c (by rw [hl]; simp)
    rw [length_append, length_singleton, Console.killLine, hget, if_pos ⟨hne, hc⟩]
    exact ih (a := { a with line := l }) hrest rfl

/-- A byte is stored. -/
theorem store (hroom : a.queue.length + a.line.length < INPUT_BUF_SIZE) :
    Stands (store c s) (
      let a := { a with line := a.line ++ [c] }
      if c = newline ∨ c = ctrlD ∨ a.queue.length + a.line.length = INPUT_BUF_SIZE then a.commit
      else a) := by
  have hring := h.ring.push size_dvd (by rw [length_append]; exact hroom) c
  rw [append_assoc] at hring
  have hfull := hring.sub_eq_iff size_lt
  rw [length_append] at hfull
  rw [Console.store]
  by_cases hc : c = newline ∨ c = ctrlD ∨
      a.queue.length + (a.line ++ [c]).length = INPUT_BUF_SIZE
  · rw [if_pos hc, if_pos (by rwa [hfull])]
    refine ⟨?_, hring.last, fun _ hx => absurd hx not_mem_nil, ?_⟩
    · simpa [Abs.commit] using hring
    · simp only [Abs.commit, h.history, append_assoc]
  · rw [if_neg hc, if_neg (by rwa [hfull])]
    refine ⟨hring, h.write, fun x hx => ?_, h.history⟩
    rcases mem_append.mp hx with hx | hx
    · exact h.line x hx
    · rw [mem_singleton.mp hx]
      exact fun he => hc (.inl he)

/-- The first byte of the queue is taken. -/
theorem take (hq : a.queue = c :: rest) :
    s.buf (cell _ s.r) = c ∧ Stands { s with r := s.r + 1 } (a.take c rest) := by
  have hring := h.ring
  have hw := h.write
  have hhist := h.history
  rw [hq] at hring hw hhist
  obtain ⟨hget, hrest⟩ := hring.pop
  refine ⟨hget, hrest, ?_, h.line, ?_⟩
  · rw [hw, length_cons, BitVec.ofNat_add, BitVec.add_comm (BitVec.ofNat 32 rest.length),
      ← BitVec.add_assoc]
    rfl
  · simp only [Abs.take, hhist, append_assoc, singleton_append]

/-- **The interrupt handler** does what typing a byte does. -/
theorem consoleintr (c : Byte) : Stands (consoleintr c s) (a.type c) := by
  have hroom : (s.e - s.r).toNat = a.queue.length + a.line.length := by
    rw [h.ring.len size_lt, length_append]
  rw [Console.consoleintr, Abs.type, hroom]
  by_cases hP : c = ctrlP
  · subst hP
    exact h
  rw [if_neg hP]
  by_cases hU : c = ctrlU
  · subst hU
    rw [if_pos rfl, h.edit.len size_lt]
    exact h.killLine rfl
  rw [if_neg hU]
  by_cases hH : c = ctrlH ∨ c = del
  · have hcr : c ≠ carriageReturn := by
      rcases hH with rfl | rfl <;> decide
    simp only [if_pos hH, if_neg hcr, if_neg hU]
    rcases eq_nil_or_concat a.line with hnil | ⟨l, x, hl⟩
    · rw [if_neg (not_not.mpr (h.edit_eq_iff.mpr hnil)), hnil]
      obtain ⟨queue, line, committed, taken⟩ := a
      cases hnil
      exact h
    · rw [concat_eq_append] at hl
      have hne : s.e ≠ s.w := fun he => by
        rw [h.edit_eq_iff.mp he] at hl
        simp at hl
      rw [if_pos hne, hl, dropLast_concat]
      exact (h.backspace hl).2
  rw [if_neg hH]
  -- a carriage return is stored as a newline, every other byte as it is
  have hstored : ∃ d, (if c = carriageReturn then newline else c) = d ∧ d ≠ ctrlU ∧
      ¬(d = ctrlH ∨ d = del) ∧ d ≠ ctrlP ∧ (d = 0 ↔ c = 0) := by
    by_cases hcr : c = carriageReturn
    · subst hcr
      exact ⟨newline, if_pos rfl, by decide, by decide, by decide, by decide⟩
    · exact ⟨c, if_neg hcr, hU, hH, hP, Iff.rfl⟩
  obtain ⟨d, hd, hdU, hdH, hdP, hd0⟩ := hstored
  simp only [hd, if_neg hdU, if_neg hdH]
  by_cases hin : c ≠ 0 ∧ a.queue.length + a.line.length < INPUT_BUF_SIZE
  · rw [if_pos hin, if_neg]
    · exact h.store hin.2
    · rintro (h0 | h0 | h0)
      · exact hin.1 (hd0.mp h0)
      · exact hdP h0
      · omega
  · rw [if_neg hin, if_pos]
    · exact h
    · by_cases h0 : c = 0
      · exact .inl (hd0.mpr h0)
      · refine .inr (.inr ?_)
        by_contra hlt
        exact hin ⟨h0, by omega⟩

end

end Stands

/-! ## The two agree on every run -/

section

variable {P : Type} [DecidableEq P]

/-- The call of the driver for a read of the abstract console. -/
def Call.ofRead (r : Int × List Byte) : Call := ⟨r.1, r.1 - r.2.length, r.2⟩

/-- The system stands for the abstract one. -/
structure Sim (s : Sys P) (t : AbsSys P) : Prop where
  stands : Stands s.cons t.abs
  call : ∀ p, s.call p = (t.read p).map Call.ofRead
  log : s.log = t.log

namespace Sim

variable {s : Sys P} {t : AbsSys P} {cons : Cons} {abs : Abs}

theorem goOn (h : Sim s t) (hs : Stands cons abs) (p : P) (n : Int) (got : List Byte) :
    Sim (s.goOn p cons (.ofRead (n, got))) (t.goOn p abs n got) := by
  refine ⟨hs, fun x => ?_, h.log⟩
  by_cases hx : x = p
  · subst hx
    simp [Sys.goOn, AbsSys.goOn]
  · simp [Sys.goOn, AbsSys.goOn, hx, h.call x]

theorem ret (h : Sim s t) (hs : Stands cons abs) (p : P) (value : Option Int) (bytes : List Byte) :
    Sim (s.ret p cons value bytes) (t.ret p abs value bytes) := by
  refine ⟨hs, fun x => ?_, ?_⟩
  · by_cases hx : x = p
    · subst hx
      simp [Sys.ret, AbsSys.ret]
    · simp [Sys.ret, AbsSys.ret, hx, h.call x]
  · simp [Sys.ret, AbsSys.ret, h.log]

/-- **One turn** of `consoleread` delivers what the abstract read delivers. -/
theorem turn (h : Sim s t) (p : P) (n : Int) (got : List Byte) :
    Agree Sim (turn s p (.ofRead (n, got))) (t.deliver p n got) := by
  rw [Console.turn, AbsSys.deliver, Call.ofRead]
  have hval : n - (n - (got.length : Int)) = got.length := by omega
  by_cases hn : (got.length : Int) < n
  · rw [if_pos (show n - (got.length : Int) > 0 by omega), if_pos hn]
    cases hq : t.abs.queue with
    | nil =>
      rw [if_pos (h.stands.read_eq_iff.mpr hq)]
      trivial
    | cons c rest =>
      obtain ⟨hget, htake⟩ := h.stands.take hq
      have hne : s.cons.r ≠ s.cons.w := fun he => by
        rw [h.stands.read_eq_iff.mp he] at hq
        cases hq
      rw [if_neg hne, hget]
      by_cases hD : c = ctrlD
      · simp only [if_pos hD, hval]
        by_cases hg : got = []
        · subst hg
          rw [if_neg (by simp), if_pos rfl]
          exact h.ret htake ..
        · have hpos : 0 < got.length := length_pos_iff.mpr hg
          rw [if_pos (by omega), if_neg hg]
          -- the control-D goes back
          have hback : s.cons.r + 1 - 1 = s.cons.r := BitVec.add_sub_cancel ..
          rw [hback]
          exact h.ret h.stands ..
      · simp only [if_neg hD]
        by_cases hnl : c = newline
        · rw [if_pos hnl, if_pos hnl,
            show n - (n - (got.length : Int) - 1) = (got.length : Int) + 1 by omega]
          exact h.ret htake ..
        · have hcall : (⟨n, n - (got.length : Int) - 1, got ++ [c]⟩ : Call) =
              .ofRead (n, got ++ [c]) := by
            rw [Call.ofRead, length_append, length_singleton]
            simp only [Call.mk.injEq, true_and, and_true]
            omega
          rw [if_neg hnl, if_neg hnl, hcall]
          exact h.goOn htake ..
  · rw [if_neg (show ¬n - (got.length : Int) > 0 by omega), if_neg hn, hval]
    exact h.ret h.stands ..

theorem step (h : Sim s t) (a : Act P) : Agree Sim (step s a) (absStep t a) := by
  cases a with
  | intr c => exact ⟨h.stands.consoleintr c, h.call, h.log⟩
  | read p n =>
    rw [Console.step, absStep, h.call p]
    cases t.read p with
    | none =>
      have hcall : (⟨n, n, []⟩ : Call) = .ofRead (n, []) := by simp [Call.ofRead]
      rw [hcall]
      exact h.goOn h.stands p n []
    | some _ => trivial
  | turn p =>
    rw [Console.step, absStep, h.call p]
    cases t.read p with
    | none => trivial
    | some r => exact h.turn p r.1 r.2
  | killed p =>
    rw [Console.step, absStep, h.call p]
    cases t.read p with
    | none => trivial
    | some r =>
      have hiff : ((Call.ofRead r).n > 0 ∧ s.cons.r = s.cons.w) ↔
          (r.2.length : Int) < r.1 ∧ t.abs.queue = [] := by
        rw [h.stands.read_eq_iff]
        refine and_congr_left fun _ => ?_
        show r.1 - (r.2.length : Int) > 0 ↔ _
        omega
      dsimp only [Option.map_some]
      by_cases hc : (r.2.length : Int) < r.1 ∧ t.abs.queue = []
      · rw [if_pos (hiff.mpr hc), if_pos hc]
        exact h.ret h.stands ..
      · rw [if_neg (hiff.not.mpr hc), if_neg hc]
        trivial

end Sim

omit [DecidableEq P] in
theorem init_sim (buf : Fin INPUT_BUF_SIZE → Byte) : Sim (init P buf) (absInit P) :=
  ⟨⟨.nil buf 0, rfl, fun _ hc => absurd hc not_mem_nil, rfl⟩, fun _ => rfl, rfl⟩

/-- **The driver refines the abstract console.**  On every sequence of input characters and turns of
`consoleread`, the driver can go on exactly if the abstract console can, and then both have returned the
same; the indices are in order, and what left the queue, followed by what is in it, is what was
committed. -/
theorem console_refines (buf : Fin INPUT_BUF_SIZE → Byte) (as : List (Act P)) :
    (∀ t, run absStep (absInit P) as = .ok t → ∃ s, run step (init P buf) as = .ok s) ∧
    ∀ s, run step (init P buf) as = .ok s → ∃ t, run absStep (absInit P) as = .ok t ∧
      s.log = t.log ∧ t.abs.committed = t.abs.taken ++ t.abs.queue ∧
      (s.cons.w - s.cons.r).toNat ≤ (s.cons.e - s.cons.r).toNat ∧
      (s.cons.e - s.cons.r).toNat ≤ INPUT_BUF_SIZE := by
  have hagree := run_agree (fun s t a h => Sim.step h a) (init_sim (P := P) buf) as
  constructor
  · intro t ht
    rw [ht] at hagree
    cases hs : run step (init P buf) as with
    | error e =>
      rw [hs] at hagree
      exact hagree.elim
    | ok s => exact ⟨s, rfl⟩
  · intro s hs
    rw [hs] at hagree
    cases ht : run absStep (absInit P) as with
    | error e =>
      rw [ht] at hagree
      exact hagree.elim
    | ok t =>
      rw [ht] at hagree
      exact ⟨t, rfl, hagree.log, hagree.stands.history, hagree.stands.order⟩

end

end Xv6.Console
