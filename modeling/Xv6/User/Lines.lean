/-
# Xv6.User.Lines — the read loop of `grep` (`user/grep.c`).

`grep` reads into a buffer of 1024 bytes, writes the lines in it that match and moves the unfinished
line to the front.  What `read` returns is a choice: `want` says how many bytes of the stream come at
each call, and is cut to what was asked for and what is left.  When an unfinished line fills the
buffer, `grep` asks for 0 bytes, gets 0, and takes that for the end of the stream.
-/
import Xv6.User.Grep

namespace Xv6.Grep

open Lib List

/-! ## The loops -/

/-- `'\n'` -/
def newline : Byte := 0x0a

/-- `sizeof(buf)`. -/
def BUFSIZE : Nat := 1024

/-- `strchr(p, c)`: what is before the first `c`, and the string from there on. -/
def strchr (c : Byte) : List Byte → Except Overread (Option (List Byte × List Byte))
  | [] => .error .text
  | t :: p =>
    if t = 0 then
      .ok none
    else if t = c then
      .ok (some ([], t :: p))
    else
      (strchr c p).map (Option.map fun (l, q) => (t :: l, q))

theorem strchr_some (h : strchr c p = .ok (some (l, q))) :
    ∃ more, p = l ++ c :: more ∧ q = c :: more := by
  induction p generalizing l with
  | nil => cases h
  | cons t p ih =>
    rw [strchr] at h
    split at h
    · cases h
    · split at h
      · next ht =>
        cases h
        exact ⟨p, by rw [ht]; rfl, by rw [ht]⟩
      · rcases hp : strchr c p with e | _ | ⟨l', q'⟩ <;> rw [hp] at h
        · cases h
        · cases h
        · cases h
          obtain ⟨more, rfl, hq⟩ := ih hp
          exact ⟨more, rfl, hq⟩

/-- `while((q = strchr(p, '\n')) != 0)`: what is written, and `p` at the end. -/
def grepLines (pattern p : List Byte) : Except Overread (List Byte × List Byte) :=
  match _hq : strchr newline p with
  | .error e => .error e
  | .ok none => .ok ([], p)
  | .ok (some (l, q)) => do
    -- `*q = 0` ends the line for `match`
    let hit ← matchRe pattern (l ++ [0])
    let (out, p) ← grepLines pattern q.tail
    pure ((if hit then l ++ [newline] else []) ++ out, p)
termination_by p.length
decreasing_by
  obtain ⟨more, rfl, rfl⟩ := strchr_some _hq
  simp only [tail_cons, length_append, length_cons]
  omega

/-- `while((n = read(fd, buf+m, sizeof(buf)-m-1)) > 0)`, where `buf` is the `m` bytes kept: what is
written, and what is not read. -/
def grepLoop (pattern : List Byte) (want : Nat → Nat) (turn : Nat) (buf input : List Byte) :
    Except Overread (List Byte × List Byte) :=
  let n := min (want turn + 1) (min (BUFSIZE - buf.length - 1) input.length)
  if n = 0 then
    .ok ([], input)
  else do
    let (out, p) ← grepLines pattern (buf ++ input.take n ++ [0])
    let (out', rest) ← grepLoop pattern want (turn + 1) p.dropLast (input.drop n)
    pure (out ++ out', rest)
termination_by input.length
decreasing_by
  rw [length_drop]
  omega

/-! ## Lines of a stream -/

variable {pattern s l u r : List Byte}

/-- The lines of a stream that end in a newline. -/
def lines (s : List Byte) : List (List Byte) := (s.splitOn newline).dropLast

/-- What comes after the last newline. -/
def pending (s : List Byte) : List Byte := (s.splitOn newline).getLastD []

/-- `match(pattern, line)`. -/
def matchesLine (pattern l : List Byte) : Bool :=
  matchRe (pattern ++ [0]) (l ++ [0]) matches .ok true

/-- The lines that match, in order, with their newlines. -/
def emit (pattern s : List Byte) : List Byte :=
  ((lines s).filter (matchesLine pattern)).flatMap (· ++ [newline])

/-- Every line leaves room for its newline in the buffer, and the rest of the stream fits. -/
def Fits (s : List Byte) : Prop :=
  (∀ l ∈ lines s, l.length ≤ BUFSIZE - 2) ∧ (pending s).length ≤ BUFSIZE - 1

theorem beq_newline (hl : newline ∉ l) : ∀ x ∈ l, (x == newline) = false :=
  fun _ hx => beq_false_of_ne fun h => hl (h ▸ hx)

theorem splitOn_line (hl : newline ∉ l) (s : List Byte) :
    (l ++ newline :: s).splitOn newline = l :: s.splitOn newline :=
  splitOnP_append_cons_of_forall_mem (beq_newline hl) _ (beq_self_eq_true _) s

theorem splitOn_rest (hl : newline ∉ l) : l.splitOn newline = [l] :=
  splitOnP_eq_singleton (beq_newline hl)

theorem lines_line (hl : newline ∉ l) (s : List Byte) :
    lines (l ++ newline :: s) = l :: lines s := by
  rw [lines, splitOn_line hl, dropLast_cons_of_ne_nil (splitOn_ne_nil _ _), lines]

theorem lines_rest (hl : newline ∉ l) : lines l = [] := by
  rw [lines, splitOn_rest hl]
  rfl

theorem pending_line (hl : newline ∉ l) (s : List Byte) :
    pending (l ++ newline :: s) = pending s := by
  rw [pending, splitOn_line hl, pending]
  obtain ⟨x, xs, hx⟩ := exists_cons_of_ne_nil (splitOn_ne_nil newline s)
  rw [hx]
  rfl

theorem pending_rest (hl : newline ∉ l) : pending l = l := by
  rw [pending, splitOn_rest hl]
  rfl

/-- A stream is a line without a newline, or a line, a newline and a stream. -/
theorem line_induction {P : List Byte → Prop} (rest : ∀ l, newline ∉ l → P l)
    (line : ∀ l s, newline ∉ l → P s → P (l ++ newline :: s)) (s : List Byte) : P s := by
  induction hn : s.length using Nat.strong_induction_on generalizing s with
  | _ n ih =>
    by_cases h : newline ∈ s
    · obtain ⟨l, s', rfl, hl⟩ := eq_append_cons_of_mem h
      refine line l s' hl (ih s'.length ?_ s' rfl)
      rw [← hn, length_append, length_cons]
      omega
    · exact rest s h

/-- What is kept of the bytes `u` stands for them before what comes next. -/
theorem lines_append (u r : List Byte) : lines (u ++ r) = lines u ++ lines (pending u ++ r) ∧
    pending (u ++ r) = pending (pending u ++ r) := by
  induction u using line_induction with
  | rest l hl => rw [lines_rest hl, pending_rest hl]; exact ⟨rfl, rfl⟩
  | line l s hl ih =>
    rw [append_assoc, cons_append, lines_line hl, lines_line hl, pending_line hl, pending_line hl,
      ih.1]
    exact ⟨rfl, ih.2⟩

theorem emit_append (u r : List Byte) :
    emit pattern (u ++ r) = emit pattern u ++ emit pattern (pending u ++ r) := by
  rw [emit, (lines_append u r).1, filter_append, flatMap_append]
  rfl

/-- The parts of a stream. -/
theorem sublist_stream (s : List Byte) : (∀ l ∈ lines s, l.length < s.length) ∧ pending s <:+ s ∧
    newline ∉ pending s := by
  induction s using line_induction with
  | rest l hl => rw [lines_rest hl, pending_rest hl]; exact ⟨nofun, suffix_rfl, hl⟩
  | line l s hl ih =>
    rw [lines_line hl, pending_line hl]
    refine ⟨fun k hk => ?_, ih.2.1.trans ⟨l ++ [newline], by simp⟩, ih.2.2⟩
    rw [length_append, length_cons]
    rcases mem_cons.mp hk with rfl | hk
    · omega
    · have := ih.1 k hk
      omega

theorem fits_append (hu : u.length ≤ BUFSIZE - 1) (r : List Byte) :
    Fits (u ++ r) ↔ Fits (pending u ++ r) := by
  rw [Fits, Fits, (lines_append u r).1, (lines_append u r).2, forall_mem_append]
  have hlines : ∀ l ∈ lines u, l.length ≤ BUFSIZE - 2 := fun l hl => by
    have := (sublist_stream u).1 l hl
    omega
  exact ⟨fun h => ⟨h.1.2, h.2⟩, fun h => ⟨⟨hlines, h.1⟩, h.2⟩⟩

/-- A line that fills the buffer does not fit, whatever comes next. -/
theorem not_fits (hl : newline ∉ l) (hlen : l.length = BUFSIZE - 1) (hr : r ≠ []) :
    ¬Fits (l ++ r) := by
  rintro ⟨hlines, hpending⟩
  by_cases h : newline ∈ r
  · obtain ⟨k, s, rfl, hk⟩ := eq_append_cons_of_mem h
    have hlk : newline ∉ l ++ k := fun h => (mem_append.mp h).elim hl hk
    rw [← append_assoc, lines_line hlk] at hlines
    have := hlines _ mem_cons_self
    rw [length_append, hlen, BUFSIZE] at this
    omega
  · rw [pending_rest fun h' => (mem_append.mp h').elim hl h, length_append, hlen] at hpending
    have := length_pos_iff.mpr hr
    omega

/-! ## What the loops do -/

theorem strchr_line (h0 : 0 ∉ l) (hl : newline ∉ l) (s : List Byte) :
    strchr newline (l ++ newline :: s) = .ok (some (l, newline :: s)) := by
  induction l with
  | nil => rfl
  | cons t l ih =>
    rw [mem_cons, not_or] at h0 hl
    rw [cons_append, strchr, if_neg (Ne.symm h0.1), if_neg (Ne.symm hl.1), ih h0.2 hl.2]
    rfl

theorem strchr_rest (h0 : 0 ∉ l) (hl : newline ∉ l) : strchr newline (l ++ [0]) = .ok none := by
  induction l with
  | nil => rfl
  | cons t l ih =>
    rw [mem_cons, not_or] at h0 hl
    rw [cons_append, strchr, if_neg (Ne.symm h0.1), if_neg (Ne.symm hl.1), ih h0.2 hl.2]
    rfl

/-- The inner loop writes the lines that match and stops before the unfinished one. -/
theorem grepLines_eq (hp : 0 ∉ pattern) (h0 : 0 ∉ s) :
    grepLines (pattern ++ [0]) (s ++ [0]) = .ok (emit pattern s, pending s ++ [0]) := by
  induction s using line_induction with
  | rest l hl =>
    rw [grepLines, emit, lines_rest hl, pending_rest hl]
    split <;> rename_i h <;> rw [strchr_rest h0 hl] at h <;> cases h
    rfl
  | line l s hl ih =>
    simp only [mem_append, mem_cons, not_or] at h0
    obtain ⟨b, hb, -⟩ := returns_matchRe hp h0.1
    rw [grepLines, append_assoc, cons_append]
    split <;> rename_i h <;> rw [strchr_line h0.1 hl] at h <;> cases h
    rw [hb, tail_cons, emit, lines_line hl, pending_line hl, filter_cons]
    have hmatch : matchesLine pattern l = b := by
      rw [matchesLine, hb]
      cases b <;> rfl
    rw [hmatch]
    change (grepLines _ _ >>= fun r => pure (_ ++ r.1, r.2)) = _
    rw [ih h0.2.2]
    cases b <;> rfl

/-- **The read loop**, from a state with an unfinished line in the buffer. -/
theorem grepLoop_eq (hp : 0 ∉ pattern) (want : Nat → Nat) (turn : Nat)
    (hbuf : newline ∉ buf) (hlen : buf.length ≤ BUFSIZE - 1) (h0 : 0 ∉ buf ++ input) :
    ∃ out rest, grepLoop (pattern ++ [0]) want turn buf input = .ok (out, rest) ∧
      (rest = [] ↔ Fits (buf ++ input)) ∧ (rest = [] → out = emit pattern (buf ++ input)) := by
  induction hn : input.length using Nat.strong_induction_on generalizing turn buf input with
  | _ k ih =>
    rw [grepLoop]
    split
    · next hzero =>
      refine ⟨[], input, rfl, ?_⟩
      by_cases hin : input = []
      · rw [hin, append_nil, Fits, emit, lines_rest hbuf, pending_rest hbuf]
        exact ⟨⟨fun _ => ⟨nofun, hlen⟩, fun _ => rfl⟩, fun _ => rfl⟩
      · -- Nothing is read although something is left: the buffer is full.
        have hpos := length_pos_iff.mpr hin
        have hfull : buf.length = BUFSIZE - 1 := by omega
        exact ⟨⟨fun h => absurd h hin, fun h => absurd h (not_fits hbuf hfull hin)⟩,
          fun h => absurd h hin⟩
    · next hpos =>
      generalize hm : min (want turn + 1) (min (BUFSIZE - buf.length - 1) input.length) = n at hpos
      have hsplit : buf ++ input = (buf ++ input.take n) ++ input.drop n := by
        rw [append_assoc, take_append_drop]
      rw [hsplit] at h0
      have hcur : 0 ∉ buf ++ input.take n := fun h => h0 (mem_append_left _ h)
      have hcurlen : (buf ++ input.take n).length ≤ BUFSIZE - 1 := by
        rw [length_append, length_take]
        omega
      obtain ⟨-, hsuffix, hnl⟩ := sublist_stream (buf ++ input.take n)
      obtain ⟨out, rest, hrun, hiff, hout⟩ := ih (input.drop n).length (by rw [length_drop]; omega)
        (turn + 1) hnl (hsuffix.length_le.trans hcurlen)
        (fun h => h0 ((mem_append.mp h).elim (fun h => mem_append_left _ (hsuffix.subset h))
          (mem_append_right _))) rfl
      refine ⟨emit pattern (buf ++ input.take n) ++ out, rest, ?_, ?_, fun h => ?_⟩
      · rw [grepLines_eq hp hcur]
        change (grepLoop _ _ _ (pending _ ++ [0]).dropLast _ >>= fun r => pure (_ ++ r.1, r.2)) = _
        rw [dropLast_concat, hrun]
        rfl
      · rw [hsplit, fits_append hcurlen]
        exact hiff
      · rw [hsplit, emit_append (buf ++ input.take n), hout h]

/-- **`grep` does not depend on buffering, exactly for streams whose lines fit.** Whatever `read`
returns at each call, `grep` returns; it has written the lines that match and read the stream to its
end iff every line has at most 1022 bytes before its newline and what comes after the last newline at
most 1023. -/
theorem grep_writes_matching_lines_iff (pattern s : List Byte) (hp : 0 ∉ pattern) (hs : 0 ∉ s)
    (want : Nat → Nat) :
    ∃ out rest, grepLoop (pattern ++ [0]) want 0 [] s = .ok (out, rest) ∧
      (out = emit pattern s ∧ rest = [] ↔ Fits s) := by
  obtain ⟨out, rest, hrun, hiff, hout⟩ :=
    grepLoop_eq hp want 0 (not_mem_nil (a := newline)) (Nat.zero_le _) hs
  exact ⟨out, rest, hrun, fun h => hiff.mp h.2, fun h => ⟨hout (hiff.mpr h), hiff.mpr h⟩⟩

/-- Two lines in pieces of three bytes; the pattern is in the second. -/
theorem grep_writes_matching_lines_iff_two :
    ∃ out rest,
      grepLoop ([0x62] ++ [0]) (fun _ => 2) 0 [] [0x61, 0x0a, 0x61, 0x62, 0x0a] = .ok (out, rest) ∧
      out = emit [0x62] [0x61, 0x0a, 0x61, 0x62, 0x0a] ∧ rest = [] := by
  obtain ⟨out, rest, hrun, hiff⟩ := grep_writes_matching_lines_iff [0x62]
    [0x61, 0x0a, 0x61, 0x62, 0x0a] (by decide) (by decide) fun _ => 2
  exact ⟨out, rest, hrun, hiff.mpr ⟨by decide, by decide⟩⟩

/-- A line of 1023 bytes that matches is not written, and its newline is not read. -/
theorem grep_stops_at_long_line :
    ∃ out rest, grepLoop ([0x61] ++ [0]) (fun _ => 4096) 0 [] (replicate 1023 0x61 ++ [newline]) =
      .ok (out, rest) ∧ rest ≠ [] := by
  have hnot (c : Byte) (hc : c ≠ 0x61) : c ∉ replicate 1023 (0x61 : Byte) :=
    fun h => hc (eq_of_mem_replicate h)
  have h0 : 0 ∉ replicate 1023 (0x61 : Byte) ++ [newline] := fun h =>
    (mem_append.mp h).elim (hnot 0 (by decide)) (by decide : (0 : Byte) ∉ [newline])
  have hp : (0 : Byte) ∉ [0x61] := by decide
  obtain ⟨out, rest, hrun, hiff, -⟩ :=
    grepLoop_eq hp (fun _ => 4096) 0 (not_mem_nil (a := newline)) (Nat.zero_le _) h0
  exact ⟨out, rest, hrun, fun h =>
    not_fits (hnot newline (by decide)) length_replicate (cons_ne_nil _ _) (hiff.mp h)⟩

end Xv6.Grep
