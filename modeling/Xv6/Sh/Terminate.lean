/-
# Xv6.Sh.Terminate — the strings of a parsed line (`user/sh.c`).

`parseexec` keeps the start and the end of each word in two arrays of an exec node, with a null pointer
behind the last one.  `nulterminate` runs over them until the null pointer, and writes a NUL at each
end.  A word ends at white space, at a symbol or at the end of the line, and no word has such a byte
inside, so no NUL lands in a word.
-/
import Xv6.Sh.Grammar

namespace Xv6.Sh

open Lib List Nat

/-! ## Exec nodes -/

/-- `struct execcmd`: pointers into the line, `none` for the null pointer. -/
structure Execcmd where
  argv : List (Option Nat)
  eargv : List (Option Nat)

def Execcmd.zero : Execcmd := ⟨List.replicate MAXARGS none, List.replicate MAXARGS none⟩

/-- `argv[argc] = q; eargv[argc] = eq`. -/
def Execcmd.put (c : Execcmd) (argc : Nat) (w : Word) : Execcmd :=
  ⟨c.argv.set argc (some w.1), c.eargv.set argc (some w.2)⟩

/-- What the loop of `parseexec` and the lines behind it write for the words `ws`, from `argc` on. -/
def Execcmd.fill (c : Execcmd) (argc : Nat) : List Word → Execcmd
  | [] => ⟨c.argv.set argc none, c.eargv.set argc none⟩
  | w :: ws => (c.put argc w).fill (argc + 1) ws

/-- The node of a command with arguments `ws`. -/
def execcmd (ws : List Word) : Execcmd := Execcmd.zero.fill 0 ws

/-- The loop of `nulterminate` over an exec node. -/
def Execcmd.nulterminate (c : Execcmd) : (n i : Nat) → List Byte → List Byte
  | 0, _, buf => buf
  | n + 1, i, buf =>
    match c.argv.getD i none, c.eargv.getD i none with
    | some _, some e => Execcmd.nulterminate c n (i + 1) (buf.set e 0)
    | _, _ => buf

/-- The arrays hold the words `ws` from position `i` on, and then a null pointer. -/
def Execcmd.Holds (c : Execcmd) (i : Nat) (ws : List Word) : Prop :=
  (∀ j (h : j < ws.length), c.argv[i + j]? = some (some (ws[j]).1) ∧
    c.eargv[i + j]? = some (some (ws[j]).2)) ∧ c.argv[i + ws.length]? = some none

variable {c : Execcmd} {ws : List Word} {i : Nat}

/-- A word before `argc` stays. -/
theorem Execcmd.fill_below {argc : Nat} (hi : i < argc) :
    (c.fill argc ws).argv[i]? = c.argv[i]? ∧ (c.fill argc ws).eargv[i]? = c.eargv[i]? := by
  induction ws generalizing c argc with
  | nil => simp [Execcmd.fill, List.getElem?_set_ne hi.ne']
  | cons w ws ih =>
    obtain ⟨hargv, heargv⟩ := @ih (c.put argc w) (argc + 1) (by omega)
    rw [Execcmd.fill, hargv, heargv]
    simp [Execcmd.put, List.getElem?_set_ne hi.ne']

theorem Execcmd.fill_holds {argc : Nat} (ha : c.argv.length = MAXARGS) (he : c.eargv.length = MAXARGS)
    (h : argc + ws.length < MAXARGS) : (c.fill argc ws).Holds argc ws := by
  induction ws generalizing c argc with
  | nil =>
    refine ⟨fun j hj => absurd hj (not_lt_zero j), ?_⟩
    have hlt : argc < c.argv.length := by simpa [ha] using h
    simp [Execcmd.fill, hlt]
  | cons w ws ih =>
    rw [length_cons] at h
    obtain ⟨hws, hend⟩ := @ih (c.put argc w) (argc + 1) (by simpa [Execcmd.put] using ha)
      (by simpa [Execcmd.put] using he) (by omega)
    rw [Execcmd.fill]
    constructor
    · intro j hj
      cases j with
      | zero =>
        obtain ⟨hargv, heargv⟩ :=
          @Execcmd.fill_below (c.put argc w) ws argc (argc + 1) (Nat.lt_add_one argc)
        have hlt : argc < MAXARGS := by omega
        simp only [add_zero, hargv, heargv]
        simp [Execcmd.put, ha, he, hlt]
      | succ j =>
        have hj' : j < ws.length := by simpa using hj
        have := hws j hj'
        rwa [add_right_comm] at this
    · rwa [length_cons, add_comm ws.length 1, ← add_assoc]

theorem execcmd_holds (h : ws.length < MAXARGS) : (execcmd ws).Holds 0 ws :=
  Execcmd.fill_holds (length_replicate ..) (length_replicate ..) (by omega)

/-- **The loop over the arrays** ends each word. -/
theorem Execcmd.Holds.nulterminate (h : c.Holds i ws) {n : Nat} (hn : ws.length < n)
    (buf : List Byte) :
    c.nulterminate n i buf = ws.foldl (fun buf w => buf.set w.2 0) buf := by
  induction ws generalizing n i buf with
  | nil =>
    obtain ⟨n, rfl⟩ : ∃ k, n = k + 1 := ⟨n - 1, by simp at hn; omega⟩
    have hnull : c.argv.getD i none = none := by
      rw [getD_eq_getElem?_getD]
      exact congrArg (Option.getD · none) h.2
    rw [Execcmd.nulterminate, hnull]
    rfl
  | cons w ws ih =>
    obtain ⟨n, rfl⟩ : ∃ k, n = k + 1 := ⟨n - 1, by simp at hn; omega⟩
    obtain ⟨hargv, heargv⟩ := h.1 0 (succ_pos _)
    have hrest : c.Holds (i + 1) ws := by
      refine ⟨fun j hj => ?_, ?_⟩
      · have := h.1 (j + 1) (succ_lt_succ hj)
        rwa [← add_assoc, add_right_comm] at this
      · have := h.2
        rwa [length_cons, add_comm ws.length 1, ← add_assoc] at this
    have ha : c.argv.getD i none = some w.1 := by
      rw [getD_eq_getElem?_getD]
      exact congrArg (Option.getD · none) hargv
    have he : c.eargv.getD i none = some w.2 := by
      rw [getD_eq_getElem?_getD]
      exact congrArg (Option.getD · none) heargv
    rw [Execcmd.nulterminate, ha, he]
    exact ih hrest (by simpa using hn) _

/-! ## The whole tree -/

section Tree

variable {line : Line} {fuel : Nat}

/-- Every string of the command, read from `buf`, is the text of its word in `line`, and behind the
words of an exec node there is a null pointer. -/
def Cmd.Terminated (line : Line) (buf : List Byte) : Cmd Word → Prop
  | .exec ws => ws.length < MAXARGS ∧ (execcmd ws).argv[ws.length]? = some none ∧
      ∀ j (h : j < ws.length), ∃ q, (execcmd ws).argv[j]? = some (some q) ∧
        cstring buf q = text line (ws[j])
  | .redir cmd r => cmd.Terminated line buf ∧ cstring buf r.file.1 = text line r.file
  | .pipe left right => left.Terminated line buf ∧ right.Terminated line buf
  | .list left right => left.Terminated line buf ∧ right.Terminated line buf
  | .back cmd => cmd.Terminated line buf

/-- The arguments of the exec nodes. -/
def Cmd.execs {W : Type} : Cmd W → List (List W)
  | .exec ws => [ws]
  | .redir cmd _ => cmd.execs
  | .pipe left right => left.execs ++ right.execs
  | .list left right => left.execs ++ right.execs
  | .back cmd => cmd.execs

theorem Cmd.execs_wrap {W : Type} (cmd : Cmd W) (rs : List (Redir W)) :
    (cmd.wrap rs).execs = cmd.execs := by
  induction rs generalizing cmd with
  | nil => rfl
  | cons r rs ih => exact ih (.redir cmd r)

theorem Cmd.execs_backs {W : Type} (cmd : Cmd W) (n : Nat) : (cmd.backs n).execs = cmd.execs := by
  induction n generalizing cmd with
  | zero => rfl
  | succ n ih => exact ih (.back cmd)

/-- The parser leaves room for the null pointer. -/
theorem Derives.execs_length {W : Type} {k : Nonterminal} {ts : List (Token W)} {cmd : Cmd W}
    (h : Derives k ts cmd) : ∀ ws ∈ cmd.execs, ws.length < MAXARGS := by
  induction h with
  | line n _ ih => rwa [Cmd.execs_backs]
  | seq n _ _ ih ih' =>
    intro ws hws
    rw [Cmd.execs, Cmd.execs_backs, mem_append] at hws
    exact hws.elim (ih ws) (ih' ws)
  | one _ ih => exact ih
  | bar _ _ ih ih' =>
    intro ws hws
    exact (mem_append.mp hws).elim (ih ws) (ih' ws)
  | block _ _ ih => rwa [Cmd.execs_wrap]
  | simple _ _ hlen =>
    rw [Cmd.execs_wrap]
    intro ws hws
    obtain rfl := mem_singleton.mp hws
    exact lt_of_le_pred (by decide) hlen

/-- A command whose words are read back is terminated. -/
theorem Cmd.terminated_of {buf : List Byte} {cmd : Cmd Word}
    (hlen : ∀ ws ∈ cmd.execs, ws.length < MAXARGS)
    (h : ∀ w ∈ cmd.words, cstring buf w.1 = text line w) : cmd.Terminated line buf := by
  induction cmd with
  | exec ws =>
    have hws := hlen ws mem_cons_self
    have hold := execcmd_holds hws
    refine ⟨hws, ?_, fun j hj => ?_⟩
    · simpa using hold.2
    · exact ⟨(ws[j]).1, by simpa using (hold.1 j hj).1, h _ (getElem_mem hj)⟩
  | redir cmd r ih =>
    refine ⟨ih hlen fun w hw => h w (mem_append_left _ hw), h _ ?_⟩
    exact mem_append_right _ mem_cons_self
  | pipe left right ihl ihr | list _ _ ihl ihr =>
    exact ⟨ihl (fun ws hws => hlen ws (mem_append_left _ hws))
        fun w hw => h w (mem_append_left _ hw),
      ihr (fun ws hws => hlen ws (mem_append_right _ hws))
        fun w hw => h w (mem_append_right _ hw)⟩
  | back cmd ih => exact ih hlen h

/-- **No word is cut or altered.**  If `parsecmd` accepts a line, then after `nulterminate` every
pointer of the tree leads to the text of its token in the original line, every `argv` has its null
pointer behind the words, the loop over the arrays is `nulterminate`'s write at each end, and every
write is inside the line and the NUL behind it. -/
theorem parsecmd_terminated (h0 : 0 ∉ line) (hfuel : 4 * line.length + 8 ≤ fuel)
    {strings : Cmd (List Byte)} (h : parsecmd fuel line = .ok strings) :
    ∃ cmd e, parseline line fuel 0 = .ok (cmd, e) ∧ strings = cmd.map (text line) ∧
      cmd.Terminated line (nulterminate cmd (line ++ [0])) ∧
      (∀ ws ∈ cmd.execs, ∀ buf,
        (execcmd ws).nulterminate MAXARGS 0 buf = nulterminate (.exec ws) buf) ∧
      ∀ w ∈ cmd.words, .word w ∈ tokens line 0 ∧ w.2 < (line ++ [0]).length := by
  rcases derives_or_panic h0 hfuel with ⟨cmd, hc⟩ | ⟨m, hm⟩
  · have hlen : (tokens line 0).length ≤ line.length + 1 := tokens_length
    obtain ⟨e, hrun, -⟩ := (parse_complete h0 fuel).1 0 _ cmd [] hc
      (by rw [append_nil]; exact .start line) (.inl rfl) (by omega)
    rw [parsecmd_of_derives h0 hfuel hc] at h
    have hword : ∀ w ∈ cmd.words, IsWord line w :=
      fun w hw => isWord_of_mem_tokensFrom (hc.words hw)
    refine ⟨cmd, e, hrun, (Except.ok.inj h).symm, ?_, ?_, ?_⟩
    · apply Cmd.terminated_of hc.execs_length
      intro w hw
      rw [nulterminate_eq]
      exact cstring_eq_text h0 hword hw
    · intro ws hws buf
      have hshort := hc.execs_length ws hws
      exact (execcmd_holds hshort).nulterminate hshort buf
    · intro w hw
      refine ⟨hc.words hw, ?_⟩
      rw [length_append]
      exact lt_succ_of_le (hword w hw).le
  · rw [hm] at h
    cases h

/-- In `a>f b|c` the words touch symbols on either side. -/
theorem parsecmd_terminated_touching :
    ∃ cmd e, parseline (chars "a>f b|c") 36 0 = .ok (cmd, e) ∧
      cmd.map (text (chars "a>f b|c")) =
        .pipe (.redir (.exec [chars "a", chars "b"]) ⟨chars "f", 0x601, 1⟩) (.exec [chars "c"]) ∧
      cmd.Terminated (chars "a>f b|c") (nulterminate cmd (chars "a>f b|c" ++ [0])) := by
  have hrun : parsecmd 36 (chars "a>f b|c") = .ok
      (.pipe (.redir (.exec [chars "a", chars "b"]) ⟨chars "f", 0x601, 1⟩) (.exec [chars "c"])) := by
    decide +kernel
  obtain ⟨cmd, e, hparse, hmap, hterm, -⟩ := parsecmd_terminated (by decide) (by decide) hrun
  exact ⟨cmd, e, hparse, hmap.symm, hterm⟩

end Tree

end Xv6.Sh
