/-
# Xv6.Sh.Grammar — the shell's grammar, and that its parser accepts exactly that.

    line  ::= pipe '&'* [';' line]
    pipe  ::= exec ['|' pipe]
    exec  ::= '(' line ')' redir* | redir* (word redir*)*      with fewer than MAXARGS words
    redir ::= ('<' | '>' | '>>') word

`Derives` is the grammar with the command that each derivation stands for.  A run of the parser with enough
fuel ends in a panic or with a command that is derived from the tokens it took (`parse_spec`), and it takes
every token list that can be derived and is followed by a token that may follow (`parse_complete`).
-/
import Xv6.Sh.Tokens

namespace Xv6.Sh

open Lib List Token Cmd

variable {ws : List Word} {rs' : List (Redir Word)}

section Grammar

variable {W : Type}

/-- What a redirection stands for. -/
inductive IsRedir (w : W) : Token W → Redir W → Prop
  | lt : IsRedir w .lt ⟨w, O_RDONLY, 0⟩
  | gt : IsRedir w .gt ⟨w, O_WRONLY ||| O_CREATE ||| O_TRUNC, 1⟩
  | app : IsRedir w .app ⟨w, O_WRONLY ||| O_CREATE, 1⟩

/-- `redir*`. -/
inductive Redirs : List (Token W) → List (Redir W) → Prop
  | nil : Redirs [] []
  | cons {t w r ts rs} : IsRedir w t r → Redirs ts rs → Redirs (t :: .word w :: ts) (r :: rs)

/-- `(word redir*)*`. -/
inductive Words : List (Token W) → List W → List (Redir W) → Prop
  | nil : Words [] [] []
  | cons {w ts rs us ws rs'} : Redirs ts rs → Words us ws rs' →
      Words (.word w :: (ts ++ us)) (w :: ws) (rs ++ rs')

/-- A command in the background, `n` times over. -/
def Cmd.backs (cmd : Cmd W) : Nat → Cmd W
  | 0 => cmd
  | n + 1 => Cmd.backs (.back cmd) n

inductive Nonterminal where
  | line
  | pipe
  | exec

/-- The grammar, with the command that a derivation prescribes. -/
inductive Derives : Nonterminal → List (Token W) → Cmd W → Prop
  | line {ts c} (n : Nat) : Derives .pipe ts c →
      Derives .line (ts ++ List.replicate n .amp) (c.backs n)
  | seq {ts c us d} (n : Nat) : Derives .pipe ts c → Derives .line us d →
      Derives .line (ts ++ (List.replicate n .amp ++ .semi :: us)) (.list (c.backs n) d)
  | one {ts c} : Derives .exec ts c → Derives .pipe ts c
  | bar {ts c us d} : Derives .exec ts c → Derives .pipe us d →
      Derives .pipe (ts ++ .bar :: us) (.pipe c d)
  | block {ts c us rs} : Derives .line ts c → Redirs us rs →
      Derives .exec (.lparen :: (ts ++ .rparen :: us)) (c.wrap rs)
  | simple {ts rs us ws rs'} : Redirs ts rs → Words us ws rs' → ws.length ≤ MAXARGS - 1 →
      Derives .exec (ts ++ us) ((Cmd.exec ws).wrap (rs ++ rs'))

end Grammar

/-! ## What the parser takes can be derived -/

section Spec

variable {line : Line} {s n : Nat} {ts : List (Token Word)} {α β : Type}

/-- The parser took a first part of the tokens with `D`, or it panicked. -/
def Parses (x : Except Stop (α × Nat)) (line : Line) (ts : List (Token Word))
    (D : List (Token Word) → α → Prop) : Prop :=
  (∃ a s us vs, x = .ok (a, s) ∧ ts = us ++ vs ∧ D us a ∧ At line s vs) ∨ ∃ m, x = .error (.panic m)

theorem Parses.panic (m : String) {D : List (Token Word) → α → Prop} :
    Parses (.error (.panic m)) line ts D := .inr ⟨m, rfl⟩

theorem Parses.ok {a : α} {D : List (Token Word) → α → Prop} (hD : D [] a) (h : At line s ts) :
    Parses (.ok (a, s)) line ts D := .inl ⟨a, s, [], ts, rfl, rfl, hD, h⟩

theorem Parses.imp {x : Except Stop (α × Nat)} {D D' : List (Token Word) → α → Prop}
    (h : Parses x line ts D) (hD : ∀ us a, D us a → D' us a) : Parses x line ts D' := by
  rcases h with ⟨a, s, us, vs, hx, hts, hd, hat⟩ | hm
  · exact .inl ⟨a, s, us, vs, hx, hts, hD us a hd, hat⟩
  · exact .inr hm

/-- Some tokens were taken before. -/
theorem Parses.append {x : Except Stop (α × Nat)} {u : List (Token Word)}
    {D D' : List (Token Word) → α → Prop} (h : Parses x line ts D) (hD : ∀ vs a, D vs a → D' (u ++ vs) a) :
    Parses x line (u ++ ts) D' := by
  rcases h with ⟨a, s, vs, ws, hx, rfl, hd, hat⟩ | hm
  · exact .inl ⟨a, s, u ++ vs, ws, hx, (append_assoc _ _ _).symm, hD vs a hd, hat⟩
  · exact .inr hm

/-- One token was taken before. -/
theorem Parses.cons {x : Except Stop (α × Nat)} {t : Token Word} {D : List (Token Word) → α → Prop}
    (h : Parses x line ts fun vs a => D (t :: vs) a) : Parses x line (t :: ts) D :=
  h.append (u := [t]) fun _ _ hd => hd

theorem Parses.bind {x : Except Stop (α × Nat)} {f : α × Nat → Except Stop (β × Nat)}
    {D : List (Token Word) → α → Prop} {D' : List (Token Word) → β → Prop} (hx : Parses x line ts D)
    (hf : ∀ a s us vs, ts = us ++ vs → D us a → At line s vs →
      Parses (f (a, s)) line vs fun ws b => D' (us ++ ws) b) : Parses (x >>= f) line ts D' := by
  rcases hx with ⟨a, s, us, vs, rfl, hts, hd, hat⟩ | ⟨m, rfl⟩
  · rw [hts]
    exact (hf a s us vs hts hd hat).append fun _ _ h => h
  · exact .inr ⟨m, rfl⟩

theorem redirOf_iff {w : Word} {t : Token Word} {r : Redir Word} :
    redirOf w t = [r] ↔ IsRedir w t r := by
  constructor
  · intro h
    cases t with
    | lt | gt | app =>
      cases h
      constructor
    | _ => cases h
  · rintro (_ | _ | _) <;> rfl

/-- A redirection is told by its first token. -/
theorem isRedir_of_headIn {t : Token Word} (h : headIn "<>" (t :: ts) = true) (w : Word) :
    ∃ r, IsRedir w t r := by
  cases t with
  | lt => exact ⟨_, .lt⟩
  | gt => exact ⟨_, .gt⟩
  | app => exact ⟨_, .app⟩
  | _ => cases h

theorem parseredirs_spec (h0 : 0 ∉ line) (h : At line s ts) (hn : ts.length < n) (rs : List (Redir Word)) :
    Parses (parseredirs line n rs s) line ts fun us rs' => ∃ rs₁, Redirs us rs₁ ∧ rs' = rs ++ rs₁ := by
  induction n generalizing s ts rs with
  | zero => exact absurd hn (Nat.not_lt_zero _)
  | succ n ih =>
    rw [parseredirs, h.peek h0 "<>" (by decide)]
    cases hhead : headIn "<>" ts with
    | false => exact .ok ⟨[], .nil, (append_nil rs).symm⟩ h.skip
    | true =>
      cases ts with
      | nil => cases hhead
      | cons t ts =>
        obtain ⟨e, hg, hat⟩ := h.skip.gettoken
        simp only [hg]
        cases ts with
        | nil =>
          obtain ⟨e', hg', -⟩ := hat.gettoken_nil
          rw [hg']
          exact .panic _
        | cons u ts =>
          obtain ⟨e', hg', hat'⟩ := hat.gettoken
          rw [hg']
          cases u with
          | word w =>
            obtain ⟨r, hr⟩ := isRedir_of_headIn hhead w
            have hrest := ih hat' (by simp only [length_cons] at hn; omega) (rs ++ [r])
            simp only [Option.map_some, Option.getD_some, redirOf_iff.mpr hr]
            refine hrest.append (u := [t, .word w]) fun vs a => ?_
            rintro ⟨rs₁, hrs, rfl⟩
            exact ⟨r :: rs₁, .cons hr hrs, by rw [append_assoc, singleton_append]⟩
          | _ => exact .panic _

theorem parseargs_spec (h0 : 0 ∉ line) (h : At line s ts) (hn : ts.length < n) (argv : List Word)
    (hargv : argv.length ≤ MAXARGS - 1) (rs : List (Redir Word)) :
    Parses (parseargs line n argv rs s) line ts fun us c => ∃ ws rs₁, Words us ws rs₁ ∧
      (argv ++ ws).length ≤ MAXARGS - 1 ∧ c = (Cmd.exec (argv ++ ws)).wrap (rs ++ rs₁) := by
  induction n generalizing s ts argv rs with
  | zero => exact absurd hn (Nat.not_lt_zero _)
  | succ n ih =>
    have hdone : ∀ {e}, At line e ts →
        Parses (.ok ((Cmd.exec argv).wrap rs, e)) line ts fun us c => ∃ ws rs₁, Words us ws rs₁ ∧
          (argv ++ ws).length ≤ MAXARGS - 1 ∧ c = (Cmd.exec (argv ++ ws)).wrap (rs ++ rs₁) := fun hat => by
      refine .ok ⟨[], [], .nil, ?_, ?_⟩ hat
      · rw [append_nil]
        exact hargv
      · rw [append_nil, append_nil]
    rw [parseargs, h.peek h0 "|)&;" (by decide)]
    cases hhead : headIn "|)&;" ts with
    | true => exact hdone h.skip
    | false =>
      cases ts with
      | nil =>
        obtain ⟨e, hg, hat⟩ := h.skip.gettoken_nil
        simp only [hg]
        exact hdone hat
      | cons t ts =>
        obtain ⟨e, hg, hat⟩ := h.skip.gettoken
        simp only [hg]
        cases t with
        | word w =>
          simp only []
          split
          · exact .panic _
          · rename_i hlen
            have hlen' : (argv ++ [w]).length ≤ MAXARGS - 1 := Nat.le_pred_of_lt (not_le.mp hlen)
            simp only [length_cons] at hn
            refine .cons ((parseredirs_spec h0 hat (by omega) rs).bind ?_)
            rintro _ e' us vs rfl ⟨rs₁, hrs, rfl⟩ hat'
            rw [length_append] at hn
            refine (ih hat' (by omega) (argv ++ [w]) hlen' (rs ++ rs₁)).imp fun zs c => ?_
            rintro ⟨ws, rs₂, hws, hle, rfl⟩
            have hcons : Words (.word w :: (us ++ zs)) (w :: ws) (rs₁ ++ rs₂) := .cons hrs hws
            refine ⟨w :: ws, rs₁ ++ rs₂, hcons, ?_, ?_⟩
            · rwa [append_assoc] at hle
            · rw [append_assoc, append_assoc]
              rfl
        | _ => exact .panic _

/-- A symbol that is told by its first byte. -/
theorem cons_of_headIn {toks : String} {u : Token Word}
    (hu : ∀ t : Token Word, headIn toks [t] = true → t = u) (h : headIn toks ts = true) :
    ∃ us, ts = u :: us := by
  cases ts with
  | nil => cases h
  | cons t ts => exact ⟨ts, by rw [hu t h]⟩

theorem cons_of_amp (h : headIn "&" ts = true) : ∃ us, ts = .amp :: us :=
  cons_of_headIn (fun t ht => by cases t <;> first | rfl | cases ht) h

theorem cons_of_semi (h : headIn ";" ts = true) : ∃ us, ts = .semi :: us :=
  cons_of_headIn (fun t ht => by cases t <;> first | rfl | cases ht) h

theorem cons_of_bar (h : headIn "|" ts = true) : ∃ us, ts = .bar :: us :=
  cons_of_headIn (fun t ht => by cases t <;> first | rfl | cases ht) h

theorem cons_of_lparen (h : headIn "(" ts = true) : ∃ us, ts = .lparen :: us :=
  cons_of_headIn (fun t ht => by cases t <;> first | rfl | cases ht) h

theorem cons_of_rparen (h : headIn ")" ts = true) : ∃ us, ts = .rparen :: us :=
  cons_of_headIn (fun t ht => by cases t <;> first | rfl | cases ht) h

theorem parseamps_spec (h0 : 0 ∉ line) (h : At line s ts) (hn : ts.length < n) (cmd : Cmd Word) :
    Parses (parseamps line n cmd s) line ts fun us c =>
      ∃ k, us = replicate k .amp ∧ c = cmd.backs k := by
  induction n generalizing s ts cmd with
  | zero => exact absurd hn (Nat.not_lt_zero _)
  | succ n ih =>
    rw [parseamps, h.peek h0 "&" (by decide)]
    cases hhead : headIn "&" ts with
    | false => exact .ok ⟨0, rfl, rfl⟩ h.skip
    | true =>
      obtain ⟨ts, rfl⟩ := cons_of_amp hhead
      obtain ⟨e, hg, hat⟩ := h.skip.gettoken
      simp only [hg]
      simp only [length_cons] at hn
      refine .cons ((ih hat (by omega) (.back cmd)).imp fun vs c => ?_)
      rintro ⟨k, rfl, rfl⟩
      exact ⟨k + 1, rfl, rfl⟩

/-- **What the parser takes can be derived.**  With enough fuel for the tokens that are left, each of the
four functions panics or takes tokens from which its nonterminal derives the command it returns. -/
theorem parse_spec (h0 : 0 ∉ line) (n : Nat) :
    (∀ s ts, At line s ts → 4 * ts.length + 4 ≤ n →
      Parses (parseline line n s) line ts (Derives .line)) ∧
    (∀ s ts, At line s ts → 4 * ts.length + 3 ≤ n →
      Parses (parsepipe line n s) line ts (Derives .pipe)) ∧
    (∀ s ts, At line s ts → 4 * ts.length + 1 ≤ n →
      Parses (parseblock line n s) line ts (Derives .exec)) ∧
    (∀ s ts, At line s ts → 4 * ts.length + 2 ≤ n →
      Parses (parseexec line n s) line ts (Derives .exec)) := by
  induction n with
  | zero => exact ⟨fun _ _ _ h => absurd h (by omega), fun _ _ _ h => absurd h (by omega),
      fun _ _ _ h => absurd h (by omega), fun _ _ _ h => absurd h (by omega)⟩
  | succ n ih =>
    obtain ⟨ihline, ihpipe, ihblock, ihexec⟩ := ih
    refine ⟨fun s ts h hn => ?_, fun s ts h hn => ?_, fun s ts h hn => ?_, fun s ts h hn => ?_⟩
    · rw [parseline]
      refine (ihpipe s ts h (by omega)).bind ?_
      rintro c e us vs rfl hc hat
      rw [length_append] at hn
      refine (parseamps_spec h0 hat (by omega) c).bind ?_
      rintro _ e' us' vs rfl ⟨k, rfl, rfl⟩ hat'
      simp only [hat'.peek h0 ";" (by decide)]
      cases hhead : headIn ";" vs with
      | false =>
        refine .ok ?_ hat'.skip
        rw [append_nil]
        exact .line k hc
      | true =>
        obtain ⟨vs, rfl⟩ := cons_of_semi hhead
        obtain ⟨e2, hg, hat2⟩ := hat'.skip.gettoken
        simp only [hg]
        simp only [length_append, length_cons] at hn
        refine .cons ((ihline e2 vs hat2 (by omega)).bind ?_)
        rintro d e3 zs vs rfl hd hat3
        refine .ok ?_ hat3
        rw [append_nil]
        exact .seq k hc hd
    · rw [parsepipe]
      refine (ihexec s ts h (by omega)).bind ?_
      rintro c e us vs rfl hc hat
      simp only [hat.peek h0 "|" (by decide)]
      cases hhead : headIn "|" vs with
      | false =>
        refine .ok ?_ hat.skip
        rw [append_nil]
        exact .one hc
      | true =>
        obtain ⟨vs, rfl⟩ := cons_of_bar hhead
        obtain ⟨e2, hg, hat2⟩ := hat.skip.gettoken
        simp only [hg]
        simp only [length_append, length_cons] at hn
        refine .cons ((ihpipe e2 vs hat2 (by omega)).bind ?_)
        rintro d e3 zs vs rfl hd hat3
        refine .ok ?_ hat3
        rw [append_nil]
        exact .bar hc hd
    · rw [parseblock, h.peek h0 "(" (by decide)]
      cases hhead : headIn "(" ts with
      | false => exact .panic _
      | true =>
        obtain ⟨ts, rfl⟩ := cons_of_lparen hhead
        obtain ⟨e, hg, hat⟩ := h.skip.gettoken
        simp only [hg]
        simp only [length_cons] at hn
        refine .cons ((ihline e ts hat (by omega)).bind ?_)
        rintro c e1 us vs rfl hc hat1
        simp only [hat1.peek h0 ")" (by decide)]
        cases hhead : headIn ")" vs with
        | false => exact .panic _
        | true =>
          obtain ⟨vs, rfl⟩ := cons_of_rparen hhead
          obtain ⟨e2, hg, hat2⟩ := hat1.skip.gettoken
          simp only [hg]
          simp only [length_append, length_cons] at hn
          refine .cons ((parseredirs_spec h0 hat2 (by omega) []).bind ?_)
          rintro _ e3 zs vs rfl ⟨rs, hrs, rfl⟩ hat3
          refine .ok ?_ hat3
          rw [append_nil]
          exact .block hc hrs
    · rw [parseexec, h.peek h0 "(" (by decide)]
      cases hhead : headIn "(" ts with
      | true => exact ihblock _ ts h.skip (by omega)
      | false =>
        refine (parseredirs_spec h0 h.skip (by omega) []).bind ?_
        rintro _ e us vs rfl ⟨rs, hrs, rfl⟩ hat
        rw [length_append] at hn
        refine (parseargs_spec h0 hat (by omega) [] (by decide) _).imp ?_
        rintro zs c ⟨ws, rs1, hws, hle, rfl⟩
        exact .simple hrs hws hle

end Spec

/-! ## What can be derived is taken -/

section Complete

variable {line : Line} {s n : Nat} {ts us vs : List (Token Word)} {α : Type}

/-- What can follow a nonterminal in a line. -/
def Stops : Nonterminal → List (Token Word) → Prop
  | .line, ts => ts = [] ∨ ∃ us, ts = .rparen :: us
  | .pipe, ts => (ts = [] ∨ ∃ us, ts = .rparen :: us) ∨ ∃ us, ts = .amp :: us ∨ ts = .semi :: us
  | .exec, ts => ((ts = [] ∨ ∃ us, ts = .rparen :: us) ∨ ∃ us, ts = .amp :: us ∨ ts = .semi :: us) ∨
      ∃ us, ts = .bar :: us

/-- The parser took tokens, returned the value and left the rest. -/
def Takes (x : Except Stop (α × Nat)) (a : α) (line : Line) (vs : List (Token Word)) : Prop :=
  ∃ s, x = .ok (a, s) ∧ At line s vs

theorem Takes.bind {β : Type} {x : Except Stop (α × Nat)} {f : α × Nat → Except Stop (β × Nat)} {a : α}
    {b : β} (hx : Takes x a line us) (hf : ∀ s, At line s us → Takes (f (a, s)) b line vs) :
    Takes (x >>= f) b line vs := by
  obtain ⟨s, rfl, hat⟩ := hx
  exact hf s hat

theorem Stops.line_heads (h : Stops .line vs) : headIn "&" vs = false ∧ headIn ";" vs = false := by
  rcases h with rfl | ⟨us, rfl⟩ <;> exact ⟨rfl, rfl⟩

theorem Stops.pipe_head (h : Stops .pipe vs) : headIn "|" vs = false := by
  rcases h with (rfl | ⟨us, rfl⟩) | ⟨us, rfl | rfl⟩ <;> rfl

theorem Stops.exec_heads (h : Stops .exec vs) : headIn "<>" vs = false ∧ headIn "(" vs = false ∧
    (vs = [] ∨ headIn "|)&;" vs = true) := by
  rcases h with ((rfl | ⟨us, rfl⟩) | ⟨us, rfl | rfl⟩) | ⟨us, rfl⟩
  · exact ⟨rfl, rfl, .inl rfl⟩
  all_goals exact ⟨rfl, rfl, .inr rfl⟩

theorem parseredirs_complete (h0 : 0 ∉ line) (hr : Redirs us rs') (h : At line s (us ++ vs))
    (hv : headIn "<>" vs = false) (hn : us.length < n) (rs : List (Redir Word)) :
    Takes (parseredirs line n rs s) (rs ++ rs') line vs := by
  induction hr generalizing s n rs with
  | nil =>
    obtain ⟨n, rfl⟩ : ∃ m, n = m + 1 := ⟨n - 1, by omega⟩
    rw [parseredirs, h.peek h0 "<>" (by decide), nil_append, hv, append_nil]
    exact ⟨_, rfl, h.skip⟩
  | @cons t w r ts rs' hir _ ih =>
    obtain ⟨n, rfl⟩ : ∃ m, n = m + 1 := ⟨n - 1, by omega⟩
    have hhead : headIn "<>" (t :: .word w :: ts ++ vs) = true := by cases hir <;> rfl
    obtain ⟨e, hg, hat⟩ := h.skip.gettoken
    obtain ⟨e', hg', hat'⟩ := hat.gettoken
    rw [parseredirs, h.peek h0 "<>" (by decide), hhead]
    simp only [hg, hg', Option.map_some, Option.getD_some, redirOf_iff.mpr hir]
    simp only [length_cons] at hn
    have := ih hat' (n := n) (by omega) (rs ++ [r])
    rwa [append_assoc, singleton_append] at this

theorem Words.redir_head {rs : List (Redir Word)} (hw : Words us ws rs) (hv : Stops .exec vs) :
    headIn "<>" (us ++ vs) = false := by
  cases hw with
  | nil => exact hv.exec_heads.1
  | cons => rfl

theorem parseargs_complete (h0 : 0 ∉ line) (hw : Words us ws rs') (h : At line s (us ++ vs))
    (hv : Stops .exec vs) (hn : us.length < n) (argv : List Word)
    (hlen : (argv ++ ws).length ≤ MAXARGS - 1) (rs : List (Redir Word)) :
    Takes (parseargs line n argv rs s) ((Cmd.exec (argv ++ ws)).wrap (rs ++ rs')) line vs := by
  induction hw generalizing s n argv rs with
  | nil =>
    obtain ⟨n, rfl⟩ : ∃ m, n = m + 1 := ⟨n - 1, by omega⟩
    rw [parseargs, h.peek h0 "|)&;" (by decide), nil_append, append_nil, append_nil]
    rcases hv.exec_heads.2.2 with rfl | hhead
    · obtain ⟨e, hg, hat⟩ := h.skip.gettoken_nil
      refine ⟨e, ?_, hat⟩
      simp only [headIn, hg]
    · rw [hhead]
      exact ⟨_, rfl, h.skip⟩
  | @cons w ts rs1 us ws rs2 hrs hws ih =>
    obtain ⟨n, rfl⟩ : ∃ m, n = m + 1 := ⟨n - 1, by omega⟩
    obtain ⟨e, hg, hat⟩ := h.skip.gettoken
    rw [parseargs, h.peek h0 "|)&;" (by decide)]
    have hhead : headIn "|)&;" (.word w :: (ts ++ us) ++ vs) = false := rfl
    rw [hhead]
    simp only [hg]
    rw [if_neg]
    · simp only [length_cons, length_append] at hn
      have hat1 : At line e (ts ++ (us ++ vs)) := by
        rw [← append_assoc]
        exact hat
      refine (parseredirs_complete h0 hrs hat1 (hws.redir_head hv) (by omega) rs).bind fun e' hat' => ?_
      have := ih hat' (n := n) (by omega) (argv ++ [w])
        (by rwa [append_assoc, singleton_append]) (rs ++ rs1)
      rwa [append_assoc, singleton_append, append_assoc] at this
    · simp only [length_append, length_cons, length_nil] at hlen ⊢
      omega

theorem parseamps_complete (h0 : 0 ∉ line) {k : Nat} (h : At line s (replicate k .amp ++ vs))
    (hv : headIn "&" vs = false) (hn : k < n) (cmd : Cmd Word) :
    Takes (parseamps line n cmd s) (cmd.backs k) line vs := by
  induction k generalizing s n cmd with
  | zero =>
    obtain ⟨n, rfl⟩ : ∃ m, n = m + 1 := ⟨n - 1, by omega⟩
    rw [parseamps, h.peek h0 "&" (by decide)]
    simp only [replicate_zero, nil_append, hv]
    exact ⟨_, rfl, h.skip⟩
  | succ k ih =>
    obtain ⟨n, rfl⟩ : ∃ m, n = m + 1 := ⟨n - 1, by omega⟩
    obtain ⟨e, hg, hat⟩ := h.skip.gettoken
    rw [parseamps, h.peek h0 "&" (by decide)]
    have hhead : headIn "&" (replicate (k + 1) amp ++ vs) = true := rfl
    rw [hhead]
    simp only [hg]
    exact ih hat (by omega) (.back cmd)

/-- A derivation of `exec` starts with `(` only if it is a block. -/
theorem Derives.simple_head {ts' us' : List (Token Word)} {rs : List (Redir Word)}
    (hr : Redirs ts' rs) (hw : Words us' ws rs') (hv : Stops .exec vs) :
    headIn "(" (ts' ++ us' ++ vs) = false := by
  cases hr with
  | nil =>
    cases hw with
    | nil => exact hv.exec_heads.2.1
    | cons => rfl
  | cons hir => cases hir <;> rfl

/-- **What can be derived is taken.**  With enough fuel for a derivation, and a rest that can follow it,
each function takes the tokens of the derivation and returns its command. -/
theorem parse_complete (h0 : 0 ∉ line) (n : Nat) :
    (∀ s ts c vs, Derives .line ts c → At line s (ts ++ vs) → Stops .line vs → 4 * ts.length + 4 ≤ n →
      Takes (parseline line n s) c line vs) ∧
    (∀ s ts c vs, Derives .pipe ts c → At line s (ts ++ vs) → Stops .pipe vs → 4 * ts.length + 3 ≤ n →
      Takes (parsepipe line n s) c line vs) ∧
    (∀ s ts c us rs vs, Derives .line ts c → Redirs us rs →
      At line s (.lparen :: (ts ++ .rparen :: us) ++ vs) → headIn "<>" vs = false →
      4 * (ts.length + us.length) + 9 ≤ n → Takes (parseblock line n s) (c.wrap rs) line vs) ∧
    (∀ s ts c vs, Derives .exec ts c → At line s (ts ++ vs) → Stops .exec vs → 4 * ts.length + 2 ≤ n →
      Takes (parseexec line n s) c line vs) := by
  induction n with
  | zero => exact ⟨fun _ _ _ _ _ _ _ h => absurd h (by omega), fun _ _ _ _ _ _ _ h => absurd h (by omega),
      fun _ _ _ _ _ _ _ _ _ _ h => absurd h (by omega), fun _ _ _ _ _ _ _ h => absurd h (by omega)⟩
  | succ n ih =>
    obtain ⟨ihline, ihpipe, ihblock, ihexec⟩ := ih
    refine ⟨fun s ts c vs hd h hv hn => ?_, fun s ts c vs hd h hv hn => ?_,
      fun s ts c us rs vs hd hr h hv hn => ?_, fun s ts c vs hd h hv hn => ?_⟩
    · rw [parseline]
      cases hd with
      | @line ts c k hp =>
        rw [length_append, length_replicate] at hn
        rw [append_assoc] at h
        have hstop : Stops .pipe (replicate k .amp ++ vs) := by
          cases k with
          | zero => exact .inl hv
          | succ k => exact .inr ⟨_, .inl rfl⟩
        refine (ihpipe s ts c _ hp h hstop (by omega)).bind fun e hat => ?_
        refine (parseamps_complete h0 hat hv.line_heads.1 (by omega) c).bind fun e' hat' => ?_
        simp only [hat'.peek h0 ";" (by decide), hv.line_heads.2]
        exact ⟨_, rfl, hat'.skip⟩
      | @seq ts c us d k hp hl =>
        simp only [length_append, length_replicate, length_cons] at hn
        rw [append_assoc, append_assoc, cons_append] at h
        have hstop : Stops .pipe (replicate k .amp ++ .semi :: (us ++ vs)) := by
          cases k with
          | zero => exact .inr ⟨_, .inr rfl⟩
          | succ k => exact .inr ⟨_, .inl rfl⟩
        refine (ihpipe s ts c _ hp h hstop (by omega)).bind fun e hat => ?_
        refine (parseamps_complete h0 hat rfl (by omega) c).bind fun e' hat' => ?_
        obtain ⟨e2, hg, hat2⟩ := hat'.skip.gettoken
        have hhead : headIn ";" (semi :: (us ++ vs)) = true := rfl
        simp only [hat'.peek h0 ";" (by decide), hhead, hg]
        exact (ihline e2 us d vs hl hat2 hv (by omega)).bind fun e3 hat3 => ⟨e3, rfl, hat3⟩
    · rw [parsepipe]
      cases hd with
      | one he =>
        refine (ihexec s ts c vs he h (.inl hv) (by omega)).bind fun e hat => ?_
        simp only [hat.peek h0 "|" (by decide), hv.pipe_head]
        exact ⟨_, rfl, hat.skip⟩
      | @bar ts c us d he hp =>
        simp only [length_append, length_cons] at hn
        rw [append_assoc, cons_append] at h
        refine (ihexec s ts c _ he h (.inr ⟨_, rfl⟩) (by omega)).bind fun e hat => ?_
        obtain ⟨e2, hg, hat2⟩ := hat.skip.gettoken
        have hhead : headIn "|" (bar :: (us ++ vs)) = true := rfl
        simp only [hat.peek h0 "|" (by decide), hhead, hg]
        exact (ihpipe e2 us d vs hp hat2 hv (by omega)).bind fun e3 hat3 => ⟨e3, rfl, hat3⟩
    · rw [parseblock, h.peek h0 "(" (by decide)]
      have hhead : headIn "(" (lparen :: (ts ++ .rparen :: us) ++ vs) = true := rfl
      obtain ⟨e, hg, hat⟩ := h.skip.gettoken
      have hat' : At line e (ts ++ (.rparen :: (us ++ vs))) := by
        have heq : (ts ++ .rparen :: us) ++ vs = ts ++ (.rparen :: (us ++ vs)) := by
          rw [append_assoc, cons_append]
        exact heq ▸ hat
      simp only [hhead, hg]
      refine (ihline e ts c _ hd hat' (.inr ⟨_, rfl⟩) (by omega)).bind fun e1 hat1 => ?_
      obtain ⟨e2, hg2, hat2⟩ := hat1.skip.gettoken
      have hclose : headIn ")" (rparen :: (us ++ vs)) = true := rfl
      simp only [hat1.peek h0 ")" (by decide), hclose, hg2]
      exact (parseredirs_complete h0 hr hat2 hv (by omega) []).bind fun e3 hat3 => ⟨e3, rfl, hat3⟩
    · rw [parseexec, h.peek h0 "(" (by decide)]
      cases hd with
      | @block ts c us rs hl hr =>
        have hhead : headIn "(" (lparen :: (ts ++ .rparen :: us) ++ vs) = true := rfl
        simp only [length_append, length_cons] at hn
        rw [hhead]
        exact ihblock _ ts c us rs vs hl hr h.skip hv.exec_heads.1 (by omega)
      | @simple ts rs us ws rs' hr hw hlen =>
        rw [Derives.simple_head hr hw hv]
        rw [length_append] at hn
        rw [append_assoc] at h
        refine (parseredirs_complete h0 hr h.skip (hw.redir_head hv) (by omega) []).bind fun e hat => ?_
        exact parseargs_complete h0 hw hat hv (by omega) [] hlen _

end Complete

/-! ## The strings of a command -/

section Strings

variable {W : Type} {line : Line}

/-- The words of a command. -/
def Cmd.words : Cmd W → List W
  | .exec argv => argv
  | .redir cmd r => cmd.words ++ [r.file]
  | .pipe left right => left.words ++ right.words
  | .list left right => left.words ++ right.words
  | .back cmd => cmd.words

theorem Cmd.words_backs (c : Cmd W) (n : Nat) : (c.backs n).words = c.words := by
  induction n generalizing c with
  | zero => rfl
  | succ n ih => exact ih (.back c)

theorem Cmd.words_wrap (c : Cmd W) (rs : List (Redir W)) :
    (c.wrap rs).words = c.words ++ rs.map Redir.file := by
  induction rs generalizing c with
  | nil => exact (append_nil _).symm
  | cons r rs ih =>
    rw [wrap, foldl_cons, ← wrap, ih, map_cons, words, append_assoc]
    rfl

theorem Redirs.files {ts : List (Token W)} {rs : List (Redir W)} (h : Redirs ts rs) {w : W}
    (hw : w ∈ rs.map Redir.file) : .word w ∈ ts := by
  induction h with
  | nil => cases hw
  | @cons t v r ts rs hir _ ih =>
    rcases mem_cons.mp hw with rfl | hw
    · have hfile : r.file = v := by cases hir <;> rfl
      rw [hfile]
      exact mem_cons_of_mem _ mem_cons_self
    · exact mem_cons_of_mem _ (mem_cons_of_mem _ (ih hw))

theorem Words.words {ts : List (Token W)} {ws : List W} {rs : List (Redir W)} (h : Words ts ws rs)
    {w : W} (hw : w ∈ ws ++ rs.map Redir.file) : .word w ∈ ts := by
  induction h with
  | nil => cases hw
  | @cons v ts rs us ws rs' hr _ ih =>
    rw [map_append, cons_append, mem_cons, mem_append, mem_append] at hw
    rcases hw with rfl | hw | hw | hw
    · exact mem_cons_self
    · exact mem_cons_of_mem _ (mem_append_right _ (ih (mem_append_left _ hw)))
    · exact mem_cons_of_mem _ (mem_append_left _ (hr.files hw))
    · exact mem_cons_of_mem _ (mem_append_right _ (ih (mem_append_right _ hw)))

/-- The words of a command are words of its tokens. -/
theorem Derives.words {k : Nonterminal} {ts : List (Token W)} {c : Cmd W} (h : Derives k ts c) {w : W}
    (hw : w ∈ c.words) : .word w ∈ ts := by
  induction h with
  | line n _ ih =>
    rw [words_backs] at hw
    exact mem_append_left _ (ih hw)
  | seq n _ _ ih ih' =>
    rw [Cmd.words, Cmd.words_backs, mem_append] at hw
    rcases hw with hw | hw
    · exact mem_append_left _ (ih hw)
    · exact mem_append_right _ (mem_append_right _ (mem_cons_of_mem _ (ih' hw)))
  | one _ ih => exact ih hw
  | bar _ _ ih ih' =>
    rcases mem_append.mp hw with hw | hw
    · exact mem_append_left _ (ih hw)
    · exact mem_append_right _ (mem_cons_of_mem _ (ih' hw))
  | block _ hr ih =>
    rw [words_wrap, mem_append] at hw
    refine mem_cons_of_mem _ ?_
    rcases hw with hw | hw
    · exact mem_append_left _ (ih hw)
    · exact mem_append_right _ (mem_cons_of_mem _ (hr.files hw))
  | @simple ts rs us ws rs' hr hws _ =>
    rw [Cmd.words_wrap, Cmd.words, map_append, mem_append, mem_append] at hw
    rcases hw with hw | hw | hw
    · exact mem_append_right _ (hws.words (mem_append_left _ hw))
    · exact mem_append_left _ (hr.files hw)
    · exact mem_append_right _ (hws.words (mem_append_right _ hw))

theorem nulterminate_eq (c : Cmd Word) (buf : List Byte) :
    nulterminate c buf = c.words.foldl (fun buf w => buf.set w.2 0) buf := by
  induction c generalizing buf with
  | exec argv => rfl
  | redir c r ih =>
    rw [nulterminate, ih, words, foldl_append]
    rfl
  | pipe left right ihl ihr | list _ _ ihl ihr => rw [nulterminate, ihl, ihr, words, foldl_append]
  | back c ih => exact ih buf

/-- `nulterminate` writes a NUL at the end of every word, and nothing else. -/
theorem foldl_set_getElem? (ws : List Word) (buf : List Byte) (i : Nat) :
    (ws.foldl (fun buf w => buf.set w.2 0) buf)[i]? =
      if i ∈ ws.map Prod.snd then buf[i]?.map fun _ => 0 else buf[i]? := by
  induction ws generalizing buf with
  | nil => rfl
  | cons w ws ih =>
    rw [foldl_cons, ih, map_cons, getElem?_set']
    by_cases hi : w.2 = i
    · subst hi
      rw [if_pos rfl, if_pos mem_cons_self]
      split
      · cases buf[w.2]? <;> rfl
      · cases buf[w.2]? <;> rfl
    · rw [if_neg hi]
      simp only [mem_cons, Ne.symm hi, false_or]

/-- The bytes of a word. -/
def text (line : Line) (w : Word) : List Byte := (line.drop w.1).take (w.2 - w.1)

/-- The string at the start of a word, when every word ends in a NUL. -/
theorem cstring_eq_text (h0 : 0 ∉ line) (hws : ∀ w ∈ ws, IsWord line w) {w : Word} (hw : w ∈ ws) :
    cstring (ws.foldl (fun buf w => buf.set w.2 0) (line ++ [0])) w.1 = text line w := by
  have hword := hws w hw
  have hlt := hword.lt
  have hle := hword.le
  obtain ⟨buf, hbuf⟩ : ∃ buf, buf = ws.foldl (fun buf w => buf.set w.2 0) (line ++ [0]) := ⟨_, rfl⟩
  rw [← hbuf]
  -- no word ends inside another one
  have hinside : ∀ i, w.1 ≤ i → i < w.2 → buf[i]? = (line)[i]? := by
    intro i hi hi'
    have hil : i < line.length := hi'.trans_le hle
    rw [hbuf, foldl_set_getElem?, if_neg, getElem?_append_left hil]
    intro hmem
    obtain ⟨v, hv, rfl⟩ := mem_map.mp hmem
    obtain ⟨hspace, hsym⟩ := hword.inside _ hi hi'
    rcases (hws v hv).behind hil with h | h
    · exact hspace h
    · exact hsym h
  have hend : buf[w.2]? = some 0 := by
    have hlen : w.2 < (line ++ [0]).length := by
      rw [length_append]
      exact Nat.lt_succ_of_le hle
    rw [hbuf, foldl_set_getElem?, if_pos (mem_map_of_mem hw), getElem?_eq_getElem hlen]
    rfl
  have htext : ∀ i, i < w.2 - w.1 → (text line w)[i]? = (line)[w.1 + i]? := fun i hi => by
    rw [text, getElem?_take_of_lt hi, getElem?_drop]
  have hlength : (text line w).length = w.2 - w.1 := by
    rw [text, length_take, length_drop]
    omega
  have hsplit : buf.drop w.1 = text line w ++ 0 :: buf.drop (w.2 + 1) := by
    refine ext_getElem? fun i => ?_
    rw [getElem?_drop]
    rcases Nat.lt_trichotomy i (w.2 - w.1) with hi | rfl | hi
    · rw [getElem?_append_left (hlength.symm ▸ hi), htext i hi, hinside _ (by omega) (by omega)]
    · rw [getElem?_append_right hlength.le, hlength, Nat.sub_self, getElem?_cons_zero,
        Nat.add_sub_cancel' hlt.le, hend]
    · rw [getElem?_append_right (by omega), hlength]
      obtain ⟨k, hk⟩ : ∃ k, i - (w.2 - w.1) = k + 1 := ⟨i - (w.2 - w.1) - 1, by omega⟩
      rw [hk, getElem?_cons_succ, getElem?_drop]
      congr 1
      omega
  rw [cstring, hsplit, takeWhile_append_of_pos, takeWhile_cons_of_neg (by decide),
    append_nil]
  intro a ha
  have hmem : a ∈ line := mem_of_mem_drop (mem_of_mem_take ha)
  exact decide_eq_true fun he => h0 (he ▸ hmem)

theorem Cmd.map_congr {V : Type} {f g : W → V} {c : Cmd W} (h : ∀ w ∈ c.words, f w = g w) :
    c.map f = c.map g := by
  induction c with
  | exec argv => exact congrArg Cmd.exec (map_congr_left h)
  | redir c r ih =>
    have hr : r.map f = r.map g := by
      rw [Redir.map, h r.file (mem_append_right _ mem_cons_self)]
      rfl
    rw [map, map, ih fun w hw => h w (mem_append_left _ hw), hr]
  | pipe left right ihl ihr | list _ _ ihl ihr =>
    rw [map, map, ihl fun w hw => h w (mem_append_left _ hw),
      ihr fun w hw => h w (mem_append_right _ hw)]
  | back c ih => exact congrArg back (ih h)

end Strings

/-! ## The whole line -/

section Whole

variable {line : Line} {fuel : Nat}

/-- The command that a derivation of the whole line stands for is the one that `parsecmd` returns. -/
theorem parsecmd_of_derives (h0 : 0 ∉ line) (hfuel : 4 * line.length + 8 ≤ fuel) {c : Cmd Word}
    (hc : Derives .line (tokens line 0) c) : parsecmd fuel line = .ok (c.map (text line)) := by
  have hlen : (tokens line 0).length ≤ line.length + 1 := tokens_length
  obtain ⟨e, hrun, hat⟩ := (parse_complete h0 fuel).1 0 _ c [] hc
    (by rw [append_nil]; exact .start line) (.inl rfl) (by omega)
  rw [parsecmd, hrun]
  show (if skip line e ≠ line.length then _ else _) = _
  rw [hat.finish h0, if_neg (not_not.mpr rfl), nulterminate_eq]
  refine congrArg Except.ok (map_congr fun w hw => ?_)
  exact cstring_eq_text h0 (fun v hv => isWord_of_mem_tokensFrom (hc.words hv)) hw

/-- A line that is not panicked on can be derived. -/
theorem derives_or_panic (h0 : 0 ∉ line) (hfuel : 4 * line.length + 8 ≤ fuel) :
    (∃ c, Derives .line (tokens line 0) c) ∨ ∃ m, parsecmd fuel line = .error (.panic m) := by
  have hlen : (tokens line 0).length ≤ line.length + 1 := tokens_length
  rcases (parse_spec h0 fuel).1 0 _ (.start line) (by omega) with ⟨c, e, us, vs, hrun, hts, hc, hat⟩ | ⟨m, hrun⟩
  · cases vs with
    | nil =>
      rw [append_nil] at hts
      exact .inl ⟨c, hts ▸ hc⟩
    | cons t vs =>
      refine .inr ⟨"syntax", ?_⟩
      rw [parsecmd, hrun]
      show (if skip line e ≠ line.length then _ else _) = _
      rw [if_pos hat.skip_lt.ne]
  · exact .inr ⟨m, by rw [parsecmd, hrun]; rfl⟩

/-- **The parser accepts exactly its grammar.**  For a line without NULs and enough fuel, `parsecmd`
comes to an end; it returns a command exactly if the tokens of the line can be derived, and then the
command, with its words as strings, is the one that the derivation prescribes; no two derivations
prescribe different commands. -/
theorem parsecmd_accepts_grammar (h0 : 0 ∉ line) (hfuel : 4 * line.length + 8 ≤ fuel) :
    parsecmd fuel line ≠ .error .fuel ∧
    (∀ cmd, parsecmd fuel line = .ok cmd ↔
      ∃ c, Derives .line (tokens line 0) c ∧ cmd = c.map (text line)) ∧
    ∀ c d, Derives .line (tokens line 0) c → Derives .line (tokens line 0) d → c = d := by
  have hcases := derives_or_panic h0 hfuel
  refine ⟨fun he => ?_, fun cmd => ⟨fun he => ?_, ?_⟩, fun c d hc hd => ?_⟩
  · rcases hcases with ⟨c, hc⟩ | ⟨m, hm⟩
    · rw [parsecmd_of_derives h0 hfuel hc] at he
      cases he
    · rw [hm] at he
      cases he
  · rcases hcases with ⟨c, hc⟩ | ⟨m, hm⟩
    · rw [parsecmd_of_derives h0 hfuel hc] at he
      exact ⟨c, hc, (Except.ok.inj he).symm⟩
    · rw [hm] at he
      cases he
  · rintro ⟨c, hc, rfl⟩
    exact parsecmd_of_derives h0 hfuel hc
  · have hlen : (tokens line 0).length ≤ line.length + 1 := tokens_length
    have htake : ∀ c, Derives .line (tokens line 0) c → Takes (parseline line fuel 0) c line [] :=
      fun c hc => (parse_complete h0 fuel).1 0 _ c [] hc (by rw [append_nil]; exact .start line)
        (.inl rfl) (by omega)
    obtain ⟨e, hrun, -⟩ := htake c hc
    obtain ⟨e', hrun', -⟩ := htake d hd
    rw [hrun] at hrun'
    exact congrArg Prod.fst (Except.ok.inj hrun')

/-- `ls >f|wc&;(a;b)` is accepted, and no command can be derived from `a & b`. -/
theorem parsecmd_accepts_grammar_lines :
    (∃ c, Derives .line (tokens (chars "ls >f|wc&;(a;b)") 0) c ∧
      c.map (text (chars "ls >f|wc&;(a;b)")) =
        .list (.back (.pipe (.redir (.exec [chars "ls"]) ⟨chars "f", 0x601, 1⟩) (.exec [chars "wc"])))
          (.list (.exec [chars "a"]) (.exec [chars "b"]))) ∧
    ¬∃ c, Derives .line (tokens (chars "a & b") 0) c := by
  constructor
  · have hrun : parsecmd 68 (chars "ls >f|wc&;(a;b)") = .ok
        (.list (.back (.pipe (.redir (.exec [chars "ls"]) ⟨chars "f", 0x601, 1⟩) (.exec [chars "wc"])))
          (.list (.exec [chars "a"]) (.exec [chars "b"]))) := by decide +kernel
    obtain ⟨c, hc, he⟩ :=
      ((@parsecmd_accepts_grammar (chars "ls >f|wc&;(a;b)") 68 (by decide) (by decide)).2.1 _).mp hrun
    exact ⟨c, hc, he.symm⟩
  · rintro ⟨c, hc⟩
    have hrun : parsecmd 28 (chars "a & b") = .error (.panic "syntax") := by decide +kernel
    have hok :=
      ((@parsecmd_accepts_grammar (chars "a & b") 28 (by decide) (by decide)).2.1 _).mpr ⟨c, hc, rfl⟩
    rw [hrun] at hok
    cases hok

end Whole

end Xv6.Sh
