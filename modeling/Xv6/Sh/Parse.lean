/-
# Xv6.Sh.Parse — the parser of the shell (`user/sh.c`).

A line is its list of bytes, without the NUL behind it; a pointer into it is a position, and `*s` at the
end reads the NUL.  A word is the pair of its `q` and `eq`.  `malloc` succeeds.

`parseexec` fills in the arguments of its command while redirections are wrapped around it.  The model
keeps the arguments and the redirections apart and wraps at the end.

The functions take fuel and stop with `Stop.fuel` when it is used up; how much is enough is a theorem.
-/
import Xv6.Lib.Bytes
import Xv6.Lib.Scan

namespace Xv6.Sh

open Lib

def MAXARGS : Nat := 10

def O_RDONLY : Nat := 0x000
def O_WRONLY : Nat := 0x001
def O_CREATE : Nat := 0x200
def O_TRUNC : Nat := 0x400

/-- The byte of a character. -/
def ch (c : Char) : Byte := BitVec.ofNat 8 c.toNat

/-- The bytes of a string. -/
def chars (s : String) : List Byte := s.toList.map ch

abbrev Line := List Byte

def whitespace : List Byte := chars " \t\r\n\x0b"

def symbols : List Byte := chars "<|>&;()"

/-- `*s`. -/
def charAt (line : Line) (s : Nat) : Byte := line.getD s 0

/-- The instance behind `c ∈ whitespace`, under one name. -/
scoped instance : LawfulBEq Byte := inferInstance

def skip (line : Line) (s : Nat) : Nat := scan line (· ∈ whitespace) s

/-- A word: where it starts and where it ends. -/
abbrev Word := Nat × Nat

/-- What `gettoken` returns, other than 0: one of the symbols, `+` for `>>`, or `a` with its word. -/
inductive Token (W : Type) where
  | bar
  | lparen
  | rparen
  | semi
  | amp
  | lt
  | gt
  | app
  | word (w : W)
  deriving DecidableEq

/-- The `switch` of `gettoken`, at the first byte of a token: the token and where it ends. -/
def lex (line : Line) (s : Nat) : Option (Token Word × Nat) :=
  let c := charAt line s
  if c = 0 then none
  else if c = ch '|' then some (.bar, s + 1)
  else if c = ch '(' then some (.lparen, s + 1)
  else if c = ch ')' then some (.rparen, s + 1)
  else if c = ch ';' then some (.semi, s + 1)
  else if c = ch '&' then some (.amp, s + 1)
  else if c = ch '<' then some (.lt, s + 1)
  else if c = ch '>' then
    if charAt line (s + 1) = ch '>' then some (.app, s + 2) else some (.gt, s + 1)
  else
    let e := scan line (fun c => c ∉ whitespace ∧ c ∉ symbols) s
    some (.word (s, e), e)

/-- `gettoken`: the token (`none` is 0) and where the next one is looked for. -/
def gettoken (line : Line) (s : Nat) : Option (Token Word) × Nat :=
  let s := skip line s
  match lex line s with
  | none => (none, skip line s)
  | some (t, s) => (some t, skip line s)

def peek (line : Line) (s : Nat) (toks : String) : Bool × Nat :=
  let s := skip line s
  (charAt line s ≠ 0 ∧ charAt line s ∈ chars toks, s)

/-- `struct redircmd`, less its command. -/
structure Redir (W : Type) where
  file : W
  mode : Nat
  fd : Nat
  deriving DecidableEq

/-- `struct cmd`. -/
inductive Cmd (W : Type) where
  | exec (argv : List W)
  | redir (cmd : Cmd W) (r : Redir W)
  | pipe (left right : Cmd W)
  | list (left right : Cmd W)
  | back (cmd : Cmd W)
  deriving DecidableEq

/-- A command with redirections around it, the first one innermost. -/
def Cmd.wrap {W : Type} (cmd : Cmd W) (rs : List (Redir W)) : Cmd W := rs.foldl .redir cmd

inductive Stop where
  | panic (msg : String)
  | fuel
  deriving DecidableEq

/-- The `switch` of `parseredirs`. -/
def redirOf {W : Type} (file : W) : Token W → List (Redir W)
  | .lt => [⟨file, O_RDONLY, 0⟩]
  | .gt => [⟨file, O_WRONLY ||| O_CREATE ||| O_TRUNC, 1⟩]
  | .app => [⟨file, O_WRONLY ||| O_CREATE, 1⟩]
  | _ => []

/-- `parseredirs`, on the redirections around a command. -/
def parseredirs (line : Line) : Nat → List (Redir Word) → Nat → Except Stop (List (Redir Word) × Nat)
  | 0, _, _ => .error .fuel
  | fuel + 1, rs, s =>
    match peek line s "<>" with
    | (false, s) => .ok (rs, s)
    | (true, s) =>
      let (tok, s) := gettoken line s
      match gettoken line s with
      | (some (.word w), s) => parseredirs line fuel (rs ++ (tok.map (redirOf w)).getD []) s
      | _ => .error (.panic "missing file for redirection")

/-- The loop of `parseexec`. -/
def parseargs (line : Line) : Nat → List Word → List (Redir Word) → Nat →
    Except Stop (Cmd Word × Nat)
  | 0, _, _, _ => .error .fuel
  | fuel + 1, argv, rs, s =>
    match peek line s "|)&;" with
    | (true, s) => .ok ((Cmd.exec argv).wrap rs, s)
    | (false, s) =>
      match gettoken line s with
      | (none, s) => .ok ((Cmd.exec argv).wrap rs, s)
      | (some (.word w), s) =>
        if (argv ++ [w]).length ≥ MAXARGS then .error (.panic "too many args")
        else
          parseredirs line fuel rs s >>= fun (rs, s) => parseargs line fuel (argv ++ [w]) rs s
      | _ => .error (.panic "syntax")

/-- The first loop of `parseline`. -/
def parseamps (line : Line) : Nat → Cmd Word → Nat → Except Stop (Cmd Word × Nat)
  | 0, _, _ => .error .fuel
  | fuel + 1, cmd, s =>
    match peek line s "&" with
    | (true, s) => parseamps line fuel (.back cmd) (gettoken line s).2
    | (false, s) => .ok (cmd, s)

mutual

def parseline (line : Line) : Nat → Nat → Except Stop (Cmd Word × Nat)
  | 0, _ => .error .fuel
  | fuel + 1, s =>
    parsepipe line fuel s >>= fun (cmd, s) =>
    parseamps line fuel cmd s >>= fun (cmd, s) =>
    match peek line s ";" with
    | (true, s) =>
      parseline line fuel (gettoken line s).2 >>= fun (right, s) => .ok (.list cmd right, s)
    | (false, s) => .ok (cmd, s)

def parsepipe (line : Line) : Nat → Nat → Except Stop (Cmd Word × Nat)
  | 0, _ => .error .fuel
  | fuel + 1, s =>
    parseexec line fuel s >>= fun (cmd, s) =>
    match peek line s "|" with
    | (true, s) =>
      parsepipe line fuel (gettoken line s).2 >>= fun (right, s) => .ok (.pipe cmd right, s)
    | (false, s) => .ok (cmd, s)

def parseblock (line : Line) : Nat → Nat → Except Stop (Cmd Word × Nat)
  | 0, _ => .error .fuel
  | fuel + 1, s =>
    match peek line s "(" with
    | (false, _) => .error (.panic "parseblock")
    | (true, s) =>
      parseline line fuel (gettoken line s).2 >>= fun (cmd, s) =>
      match peek line s ")" with
      | (false, _) => .error (.panic "syntax - missing )")
      | (true, s) =>
        parseredirs line fuel [] (gettoken line s).2 >>= fun (rs, s) => .ok (cmd.wrap rs, s)

def parseexec (line : Line) : Nat → Nat → Except Stop (Cmd Word × Nat)
  | 0, _ => .error .fuel
  | fuel + 1, s =>
    match peek line s "(" with
    | (true, s) => parseblock line fuel s
    | (false, s) =>
      parseredirs line fuel [] s >>= fun (rs, s) => parseargs line fuel [] rs s

end

/-- `nulterminate`, on the bytes of the line and the NUL behind it. -/
def nulterminate : Cmd Word → List Byte → List Byte
  | .exec argv, buf => argv.foldl (fun buf w => buf.set w.2 0) buf
  | .redir cmd r, buf => (nulterminate cmd buf).set r.file.2 0
  | .pipe left right, buf => nulterminate right (nulterminate left buf)
  | .list left right, buf => nulterminate right (nulterminate left buf)
  | .back cmd, buf => nulterminate cmd buf

/-- The string at a position. -/
def cstring (buf : List Byte) (s : Nat) : List Byte := (buf.drop s).takeWhile (· ≠ 0)

def Redir.map {W V : Type} (f : W → V) (r : Redir W) : Redir V := ⟨f r.file, r.mode, r.fd⟩

def Cmd.map {W V : Type} (f : W → V) : Cmd W → Cmd V
  | .exec argv => .exec (argv.map f)
  | .redir cmd r => .redir (cmd.map f) (r.map f)
  | .pipe left right => .pipe (left.map f) (right.map f)
  | .list left right => .list (left.map f) (right.map f)
  | .back cmd => .back (cmd.map f)

/-- `parsecmd`: the command with the strings that its pointers lead to. -/
def parsecmd (fuel : Nat) (line : Line) : Except Stop (Cmd (List Byte)) :=
  parseline line fuel 0 >>= fun (cmd, s) =>
  let (_, s) := peek line s ""
  if s ≠ line.length then .error (.panic "syntax")
  else
    let buf := nulterminate cmd (line ++ [0])
    .ok (cmd.map fun w => cstring buf w.1)

end Xv6.Sh
