/-
# Xv6.File.Defs — open files (`kernel/file.c`), and `consoleread` to user memory (`kernel/console.c`).

A call works on one open file.  The state has that file, the pipe it may refer to, the console, the file
system, and the memory in which the caller's page table is.  Where a call of `copyout` delivers bytes, the
function also returns these bytes: they are stored at the address given and after.

A call that goes to sleep in `piperead` evaluates the condition of its loop again when it wakes up, from the
state it finds then.  In `consoleread` a sleep can come between two bytes; `waits` says what each of them ends
with.
-/
import Xv6.Console
import Xv6.Fs.Update
import Xv6.Ipc.Read
import Xv6.Proc.Defs

namespace Xv6.Files

open Lib Lib.Prog

/-- Maximum major device number. -/
def NDEV : Int := 10
/-- The console is the only device that registers its functions in `devsw`. -/
def CONSOLE : BitVec 16 := 1

/-- `struct file`, less its reference count and its pipe. -/
structure OpenFile where
  type : FileType
  readable : Bool
  writable : Bool
  major : BitVec 16
  ip : Fs.Ptr
  off : BitVec 32

/-- What a call on an open file works on. -/
structure Io where
  mach : Mach
  pipe : Ipc.Pipe
  cons : Console.Cons
  fs : Fs.State
  f : OpenFile

/-- A function on the memory. -/
def inMach {α : Type} (x : Prog Mach α) : Prog Io α := zoom Io.mach (fun m io => { io with mach := m }) x

/-- A function on the file system. -/
def inFs {α : Type} (x : Prog Fs.State α) : Prog Io α := zoom Io.fs (fun fs io => { io with fs := fs }) x

/-! ## The console -/

/-- The ends of the sleeps of a call of `consoleread`: whether it was killed when it went to sleep, and the
console when it woke up. -/
abbrev Waits := List (Bool × Console.Cons)

/-- What the inner loop of `consoleread` comes to. -/
inductive Wait where
  | asleep
  | killed
  | ready (cons : Console.Cons) (waits : Waits)

/-- `while(cons.r == cons.w)`. -/
def consoleWait : Waits → Console.Cons → Wait
  | [], cons => if cons.r = cons.w then .asleep else .ready cons []
  | (killed, next) :: waits, cons =>
    if cons.r = cons.w then
      if killed then .killed else consoleWait waits next
    else
      .ready cons ((killed, next) :: waits)

/-- The loop of `consoleread`: what it returns (`none` if it still sleeps), the bytes stored, and the console. -/
def consolereadLoop (root : Nat) (target : Int) :
    (fuel dst : Nat) → (n : Int) → Console.Cons → Waits → Prog Mach (Option Int × List Byte × Console.Cons)
  | 0, _, n, cons, _ => pure (some (target - n), [], cons)
  | fuel + 1, dst, n, cons, waits =>
    if n > 0 then
      match consoleWait waits cons with
      | .asleep => pure (none, [], cons)
      | .killed => pure (some (-1), [], cons)
      | .ready cons waits => do
        let c := cons.buf (cell _ cons.r)
        let cons := { cons with r := cons.r + 1 }
        if c = Console.ctrlD then
          -- save ^D for next time, to make sure the caller gets a 0-byte result
          pure (some (target - n), [], if n < target then { cons with r := cons.r - 1 } else cons)
        else if (← copyout root (dst % 2 ^ 64) (fun _ => c) 1) = -1 then
          pure (some (target - n), [], cons)
        else if c = Console.newline then
          pure (some (target - (n - 1)), [c], cons)
        else
          let (r, bytes, cons) ← consolereadLoop root target fuel (dst + 1) (n - 1) cons waits
          pure (r, c :: bytes, cons)
    else
      pure (some (target - n), [], cons)

/-- User `read()`s from the console go here. -/
def consoleread (root dst : Nat) (n : Int) (waits : Waits) (cons : Console.Cons) :
    Prog Mach (Option Int × List Byte × Console.Cons) :=
  consolereadLoop root n n.toNat dst n cons waits

/-! ## `fileread` -/

/-- The bytes of the pipe of a call of `piperead` that returns `r`. -/
def pipeBytes (pi : Ipc.Pipe) (r : Option Int) : List Byte :=
  (List.range (r.getD 0).toNat).map fun j => pi.data (cell _ (pi.nread + BitVec.ofNat 32 j))

/-- `r` of `fileread` and `filewrite`, an int; `readi` and `writei` return -1 or an unsigned number. -/
def toInt (r : Option Nat) : Int :=
  match r with
  | none => -1
  | some t => (BitVec.ofNat 32 t).toInt

/-- `fileread` of an inode.  An address from `MAXVA` on is not accessible, so none of the addresses that count
is beyond 64 bits. -/
def filereadInode (root addr : Nat) (n : BitVec 32) : Prog Io (Option Int × List Byte) := do
  let f := (← get).f
  inFs (Fs.ilock f.ip)
  let mem := (← get).mach.mem
  let (r, bytes) ← inFs (Fs.readi f.ip (fun j => decide (AccessibleAt mem root (addr + j))) f.off.toNat n.toNat)
  let _ ← inMach (copyout root addr (fun j => bytes.getD j 0) bytes.length)
  let r := toInt r
  (if r > 0 then modify fun io => { io with f := { io.f with off := io.f.off + BitVec.ofInt 32 r } } else pure ())
  inFs (Fs.iunlock f.ip)
  pure (some r, bytes)

/-- Read from the file: what is returned, and the bytes stored at `addr`. -/
def fileread (root addr : Nat) (n : BitVec 32) (killed : Bool) (waits : Waits) :
    Prog Io (Option Int × List Byte) := do
  let io ← get
  if io.f.readable = false then
    pure (some (-1), [])
  else
    match io.f.type with
    | .FD_PIPE => do
      let (r, pi) ← inMach (Ipc.piperead root addr n.toInt killed io.pipe)
      modify fun io => { io with pipe := pi }
      pure (r, pipeBytes io.pipe r)
    | .FD_DEVICE =>
      if io.f.major.toInt < 0 ∨ io.f.major.toInt ≥ NDEV ∨ io.f.major ≠ CONSOLE then
        pure (some (-1), [])
      else do
        let (r, bytes, cons) ← inMach (consoleread root addr n.toInt waits io.cons)
        modify fun io => { io with cons := cons }
        pure (r, bytes)
    | .FD_INODE => filereadInode root addr n
    | .FD_NONE => stop "fileread"

end Xv6.Files
