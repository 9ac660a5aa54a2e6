/-
# Xv6.Proc.Defs — processes and open files (`kernel/proc.c`, `kernel/file.c`, `kernel/pipe.c` and the
system calls on descriptors of `kernel/sysfile.c`).

The process table and the file table are arrays, a null pointer is `none`, and the functions run one
system call at a time to its end: the locks they take are left out, and so are `wakeup` and the
scheduler.  A `wait` that would sleep returns nothing and changes nothing.  Inodes are the subject of
other modules: the current directory, `iput` and `idup` do not appear here.

`guard` is not a field of the source's `struct proc`: it records the page that `exec` cleared `PTE_U`
on, so that the layout of an address space can be stated.
-/
import Xv6.Param
import Xv6.Proc.Pagetable

namespace Xv6

open Lib Lib.Store Lib.Prog Function

/-! ## State -/

/-- `enum procstate`. -/
inductive ProcState where
  | UNUSED | USED | SLEEPING | RUNNABLE | RUNNING | ZOMBIE
  deriving DecidableEq, Repr

/-- `struct proc`. -/
structure Proc where
  state : ProcState
  killed : Bool
  xstate : BitVec 32
  pid : BitVec 32
  parent : Option (Fin NPROC)
  sz : Nat
  pagetable : Option Nat
  trapframe : Option Nat
  usyscall : Option Nat
  ofile : Fin NOFILE → Option (Fin NFILE)
  name : List Byte
  guard : Option Nat

/-- The kinds of open files. -/
inductive FileType where
  | FD_NONE | FD_PIPE | FD_INODE | FD_DEVICE
  deriving DecidableEq, Repr

/-- `struct file`. -/
structure File where
  type : FileType
  ref : Nat
  readable : Bool
  writable : Bool
  pipe : Nat

/-- The kernel's memory, its two tables and its counters. -/
structure Kernel where
  mach : Mach
  proc : Fin NPROC → Proc
  ftable : Fin NFILE → File
  nextpid : BitVec 32
  initproc : Option (Fin NPROC)

/-- Run a function on the memory. -/
def onMach {α : Type} (x : Prog Mach α) : Prog Kernel α :=
  zoom Kernel.mach (fun m k => { k with mach := m }) x

/-- Write fields of a process. -/
def setProc (i : Fin NPROC) (g : Proc → Proc) : Prog Kernel Unit :=
  modify fun k => { k with proc := update k.proc i (g (k.proc i)) }

/-- Write fields of an open file. -/
def setFile (f : Fin NFILE) (g : File → File) : Prog Kernel Unit :=
  modify fun k => { k with ftable := update k.ftable f (g (k.ftable f)) }

/-- Follow a pointer; page 0 is not mapped in the kernel, so a null pointer traps. -/
def deref {α : Type} : Option α → Prog Kernel α
  | none => kpanic "kerneltrap"
  | some a => pure a

/-- Store a word of `k` bytes. -/
def storeWord (k a : Nat) (v : BitVec (8 * k)) : Prog Mach Unit :=
  modify fun s => { s with mem := store k s.mem a v }

/-- The bytes of a word that is passed by its address. -/
def bytesOf {k : Nat} (v : BitVec (8 * k)) (i : Nat) : Byte := v.extractLsb' (8 * i) 8

/-! ## `kernel/file.c` and `kernel/pipe.c` -/

/-- Allocate a file structure. -/
def filealloc : Prog Kernel (Option (Fin NFILE)) := do
  let k ← get
  match (List.finRange NFILE).find? fun f => decide ((k.ftable f).ref = 0) with
  | none => pure none
  | some f =>
    setFile f fun x => { x with ref := 1 }
    pure (some f)

/-- Increment ref count for file `f`. -/
def filedup (f : Fin NFILE) : Prog Kernel (Fin NFILE) := do
  if ((← get).ftable f).ref < 1 then
    kpanic "filedup"
  else
    setFile f fun x => { x with ref := x.ref + 1 }
    pure f

/-- Offset of `readopen` in `struct pipe`. -/
def READOPEN : Nat := 544
/-- Offset of `writeopen` in `struct pipe`. -/
def WRITEOPEN : Nat := 548

/-- The offset of the flag of one end. -/
def flagOff (writable : Bool) : Nat := if writable then WRITEOPEN else READOPEN

/-- Close one end of a pipe, and free the pipe when both ends are closed. -/
def pipeclose (pi : Nat) (writable : Bool) : Prog Mach Unit := do
  storeWord 4 (pi + flagOff writable) 0
  let m := (← get).mem
  if load 4 m (pi + READOPEN) = 0 ∧ load 4 m (pi + WRITEOPEN) = 0 then
    kfree pi
  else
    pure ()

/-- Close file `f`.  (Decrement ref count, close when reaches 0.) -/
def fileclose (f : Fin NFILE) : Prog Kernel Unit := do
  let ff := (← get).ftable f
  if ff.ref < 1 then
    kpanic "fileclose"
  else if ff.ref - 1 > 0 then
    setFile f fun x => { x with ref := x.ref - 1 }
  else
    setFile f fun x => { x with ref := 0, type := .FD_NONE }
    -- an inode is released by `iput`
    if ff.type = .FD_PIPE then
      onMach (pipeclose ff.pipe ff.writable)
    else
      pure ()

/-- `if(f) fileclose(f)`. -/
def filecloseIf : Option (Fin NFILE) → Prog Kernel Unit
  | some f => fileclose f
  | none => pure ()

/-- `bad:` of `pipealloc`. -/
def pipeallocBad (f0 f1 : Option (Fin NFILE)) : Prog Kernel (Option (Fin NFILE × Fin NFILE)) := do
  filecloseIf f0
  filecloseIf f1
  pure none

/-- Allocate a pipe and the two files for its ends. -/
def pipealloc : Prog Kernel (Option (Fin NFILE × Fin NFILE)) := do
  match ← filealloc with
  | none => pipeallocBad none none
  | some f0 =>
    match ← filealloc with
    | none => pipeallocBad (some f0) none
    | some f1 =>
      match ← onMach kalloc with
      | none => pipeallocBad (some f0) (some f1)
      | some pi =>
        onMach (storeWord 4 (pi + READOPEN) 1)
        onMach (storeWord 4 (pi + WRITEOPEN) 1)
        setFile f0 fun x =>
          { x with type := .FD_PIPE, readable := true, writable := false, pipe := pi }
        setFile f1 fun x =>
          { x with type := .FD_PIPE, readable := false, writable := true, pipe := pi }
        pure (some (f0, f1))

/-! ## `kernel/proc.c` -/

def allocpid : Prog Kernel (BitVec 32) := do
  let pid := (← get).nextpid
  modify fun k => { k with nextpid := k.nextpid + 1 }
  pure pid

/-- `if(pa) kfree(pa)`. -/
def kfreeIf : Option Nat → Prog Kernel Unit
  | some pa => onMach (kfree pa)
  | none => pure ()

/-- `if(pagetable) proc_freepagetable(pagetable, sz)`. -/
def procFreepagetableIf (sz : Nat) : Option Nat → Prog Kernel Unit
  | some pagetable => onMach (procFreepagetable pagetable sz)
  | none => pure ()

/-- Free a proc structure and the data hanging from it, including user pages. -/
def freeproc (i : Fin NPROC) : Prog Kernel Unit := do
  kfreeIf ((← get).proc i).trapframe
  setProc i fun p => { p with trapframe := none }
  kfreeIf ((← get).proc i).usyscall
  setProc i fun p => { p with usyscall := none }
  procFreepagetableIf ((← get).proc i).sz ((← get).proc i).pagetable
  setProc i fun p => { p with
    pagetable := none, sz := 0, pid := 0, parent := none, name := [], killed := false, xstate := 0,
    state := .UNUSED, guard := none }

/-- Look in the process table for an `UNUSED` proc and give it a trapframe, a page shared with the
user and an empty page table. -/
def allocproc : Prog Kernel (Option (Fin NPROC)) := do
  let k ← get
  match (List.finRange NPROC).find? fun i => decide ((k.proc i).state = .UNUSED) with
  | none => pure none
  | some i =>
    let pid ← allocpid
    setProc i fun p => { p with pid := pid, state := .USED, guard := none }
    match ← onMach kalloc with
    | none =>
      freeproc i
      pure none
    | some tf =>
      setProc i fun p => { p with trapframe := some tf }
      match ← onMach kalloc with
      | none =>
        freeproc i
        pure none
      | some us =>
        setProc i fun p => { p with usyscall := some us }
        onMach (storeWord 4 us pid)
        match ← onMach (procPagetable tf us) with
        | none =>
          freeproc i
          pure none
        | some pt =>
          setProc i fun p => { p with pagetable := some pt }
          pure (some i)

/-- A user program that calls `exec("/init")`. -/
def initcode : List Byte :=
  [0x17, 0x05, 0x00, 0x00, 0x13, 0x05, 0x45, 0x02, 0x97, 0x05, 0x00, 0x00, 0x93, 0x85, 0x35, 0x02,
   0x93, 0x08, 0x70, 0x00, 0x73, 0x00, 0x00, 0x00, 0x93, 0x08, 0x20, 0x00, 0x73, 0x00, 0x00, 0x00,
   0xef, 0xf0, 0x9f, 0xff, 0x2f, 0x69, 0x6e, 0x69, 0x74, 0x00, 0x00, 0x24, 0x00, 0x00, 0x00, 0x00,
   0x00, 0x00, 0x00, 0x00]

/-- Offsets of the saved registers in `struct trapframe`, and its size. -/
def TF_EPC : Nat := 24
@[inherit_doc TF_EPC] def TF_SP : Nat := 48
@[inherit_doc TF_EPC] def TF_A0 : Nat := 112
@[inherit_doc TF_EPC] def TF_A1 : Nat := 120
@[inherit_doc TF_EPC] def TF_SIZE : Nat := 288

/-- Copy at most `n - 1` characters of a string. -/
def safestrcpy (t : List Byte) (n : Nat) : List Byte := (t.takeWhile (· ≠ 0)).take (n - 1)

/-- Set up first user process. -/
def userinit : Prog Kernel Unit := do
  let p ← allocproc
  modify fun k => { k with initproc := p }
  let i ← deref p
  let pt ← deref ((← get).proc i).pagetable
  onMach (uvmfirst pt initcode)
  setProc i fun p => { p with sz := PGSIZE }
  let tf ← deref ((← get).proc i).trapframe
  onMach (storeWord 8 (tf + TF_EPC) 0)
  onMach (storeWord 8 (tf + TF_SP) (BitVec.ofNat 64 PGSIZE))
  setProc i fun p => { p with
    name := [0x69, 0x6e, 0x69, 0x74, 0x63, 0x6f, 0x64, 0x65], state := .RUNNABLE }

/-- Grow or shrink user memory by `n` bytes. -/
def growproc (i : Fin NPROC) (n : BitVec 32) : Prog Kernel Int := do
  let p := (← get).proc i
  -- `sz + n` is computed in 64 bits
  let newsz := (p.sz + (n.signExtend 64).toNat) % 2 ^ 64
  if 0 < n.toInt then
    let pt ← deref p.pagetable
    let sz ← onMach (uvmalloc pt p.sz newsz PTE_W)
    if sz = 0 then
      pure (-1)
    else
      setProc i fun p => { p with sz := sz }
      pure 0
  else if n.toInt < 0 then
    let pt ← deref p.pagetable
    let sz ← onMach (uvmdealloc pt p.sz newsz)
    setProc i fun p => { p with sz := sz }
    pure 0
  else
    pure 0

/-- The descriptors of the parent that the child gets. -/
def dupOfiles (i np : Fin NPROC) : List (Fin NOFILE) → Prog Kernel Unit
  | [] => pure ()
  | fd :: fds => do
    (match ((← get).proc i).ofile fd with
      | some f => do
        let f ← filedup f
        setProc np fun p => { p with ofile := update p.ofile fd (some f) }
      | none => pure ())
    dupOfiles i np fds

/-- Create a new process, copying the parent. -/
def fork (i : Fin NPROC) : Prog Kernel Int := do
  match ← allocproc with
  | none => pure (-1)
  | some np =>
    let p := (← get).proc i
    let pt ← deref p.pagetable
    let npt ← deref ((← get).proc np).pagetable
    if (← onMach (uvmcopy pt npt p.sz)) < 0 then
      freeproc np
      pure (-1)
    else
      setProc np fun q => { q with sz := p.sz, guard := p.guard }
      let tf ← deref p.trapframe
      let ntf ← deref ((← get).proc np).trapframe
      onMach (memmove ntf tf TF_SIZE)
      onMach (storeWord 8 (ntf + TF_A0) 0)
      dupOfiles i np (List.finRange NOFILE)
      setProc np fun q => { q with name := safestrcpy p.name 16 }
      let pid := ((← get).proc np).pid
      setProc np fun q => { q with parent := some i, state := .RUNNABLE }
      pure pid.toInt

/-- Pass the abandoned children of `i` to init. -/
def reparent (i : Fin NPROC) : Prog Kernel Unit :=
  modify fun k => { k with proc := fun j =>
    if (k.proc j).parent = some i then { k.proc j with parent := k.initproc } else k.proc j }

/-- Close all open files. -/
def closeOfiles (i : Fin NPROC) : List (Fin NOFILE) → Prog Kernel Unit
  | [] => pure ()
  | fd :: fds => do
    (match ((← get).proc i).ofile fd with
      | some f => do
        fileclose f
        setProc i fun p => { p with ofile := update p.ofile fd none }
      | none => pure ())
    closeOfiles i fds

/-- Exit the current process; it remains a zombie until its parent calls `wait`. -/
def exit (i : Fin NPROC) (status : BitVec 32) : Prog Kernel Unit := do
  if (← get).initproc = some i then
    kpanic "init exiting"
  else
    closeOfiles i (List.finRange NOFILE)
    reparent i
    setProc i fun p => { p with xstate := status, state := .ZOMBIE }

/-- Wait for a child process to exit and return its pid; `none` if the caller goes to sleep. -/
def wait (i : Fin NPROC) (addr : Nat) : Prog Kernel (Option Int) := do
  let k ← get
  let p := k.proc i
  match (List.finRange NPROC).find? fun j =>
      decide ((k.proc j).parent = some i) && decide ((k.proc j).state = .ZOMBIE) with
  | some j =>
    let pt ← deref p.pagetable
    let r ← (if addr ≠ 0 then onMach (copyout pt addr (bytesOf (k := 4) (k.proc j).xstate) 4)
      else pure 0)
    if r < 0 then
      pure (some (-1))
    else
      freeproc j
      pure (some (k.proc j).pid.toInt)
  | none =>
    if (List.finRange NPROC).all (fun j => decide ((k.proc j).parent ≠ some i)) ∨ p.killed then
      pure (some (-1))
    else
      pure none

/-- Kill the process with the given pid. -/
def kill (pid : BitVec 32) : Prog Kernel Int := do
  let k ← get
  match (List.finRange NPROC).find? fun i => decide ((k.proc i).pid = pid) with
  | none => pure (-1)
  | some i =>
    setProc i fun p => { p with
      killed := true, state := if p.state = .SLEEPING then .RUNNABLE else p.state }
    pure 0

/-! ## `pgaccess` -/

/-- The loop of `pgaccess`, from page `i` on: the mask of the pages whose access bit it cleared. -/
def pgaccessLoop (pagetable va : Nat) : Nat → Nat → BitVec 32 → Prog Mach (BitVec 32)
  | 0, _, bitmasks => pure bitmasks
  | n + 1, i, bitmasks => do
    match ← walk pagetable ((va + i * PGSIZE) % 2 ^ 64) false with
    | none => pgaccessLoop pagetable va n (i + 1) bitmasks
    | some pte =>
      let e ← readPte pte
      -- `*pte && PTE_V` tests the whole entry; the shift takes the low five bits of `i`
      if e ≠ 0 ∧ e &&& PTE_A ≠ 0 then
        writePte pte (e &&& ~~~PTE_A)
        pgaccessLoop pagetable va n (i + 1) (bitmasks ||| 1#32 <<< (i % 32))
      else
        pgaccessLoop pagetable va n (i + 1) bitmasks

/-- Report which of `n` pages from `va` on were accessed, and clear their access bits. -/
def pgaccess (i : Fin NPROC) (va : Nat) (n : Nat) (accessAbits : Nat) : Prog Kernel Int := do
  let pt ← deref ((← get).proc i).pagetable
  let bitmasks ← onMach (pgaccessLoop pt va n 0 0)
  -- the result is not looked at
  let _ ← onMach (copyout pt accessAbits (bytesOf (k := 4) bitmasks) 4)
  pure 0

/-- `sys_pgaccess`. -/
def sysPgaccess (i : Fin NPROC) (va : Nat) (n : BitVec 32) (accessAbits : Nat) :
    Prog Kernel Int :=
  if n.toInt ≤ 0 ∨ n.toInt > 512 then
    pure (-1)
  else
    pgaccess i va n.toNat accessAbits

/-! ## `kernel/sysfile.c` -/

/-- Allocate a file descriptor for the given file. -/
def fdalloc (i : Fin NPROC) (f : Fin NFILE) : Prog Kernel (Option (Fin NOFILE)) := do
  let k ← get
  match (List.finRange NOFILE).find? fun fd => ((k.proc i).ofile fd).isNone with
  | none => pure none
  | some fd =>
    setProc i fun p => { p with ofile := update p.ofile fd (some f) }
    pure (some fd)

/-- Fetch a descriptor argument. -/
def argfd (i : Fin NPROC) (fd : BitVec 32) : Prog Kernel (Option (Fin NOFILE × Fin NFILE)) := do
  if h : fd.toInt < 0 ∨ fd.toNat ≥ NOFILE then
    pure none
  else
    let fd : Fin NOFILE := ⟨fd.toNat, by omega⟩
    pure ((((← get).proc i).ofile fd).map fun f => (fd, f))

/-- `sys_dup`. -/
def sysDup (i : Fin NPROC) (fd : BitVec 32) : Prog Kernel Int := do
  match ← argfd i fd with
  | none => pure (-1)
  | some (_, f) =>
    match ← fdalloc i f with
    | none => pure (-1)
    | some fd =>
      let _ ← filedup f
      pure fd

/-- `sys_close`. -/
def sysClose (i : Fin NPROC) (fd : BitVec 32) : Prog Kernel Int := do
  match ← argfd i fd with
  | none => pure (-1)
  | some (fd, f) =>
    setProc i fun p => { p with ofile := update p.ofile fd none }
    fileclose f
    pure 0

/-- `sys_pipe`: the two descriptors are stored at `fdarray`. -/
def sysPipe (i : Fin NPROC) (fdarray : Nat) : Prog Kernel Int := do
  match ← pipealloc with
  | none => pure (-1)
  | some (rf, wf) =>
    match ← fdalloc i rf with
    | none =>
      fileclose rf
      fileclose wf
      pure (-1)
    | some fd0 =>
      match ← fdalloc i wf with
      | none =>
        setProc i fun p => { p with ofile := update p.ofile fd0 none }
        fileclose rf
        fileclose wf
        pure (-1)
      | some fd1 =>
        let pt ← deref ((← get).proc i).pagetable
        let r0 ← onMach (copyout pt fdarray (bytesOf (k := 4) (BitVec.ofNat 32 fd0)) 4)
        let r ← (if r0 < 0 then pure r0 else
          onMach (copyout pt ((fdarray + 4) % 2 ^ 64) (bytesOf (k := 4) (BitVec.ofNat 32 fd1)) 4))
        if r < 0 then
          setProc i fun p => { p with ofile := update p.ofile fd0 none }
          setProc i fun p => { p with ofile := update p.ofile fd1 none }
          fileclose rf
          fileclose wf
          pure (-1)
        else
          pure 0

end Xv6
