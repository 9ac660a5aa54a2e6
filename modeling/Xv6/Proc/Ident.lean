/-
# Xv6.Proc.Ident — process identifiers and `kill`.

The state, the pid and the `killed` flag of a process are written by few functions: `allocproc` and
`freeproc`, `fork` and `exit` at their end, and `kill`.  Everything else keeps them, which is proved
here by one rule per construct; what those few functions do is one relation, `IdStep`.
-/
import Xv6.Proc.Isolation

namespace Xv6

open Lib Lib.Store Lib.Prog Function List Prod Kernel

variable {n : BitVec 32} {x : Ident} {α : Type}

/-! ## What is kept -/

/-- The fields that identify a process. -/
structure Ident where
  state : ProcState
  pid : BitVec 32
  killed : Bool
  deriving DecidableEq

def Proc.ident (p : Proc) : Ident := ⟨p.state, p.pid, p.killed⟩

/-- The identities of all processes, and the next pid. -/
def Kernel.ids (k : Kernel) : (Fin NPROC → Ident) × BitVec 32 := (fun i => (k.proc i).ident, k.nextpid)

variable {k k' : Kernel} {i j : Fin NPROC}

theorem ids_onMach {x : Prog Mach α} : Preserves ids (onMach x) :=
  preserves_onMach fun _ _ => rfl

theorem ids_setFile {g : File → File} : Preserves ids (setFile f g) :=
  .modify fun _ => rfl

theorem ids_update (k : Kernel) (i : Fin NPROC) (p : Proc) :
    ({ k with proc := update k.proc i p } : Kernel).ids =
      (update k.ids.1 i p.ident, k.nextpid) := by
  refine Prod.ext (funext fun j => ?_) rfl
  by_cases hj : j = i
  · subst hj
    simp [ids]
  · simp [ids, update_of_ne hj]

theorem ids_setProc {g : Proc → Proc} (h : ∀ p, (g p).ident = p.ident) :
    Preserves ids (setProc i g) :=
  .modify fun k => by
    rw [ids_update, h]
    exact Prod.ext (update_eq_self i _) rfl

theorem ids_deref : Preserves ids (deref o) := by
  cases o with
  | none => exact .stop
  | some a => exact .pure

/-! ### Files and pipes -/

theorem ids_fileclose (f : Fin NFILE) : Preserves ids (fileclose f) := by
  refine .bind .get fun k => .ite .stop (.ite ids_setFile ?_)
  exact .bind ids_setFile fun _ => .ite ids_onMach .pure

theorem ids_filedup (f : Fin NFILE) : Preserves ids (filedup f) :=
  .bind .get fun _ => .ite .stop (.bind ids_setFile fun _ => .pure)

theorem ids_filealloc : Preserves ids filealloc := by
  refine .bind .get fun k => ?_
  split
  · exact .pure
  · exact .bind ids_setFile fun _ => .pure

theorem ids_filecloseIf (o : Option (Fin NFILE)) : Preserves ids (filecloseIf o) := by
  cases o with
  | none => exact .pure
  | some f => exact ids_fileclose f

theorem ids_pipeallocBad (f0 f1 : Option (Fin NFILE)) : Preserves ids (pipeallocBad f0 f1) :=
  .bind (ids_filecloseIf f0) fun _ => .bind (ids_filecloseIf f1) fun _ => .pure

theorem ids_pipealloc : Preserves ids pipealloc := by
  refine .bind ids_filealloc fun o => ?_
  split
  · exact ids_pipeallocBad _ _
  refine .bind ids_filealloc fun o => ?_
  split
  · exact ids_pipeallocBad _ _
  refine .bind ids_onMach fun o => ?_
  split
  · exact ids_pipeallocBad _ _
  exact .bind ids_onMach fun _ => .bind ids_onMach fun _ =>
    .bind ids_setFile fun _ => .bind ids_setFile fun _ => .pure

theorem ids_setFd (i : Fin NPROC) (fd : Fin NOFILE) (o : Option (Fin NFILE)) :
    Preserves ids (setProc i fun p => { p with ofile := update p.ofile fd o }) :=
  ids_setProc fun _ => rfl

theorem ids_fdalloc (i : Fin NPROC) (f : Fin NFILE) : Preserves ids (fdalloc i f) := by
  refine .bind .get fun k => ?_
  split
  · exact .pure
  · exact .bind (ids_setFd i _ _) fun _ => .pure

theorem ids_argfd (i : Fin NPROC) (fd : BitVec 32) : Preserves ids (argfd i fd) := by
  rw [argfd]
  split
  · exact .pure
  · exact .bind .get fun _ => .pure

theorem ids_sysDup (i : Fin NPROC) (fd : BitVec 32) : Preserves ids (sysDup i fd) := by
  refine .bind (ids_argfd i fd) fun o => ?_
  split
  · exact .pure
  refine .bind (ids_fdalloc i _) fun o => ?_
  split
  · exact .pure
  · exact .bind (ids_filedup _) fun _ => .pure

theorem ids_sysClose (i : Fin NPROC) (fd : BitVec 32) : Preserves ids (sysClose i fd) := by
  refine .bind (ids_argfd i fd) fun o => ?_
  split
  · exact .pure
  · exact .bind (ids_setFd i _ _) fun _ => .bind (ids_fileclose _) fun _ => .pure

/-- Two files are closed and -1 is returned. -/
theorem ids_close_both (f g : Fin NFILE) :
    Preserves ids (do fileclose f; fileclose g; pure (-1 : Int)) :=
  .bind (ids_fileclose f) fun _ => .bind (ids_fileclose g) fun _ => .pure

theorem ids_sysPipe (i : Fin NPROC) (fdarray : Nat) : Preserves ids (sysPipe i fdarray) := by
  refine .bind ids_pipealloc fun o => ?_
  split
  · exact .pure
  refine .bind (ids_fdalloc i _) fun o => ?_
  split
  · exact ids_close_both _ _
  refine .bind (ids_fdalloc i _) fun o => ?_
  split
  · exact .bind (ids_setFd i _ _) fun _ => ids_close_both _ _
  refine .bind .get fun k => .bind ids_deref fun pt => ?_
  refine .bind ids_onMach fun r0 => .bind ?_ fun r => ?_
  · exact .ite .pure ids_onMach
  · refine .ite ?_ .pure
    exact .bind (ids_setFd i _ _) fun _ => .bind (ids_setFd i _ _) fun _ =>
      ids_close_both _ _

/-! ### Memory -/

theorem ids_growproc (i : Fin NPROC) (n : BitVec 32) : Preserves ids (growproc i n) := by
  refine .bind .get fun k => .ite ?_ (.ite ?_ .pure)
  · refine .bind ids_deref fun pt => .bind ids_onMach fun sz => ?_
    exact .ite .pure (.bind (ids_setProc fun _ => rfl) fun _ => .pure)
  · refine .bind ids_deref fun pt => .bind ids_onMach fun sz => ?_
    exact .bind (ids_setProc fun _ => rfl) fun _ => .pure

theorem ids_fetchaddr (i : Fin NPROC) (addr : Nat) : Preserves ids (fetchaddr i addr) := by
  refine .bind .get fun k => .ite .pure ?_
  refine .bind ids_deref fun pt => .bind ids_onMach fun r => ?_
  exact .ite .pure .pure

theorem ids_fetchstr (i : Fin NPROC) (addr max : Nat) : Preserves ids (fetchstr i addr max) :=
  .bind .get fun _ => .bind ids_deref fun _ => ids_onMach

theorem ids_fetchArgs (i : Fin NPROC) (uargv n : Nat) (argv : List Nat) :
    Preserves ids (fetchArgs i uargv n argv) := by
  induction n generalizing argv with
  | zero => exact .pure
  | succ n ih =>
    refine .bind (ids_fetchaddr i _) fun o => ?_
    split
    · exact .pure
    refine .ite .pure (.bind ids_onMach fun o => ?_)
    split
    · exact .pure
    refine .bind (ids_fetchstr i _ _) fun r => .bind ids_onMach fun _ => ?_
    exact .ite .pure (ih _)

theorem ids_kfreeArgs (argv : List Nat) : Preserves ids (kfreeArgs argv) := by
  induction argv with
  | nil => exact .pure
  | cons pa argv ih => exact .bind ids_onMach fun _ => ih

theorem ids_exec (fs : List Byte → Option (List Byte)) (i : Fin NPROC) (path : List Byte)
    (argv : List Nat) : Preserves ids (exec fs i path argv) := by
  rw [exec]
  split
  · exact .pure
  refine .bind .get fun k => .bind ids_onMach fun o => ?_
  split
  · exact .pure
  refine .bind ids_deref fun tf => .bind ids_onMach fun _ => ?_
  refine .bind (ids_setProc fun _ => rfl) fun _ => ?_
  refine .bind (ids_setProc fun _ => rfl) fun _ => ?_
  refine .bind ids_onMach fun _ => .bind ids_onMach fun _ => ?_
  exact .bind ids_deref fun _ => .bind ids_onMach fun _ => .pure

theorem ids_sysExec (fs : List Byte → Option (List Byte)) (i : Fin NPROC) (upath uargv : Nat) :
    Preserves ids (sysExec fs i upath uargv) := by
  refine .bind (ids_fetchstr i _ _) fun r => .ite .pure ?_
  refine .bind (ids_fetchArgs i _ _ _) fun r => .ite ?_ ?_
  · exact .bind (ids_exec fs i _ _) fun _ => .bind (ids_kfreeArgs _) fun _ => .pure
  · exact .bind (ids_kfreeArgs _) fun _ => .pure

theorem ids_sysPgaccess (i : Fin NPROC) (va : Nat) (n : BitVec 32) (accessAbits : Nat) :
    Preserves ids (sysPgaccess i va n accessAbits) := by
  refine .ite .pure (.bind .get fun k => .bind ids_deref fun pt => ?_)
  exact .bind ids_onMach fun _ => .bind ids_onMach fun _ => .pure

theorem ids_procCopyout (i : Fin NPROC) (dst : Nat) (src : Nat → Byte) (len : Nat) :
    Preserves ids (procCopyout i dst src len) :=
  .bind .get fun _ => .bind ids_deref fun _ => ids_onMach

theorem ids_userAccess (i : Fin NPROC) (va : Nat) (w : Option Byte) :
    Preserves ids (userAccess i va w) :=
  .bind .get fun _ => .bind ids_deref fun _ => ids_onMach

/-! ### The descriptors of `fork` and `exit` -/

theorem ids_dupOfiles (i np : Fin NPROC) (fds : List (Fin NOFILE)) :
    Preserves ids (dupOfiles i np fds) := by
  induction fds with
  | nil => exact .pure
  | cons fd fds ih =>
    refine .bind .get fun k => .bind ?_ fun _ => ih
    split
    · exact .bind (ids_filedup _) fun _ => ids_setFd np fd _
    · exact .pure

theorem ids_closeOfiles (i : Fin NPROC) (fds : List (Fin NOFILE)) :
    Preserves ids (closeOfiles i fds) := by
  induction fds with
  | nil => exact .pure
  | cons fd fds ih =>
    refine .bind .get fun k => .bind ?_ fun _ => ih
    split
    · exact .bind (ids_fileclose _) fun _ => ids_setFd i fd _
    · exact .pure

theorem ids_reparent (i : Fin NPROC) : Preserves ids (reparent i) := by
  refine .modify fun k => Prod.ext (funext fun j => ?_) rfl
  dsimp only [ids]
  split <;> rfl

/-! ## What is changed -/

/-- From `k` to `k'` the identity of process `j` became `x`, and `n` is the next pid. -/
def IdsTo (k k' : Kernel) (j : Fin NPROC) (x : Ident) (n : BitVec 32) : Prop :=
  k'.ids = (update k.ids.1 j x, n)

theorem IdsTo.self (h : IdsTo k k' j x n) : (k'.proc j).ident = x :=
  (congrFun (congrArg fst h) j).trans (update_self ..)

theorem IdsTo.ne (h : IdsTo k k' j x n) (hi : i ≠ j) : (k'.proc i).ident = (k.proc i).ident :=
  (congrFun (congrArg fst h) i).trans (update_of_ne hi ..)

theorem IdsTo.nextpid (h : IdsTo k k' j x n) : k'.nextpid = n :=
  congrArg snd h

/-- One change after another to the same process. -/
theorem IdsTo.trans (h : IdsTo k k' j x n)
    (h' : IdsTo k' k'' j y n') : IdsTo k k'' j y n' := by
  rw [IdsTo, h', h]
  exact Prod.ext (update_idem ..) rfl

theorem IdsTo.keep (h : IdsTo k k' j x n) (h' : k''.ids = k'.ids) :
    IdsTo k k'' j x n :=
  h'.trans h

theorem IdsTo.after (h₁ : k₁.ids = k.ids) (h : IdsTo k₁ k' j x n) : IdsTo k k' j x n := by
  rw [IdsTo, ← h₁]
  exact h

theorem wlp_setProc_ids (j : Fin NPROC) (g : Proc → Proc) (k : Kernel) :
    wlp (setProc j g) (fun _ k' => IdsTo k k' j (g (k.proc j)).ident k.nextpid) k := by
  intro a k' hrun
  cases hrun
  exact ids_update k j _

/-- The identity of a process that is not there. -/
def nobody : Ident := ⟨.UNUSED, 0, false⟩

theorem wlp_freeproc_ids (j : Fin NPROC) (k : Kernel) :
    wlp (freeproc j) (fun _ k' => IdsTo k k' j nobody k.nextpid) k := by
  have hkeep : ∀ {α : Type} {x : Prog Kernel α} {f : α → Prog Kernel Unit} {k1 : Kernel},
      Preserves ids x → k1.ids = k.ids →
      (∀ a k2, k2.ids = k.ids → wlp (f a) (fun _ k' => IdsTo k k' j nobody k.nextpid) k2) →
      wlp (x >>= f) (fun _ k' => IdsTo k k' j nobody k.nextpid) k1 :=
    fun hx h1 hf => wlp_seq (hx _) fun a k2 h2 => hf a k2 (h2.trans h1)
  have hfree : ∀ o, Preserves ids (kfreeIf o) := fun o => by
    cases o with
    | none => exact .pure
    | some pa => exact ids_onMach
  have htable : ∀ sz o, Preserves ids (procFreepagetableIf sz o) := fun sz o => by
    cases o with
    | none => exact .pure
    | some pt => exact ids_onMach
  rw [freeproc]
  refine hkeep .get rfl fun _ k1 h1 => hkeep (hfree _) h1 fun _ k1 h1 => ?_
  refine hkeep (ids_setProc fun _ => rfl) h1 fun _ k1 h1 => hkeep .get h1 fun _ k1 h1 => ?_
  refine hkeep (hfree _) h1 fun _ k1 h1 => hkeep (ids_setProc fun _ => rfl) h1 fun _ k1 h1 => ?_
  refine hkeep .get h1 fun _ k1 h1 => hkeep .get h1 fun _ k1 h1 => ?_
  refine hkeep (htable _ _) h1 fun _ k1 h1 a k' hrun => ?_
  rw [← show k1.nextpid = k.nextpid from congrArg snd h1]
  exact (wlp_setProc_ids j _ k1 a k' hrun).after h1

/-- A function that keeps the identities, then the rest. -/
theorem IdsTo.wlp_seq {β : Type} {x : Prog Kernel α} {f : α → Prog Kernel β} {Q : β → Kernel → Prop}
    {y : Ident} (h : IdsTo k k' j y n) (hx : Preserves ids x)
    (hf : ∀ a k'', IdsTo k k'' j y n → wlp (f a) Q k'') : wlp (x >>= f) Q k' :=
  Prog.wlp_seq (hx k') fun a k'' hk => hf a k'' (h.keep hk)

/-- What `allocproc` does: a slot that was unused gets the next pid and keeps its `killed` flag; if it
fails, a pid may be spent and the slot cleared. -/
def Allocated (k : Kernel) (r : Option (Fin NPROC)) (k' : Kernel) : Prop :=
  (r = none ∧ k'.ids = k.ids) ∨ ∃ j, (k.proc j).state = .UNUSED ∧
    ((r = none ∧ IdsTo k k' j nobody (k.nextpid + 1)) ∨
    (r = some j ∧ IdsTo k k' j ⟨.USED, k.nextpid, (k.proc j).killed⟩ (k.nextpid + 1)))

theorem wlp_allocproc_ids (k : Kernel) : wlp allocproc (fun r k' => Allocated k r k') k := by
  rw [allocproc]
  refine wlp_bind (wp_get ?_).wlp
  cases hfind : (finRange NPROC).find? fun i => decide ((k.proc i).state = .UNUSED) with
  | none => exact wlp_pure (.inl ⟨rfl, rfl⟩)
  | some j =>
    have hj := find?_some hfind
    replace hj : (k.proc j).state = .UNUSED := of_decide_eq_true hj
    -- once the pid is taken, the slot is cleared or returned
    have hfail : ∀ {k1 : Kernel} {x : Ident}, IdsTo k k1 j x (k.nextpid + 1) →
        wlp (do freeproc j; pure none) (fun r k' => Allocated k r k') k1 := by
      intro k1 x h1
      refine wlp_seq (wlp_freeproc_ids j k1) fun _ k2 h2 => wlp_pure (.inr ⟨j, hj, .inl ⟨rfl, ?_⟩⟩)
      rw [h1.nextpid] at h2
      exact h1.trans h2
    refine wlp_seq (P := fun pid k1 => pid = k.nextpid ∧
      k1 = { k with nextpid := k.nextpid + 1 }) ?_ ?_
    · intro pid k1 hrun
      cases hrun
      exact ⟨rfl, rfl⟩
    rintro _ _ ⟨rfl, rfl⟩
    refine wlp_seq (wlp_setProc_ids j _ _) fun _ k1 h1 => ?_
    replace h1 : IdsTo k k1 j ⟨.USED, k.nextpid, (k.proc j).killed⟩ (k.nextpid + 1) := h1
    refine h1.wlp_seq ids_onMach fun o k2 h2 => ?_
    cases o with
    | none => exact hfail h2
    | some tf =>
      refine h2.wlp_seq (ids_setProc fun _ => rfl) fun _ k3 h3 => ?_
      refine h3.wlp_seq ids_onMach fun o k4 h4 => ?_
      cases o with
      | none => exact hfail h4
      | some us =>
        refine h4.wlp_seq (ids_setProc fun _ => rfl) fun _ k5 h5 => ?_
        refine h5.wlp_seq ids_onMach fun _ k6 h6 => h6.wlp_seq ids_onMach fun o k7 h7 => ?_
        cases o with
        | none => exact hfail h7
        | some pt =>
          refine h7.wlp_seq (ids_setProc fun _ => rfl) fun _ k8 h8 => ?_
          exact wlp_pure (.inr ⟨j, hj, .inr ⟨rfl, h8⟩⟩)

/-- The next change of the same process. -/
theorem IdsTo.wlp_set (h : IdsTo k k' j x n) (g : Proc → Proc) :
    wlp (setProc j g) (fun _ k'' => IdsTo k k'' j (g (k'.proc j)).ident n) k' := by
  intro a k'' hrun
  have hset := wlp_setProc_ids j g k' a k'' hrun
  rw [h.nextpid] at hset
  exact h.trans hset

/-- What `fork` does: as `allocproc`, and the child can run. -/
def Forked (k k' : Kernel) : Prop :=
  k'.ids = k.ids ∨ ∃ j, (k.proc j).state = .UNUSED ∧
    (IdsTo k k' j nobody (k.nextpid + 1) ∨
    IdsTo k k' j ⟨.RUNNABLE, k.nextpid, (k.proc j).killed⟩ (k.nextpid + 1))

theorem wlp_fork_ids (i : Fin NPROC) (k : Kernel) : wlp (fork i) (fun _ k' => Forked k k') k := by
  rw [fork]
  refine wlp_seq (wlp_allocproc_ids k) ?_
  rintro r k1 (⟨rfl, h1⟩ | ⟨np, hnp, ⟨rfl, h1⟩ | ⟨rfl, h1⟩⟩)
  · exact wlp_pure (.inl h1)
  · exact wlp_pure (.inr ⟨np, hnp, .inl h1⟩)
  refine h1.wlp_seq .get fun _ k1 h1 => h1.wlp_seq ids_deref fun pt k1 h1 => ?_
  refine h1.wlp_seq .get fun _ k1 h1 => h1.wlp_seq ids_deref fun npt k1 h1 => ?_
  refine h1.wlp_seq ids_onMach fun r k1 h1 => ?_
  split
  · refine wlp_seq (wlp_freeproc_ids np k1) fun _ k2 h2 => wlp_pure (.inr ⟨np, hnp, .inl ?_⟩)
    rw [h1.nextpid] at h2
    exact h1.trans h2
  refine h1.wlp_seq (ids_setProc fun _ => rfl) fun _ k1 h1 => ?_
  refine h1.wlp_seq ids_deref fun tf k1 h1 => h1.wlp_seq .get fun _ k1 h1 => ?_
  refine h1.wlp_seq ids_deref fun ntf k1 h1 => h1.wlp_seq ids_onMach fun _ k1 h1 => ?_
  refine h1.wlp_seq ids_onMach fun _ k1 h1 => h1.wlp_seq (ids_dupOfiles i np _) fun _ k1 h1 => ?_
  refine h1.wlp_seq (ids_setProc fun _ => rfl) fun _ k1 h1 => ?_
  refine h1.wlp_seq .get fun _ k1 h1 => wlp_seq (h1.wlp_set _) fun _ k2 h2 => ?_
  refine wlp_pure (.inr ⟨np, hnp, .inr ?_⟩)
  have hself := h1.self
  rw [Proc.ident, Ident.mk.injEq] at hself
  rwa [Proc.ident, hself.2.1, hself.2.2] at h2

theorem wlp_exit_ids (i : Fin NPROC) (status : BitVec 32) (k : Kernel) :
    wlp (exit i status)
      (fun _ k' => IdsTo k k' i ⟨.ZOMBIE, (k.proc i).pid, (k.proc i).killed⟩ k.nextpid) k := by
  rw [exit]
  refine wlp_bind (wp_get ?_).wlp
  split
  · exact wlp_stop
  refine wlp_seq (ids_closeOfiles i _ k) fun _ k1 h1 => ?_
  refine wlp_seq (ids_reparent i k1) fun _ k2 h2 a k' hrun => ?_
  have hk := h2.trans h1
  have hset := (wlp_setProc_ids i _ k2 a k' hrun).after hk
  have hi : (k2.proc i).ident = (k.proc i).ident := congrFun (congrArg fst hk) i
  rw [Proc.ident, Proc.ident, Ident.mk.injEq] at hi
  rwa [Proc.ident, hi.2.1, hi.2.2, show k2.nextpid = k.nextpid from congrArg snd hk] at hset

theorem wlp_wait_ids (i : Fin NPROC) (addr : Nat) (k : Kernel) :
    wlp (wait i addr) (fun _ k' => k'.ids = k.ids ∨ ∃ j, IdsTo k k' j nobody k.nextpid) k := by
  rw [wait]
  refine wlp_bind (wp_get ?_).wlp
  cases hfind : (finRange NPROC).find? fun j =>
      decide ((k.proc j).parent = some i) && decide ((k.proc j).state = .ZOMBIE) with
  | none =>
    dsimp only
    split
    · exact wlp_pure (.inl rfl)
    · exact wlp_pure (.inl rfl)
  | some j =>
    refine wlp_seq (ids_deref k) fun pt k1 h1 => ?_
    refine wlp_seq (Preserves.ite ids_onMach .pure k1) fun r k2 h2 => ?_
    have hk := h2.trans h1
    split
    · exact wlp_pure (.inl hk)
    · refine wlp_seq (wlp_freeproc_ids j k2) fun _ k3 h3 => wlp_pure (.inr ⟨j, ?_⟩)
      rw [show k2.nextpid = k.nextpid from congrArg snd hk] at h3
      exact h3.after hk

/-- What `kill` is for: it returns 0 iff some process has that pid, marks that process and changes
nothing else; otherwise it returns -1 and changes nothing. -/
def KillsNamed (pid : BitVec 32) (k : Kernel) (r : Int) (k' : Kernel) : Prop :=
  (r = 0 ∧ ∃ i, (k.proc i).state ≠ .UNUSED ∧ (k.proc i).pid = pid ∧
    k' = { k with proc := update k.proc i { k.proc i with
      killed := true
      state := if (k.proc i).state = .SLEEPING then .RUNNABLE else (k.proc i).state } }) ∨
  (r = -1 ∧ (∀ i, (k.proc i).state ≠ .UNUSED → (k.proc i).pid ≠ pid) ∧ k' = k)

/-! ## The invariant -/

/-- An unused slot has no pid and no mark; the pids of the others are distinct and were handed out. -/
structure IdsOk (k : Kernel) : Prop where
  unused : ∀ i, (k.proc i).state = .UNUSED → (k.proc i).ident = nobody
  used : ∀ i, (k.proc i).state ≠ .UNUSED →
    0 < (k.proc i).pid.toNat ∧ (k.proc i).pid.toNat < k.nextpid.toNat
  inj : ∀ i j, (k.proc i).state ≠ .UNUSED → (k.proc j).state ≠ .UNUSED →
    (k.proc i).pid = (k.proc j).pid → i = j
  next : 0 < k.nextpid.toNat

theorem IdsOk.congr (h : IdsOk k) (hk : k'.ids = k.ids) : IdsOk k' := by
  have hid : ∀ i, (k'.proc i).ident = (k.proc i).ident := congrFun (congrArg fst hk)
  have hnext : k'.nextpid = k.nextpid := congrArg snd hk
  have hstate : ∀ i, (k'.proc i).state = (k.proc i).state := fun i => congrArg Ident.state (hid i)
  have hpid : ∀ i, (k'.proc i).pid = (k.proc i).pid := fun i => congrArg Ident.pid (hid i)
  constructor
  · intro i hi
    rw [hid, h.unused i (hstate i ▸ hi)]
  · intro i hi
    rw [hpid, hnext]
    exact h.used i (hstate i ▸ hi)
  · intro i j hi hj heq
    rw [hpid, hpid] at heq
    exact h.inj i j (hstate i ▸ hi) (hstate j ▸ hj) heq
  · rw [hnext]
    exact h.next

/-- The identity of one slot changes: it is empty from now on, or its pid was handed out and nobody else
has it. -/
theorem IdsOk.update (h : IdsOk k) (ht : IdsTo k k' j x n) (hn : k.nextpid.toNat ≤ n.toNat)
    (hempty : x.state = .UNUSED → x = nobody)
    (hpid : x.state ≠ .UNUSED → (0 < x.pid.toNat ∧ x.pid.toNat < n.toNat) ∧
      ∀ i ≠ j, (k.proc i).state ≠ .UNUSED → (k.proc i).pid ≠ x.pid) : IdsOk k' := by
  have hself := ht.self
  have hstatej : (k'.proc j).state = x.state := congrArg Ident.state hself
  have hpidj : (k'.proc j).pid = x.pid := congrArg Ident.pid hself
  have hstate : ∀ i ≠ j, (k'.proc i).state = (k.proc i).state := fun i hi =>
    congrArg Ident.state (ht.ne hi)
  have hpid' : ∀ i ≠ j, (k'.proc i).pid = (k.proc i).pid := fun i hi => congrArg Ident.pid (ht.ne hi)
  have hnext := ht.nextpid
  constructor
  · intro i hi
    by_cases hij : i = j
    · subst hij
      rw [hself]
      exact hempty (hstatej ▸ hi)
    · rw [ht.ne hij, h.unused i (hstate i hij ▸ hi)]
  · intro i hi
    rw [hnext]
    by_cases hij : i = j
    · subst hij
      rw [hpidj]
      exact (hpid (hstatej ▸ hi)).1
    · rw [hpid' i hij]
      have := h.used i (hstate i hij ▸ hi)
      omega
  · intro i i' hi hi' heq
    by_cases hij : i = j <;> by_cases hij' : i' = j
    · rw [hij, hij']
    · subst hij
      rw [hpidj, hpid' i' hij'] at heq
      exact absurd heq.symm ((hpid (hstatej ▸ hi)).2 i' hij' (hstate i' hij' ▸ hi'))
    · subst hij'
      rw [hpidj, hpid' i hij] at heq
      exact absurd heq ((hpid (hstatej ▸ hi')).2 i hij (hstate i hij ▸ hi))
    · rw [hpid' i hij, hpid' i' hij'] at heq
      exact h.inj i i' (hstate i hij ▸ hi) (hstate i' hij' ▸ hi') heq
  · rw [hnext]
    exact lt_of_lt_of_le h.next hn

/-- A slot is cleared, perhaps after it took a pid. -/
theorem IdsOk.clear (h : IdsOk k) (ht : IdsTo k k' j nobody n) (hn : k.nextpid.toNat ≤ n.toNat) :
    IdsOk k' :=
  h.update ht hn (fun _ => rfl) fun hlive => absurd rfl hlive

/-- A process goes on under its pid, or a slot takes the next one. -/
theorem IdsOk.live (h : IdsOk k) (ht : IdsTo k k' j x n) (hx : x.state ≠ .UNUSED)
    (hn : k.nextpid.toNat ≤ n.toNat)
    (hpid : (x.pid = (k.proc j).pid ∧ (k.proc j).state ≠ .UNUSED) ∨
      (x.pid = k.nextpid ∧ k.nextpid.toNat < n.toNat)) : IdsOk k' := by
  refine h.update ht hn (fun hun => absurd hun hx) fun _ => ?_
  rcases hpid with ⟨hp, hlive⟩ | ⟨hp, hlt⟩
  · have := h.used j hlive
    rw [hp]
    exact ⟨by omega, fun i hij hi heq => hij (h.inj i j hi hlive heq)⟩
  · rw [hp]
    refine ⟨⟨h.next, hlt⟩, fun i _ hi heq => ?_⟩
    have := (h.used i hi).2
    rw [heq] at this
    exact lt_irrefl _ this

/-- **`kill`** with a pid that is not 0. -/
theorem IdsOk.wp_kill (h : IdsOk k) (hpid : pid ≠ 0) :
    wp (kill pid) (fun r k' => KillsNamed pid k r k') k := by
  rw [kill]
  refine wp_bind (wp_get ?_)
  cases hfind : (finRange NPROC).find? fun i => decide ((k.proc i).pid = pid) with
  | none =>
    refine wp_pure (.inr ⟨rfl, fun i _ hi => ?_, rfl⟩)
    exact find?_eq_none.mp hfind i (mem_finRange i) (decide_eq_true hi)
  | some i =>
    have hi := find?_some hfind
    replace hi : (k.proc i).pid = pid := of_decide_eq_true hi
    refine wp_bind (wp_modify (wp_pure (.inl ⟨rfl, i, fun hun => ?_, hi, rfl⟩)))
    exact hpid (hi.symm.trans (congrArg Ident.pid (h.unused i hun)))

theorem IdsOk.killed (h : IdsOk k) (hk : KillsNamed pid k r k') :
    IdsOk k' ∧ k'.nextpid = k.nextpid := by
  rcases hk with ⟨-, i, hi, -, rfl⟩ | ⟨-, -, rfl⟩
  · refine ⟨h.live (ids_update k i _) ?_ le_rfl (.inl ⟨rfl, hi⟩), rfl⟩
    show (if (k.proc i).state = .SLEEPING then ProcState.RUNNABLE else (k.proc i).state) ≠ .UNUSED
    split
    · decide
    · exact hi
  · exact ⟨h, rfl⟩

/-- The calls that take a pid. -/
def Op.takesPid : Op → Bool
  | .fork _ => true
  | _ => false

/-- **One call** keeps the invariant if it is no `kill(0)` and there is a pid left. -/
theorem IdsOk.wlp_call (h : IdsOk k) {op : Op} (hop : op.Enabled k) (hkill : ∀ i, op ≠ .kill i 0)
    (hnext : k.nextpid.toNat + 1 < 2 ^ 32) :
    wlp op.call (fun _ k' => IdsOk k' ∧
      k'.nextpid.toNat ≤ k.nextpid.toNat + if op.takesPid then 1 else 0) k := by
  have hadd : (k.nextpid + 1).toNat = k.nextpid.toNat + 1 := by
    rw [BitVec.toNat_add, Nat.mod_eq_of_lt (by simpa using hnext)]
    rfl
  -- most calls change nothing here
  have hkeep : ∀ {α : Type} {x : Prog Kernel α}, Preserves ids x →
      wlp x (fun _ k' => IdsOk k' ∧ k'.nextpid.toNat ≤ k.nextpid.toNat + 0) k := by
    intro α x hx a k' hrun
    have hk := hx k a k' hrun
    exact ⟨h.congr hk, (congrArg (fun y => y.2.toNat) hk).le⟩
  cases op with
  | fork i =>
    refine wlp_map fun r k' hrun => ?_
    rcases wlp_fork_ids i k r k' hrun with hk | ⟨j, hj, ht | ht⟩
    · exact ⟨h.congr hk, by rw [show k'.nextpid = k.nextpid from congrArg snd hk]; omega⟩
    · exact ⟨h.clear ht (by omega), by rw [ht.nextpid, hadd]; exact le_rfl⟩
    · refine ⟨h.live ht (fun hz => nomatch hz) (by omega) (.inr ⟨rfl, by omega⟩), ?_⟩
      rw [ht.nextpid, hadd]
      exact le_rfl
  | exit i status =>
    refine wlp_map fun r k' hrun => ?_
    have ht := wlp_exit_ids i status k r k' hrun
    refine ⟨h.live ht (fun hz => nomatch hz) le_rfl (.inl ⟨rfl, ?_⟩), by rw [ht.nextpid]; omega⟩
    exact fun hun => nomatch hop.1.symm.trans hun
  | wait i addr =>
    intro r k' hrun
    rcases wlp_wait_ids i addr k r k' hrun with hk | ⟨j, ht⟩
    · exact ⟨h.congr hk, (congrArg (fun y => y.2.toNat) hk).le⟩
    · exact ⟨h.clear ht le_rfl, by rw [ht.nextpid]; exact le_rfl⟩
  | kill i pid =>
    refine wlp_map fun r k' hrun => ?_
    have hpid : pid ≠ 0 := fun hz => hkill i (hz ▸ rfl)
    obtain ⟨hk, hn⟩ := h.killed ((h.wp_kill hpid).wlp r k' hrun)
    exact ⟨hk, by rw [hn]; exact le_rfl⟩
  | exec i fs upath uargv => exact wlp_map (hkeep (ids_sysExec fs i upath uargv))
  | growproc i n => exact wlp_map (hkeep (ids_growproc i n))
  | pipe i fdarray => exact wlp_map (hkeep (ids_sysPipe i fdarray))
  | close i fd => exact wlp_map (hkeep (ids_sysClose i fd))
  | dup i fd => exact wlp_map (hkeep (ids_sysDup i fd))
  | pgaccess i va n accessAbits => exact wlp_map (hkeep (ids_sysPgaccess i va n accessAbits))
  | copyout i dst src len => exact wlp_map (hkeep (ids_procCopyout i dst src len))
  | user i va w => exact wlp_map (hkeep (ids_userAccess i va w))

theorem IdsOk.failing (h : IdsOk k) (fails : List Bool) : IdsOk (k.failing fails) := h.congr rfl

/-- **One step.** -/
theorem IdsOk.step (h : IdsOk k) {a : Action} (hkill : ∀ i, a.1 ≠ .kill i 0)
    (hnext : k.nextpid.toNat + 1 < 2 ^ 32) (hstep : Xv6.step k a = .ok k') :
    IdsOk k' ∧ k'.nextpid.toNat ≤ k.nextpid.toNat + if a.1.takesPid then 1 else 0 := by
  rw [Xv6.step] at hstep
  by_cases hop : a.1.Enabled k
  · rw [if_pos hop] at hstep
    cases hcall : a.1.call (k.failing a.2) with
    | error e =>
      rw [hcall] at hstep
      cases hstep
    | ok r =>
      rw [hcall] at hstep
      cases hstep
      exact (h.failing a.2).wlp_call hop hkill hnext r.1 r.2 hcall
  · rw [if_neg hop] at hstep
    cases hstep
    exact ⟨h, by omega⟩

/-- **A run** without `kill(0)` that creates fewer than `2 ^ 31 - 1` processes; a `fork` that fails
counts, since it may have taken a pid. -/
theorem IdsOk.run (h : IdsOk k) (hkill : ∀ a ∈ as, ∀ i, a.1 ≠ .kill i 0)
    (hnext : k.nextpid.toNat + as.countP (fun a => a.1.takesPid) + 1 < 2 ^ 32)
    (hrun : Lib.run Xv6.step k as = .ok k') : IdsOk k' := by
  induction as generalizing k with
  | nil =>
    cases hrun
    exact h
  | cons a as ih =>
    obtain ⟨k1, hstep, hrun⟩ := run_cons_ok.mp hrun
    rw [countP_cons] at hnext
    obtain ⟨h1, hn1⟩ := h.step (hkill a mem_cons_self) (by omega) hstep
    refine ih h1 (fun b hb => hkill b (mem_cons_of_mem a hb)) ?_ hrun
    omega

/-! ## From boot on -/

theorem idsOk_cold (kend trampoline : Nat) (mem : Store) (fails : List Bool) :
    IdsOk (cold kend trampoline mem fails) :=
  ⟨fun _ _ => rfl, fun _ hi => absurd rfl hi, fun _ _ hi => absurd rfl hi, Nat.zero_lt_one⟩

theorem wlp_userinit_ids (h : IdsOk k) (hnext : k.nextpid = 1) :
    wlp userinit (fun _ k' => IdsOk k' ∧ k'.nextpid.toNat ≤ 2) k := by
  rw [userinit]
  refine wlp_seq (wlp_allocproc_ids k) ?_
  rintro r k1 (⟨rfl, -⟩ | ⟨j, hj, ⟨rfl, -⟩ | ⟨rfl, h1⟩⟩)
  · exact wlp_bind (wp_modify (wlp_bind wlp_stop)).wlp
  · exact wlp_bind (wp_modify (wlp_bind wlp_stop)).wlp
  refine h1.wlp_seq (.modify fun _ => rfl) fun _ k1 h1 => ?_
  refine wlp_bind (wp_deref rfl ?_).wlp
  refine h1.wlp_seq .get fun _ k1 h1 => h1.wlp_seq ids_deref fun pt k1 h1 => ?_
  refine h1.wlp_seq ids_onMach fun _ k1 h1 => ?_
  refine h1.wlp_seq (ids_setProc fun _ => rfl) fun _ k1 h1 => ?_
  refine h1.wlp_seq .get fun _ k1 h1 => h1.wlp_seq ids_deref fun tf k1 h1 => ?_
  refine h1.wlp_seq ids_onMach fun _ k1 h1 => h1.wlp_seq ids_onMach fun _ k1 h1 => ?_
  intro a k' hrun
  have ht := h1.wlp_set _ a k' hrun
  have hpid : (k1.proc j).pid = k.nextpid := congrArg Ident.pid h1.self
  refine ⟨h.live ht (fun hz => by cases hz) ?_ (.inr ⟨hpid, ?_⟩), ?_⟩
  · rw [hnext]
    decide
  · rw [hnext]
    decide
  · rw [ht.nextpid, hnext]
    decide

theorem Booted.idsOk {pages : List Nat} (h : Booted pages k) :
    IdsOk k ∧ k.nextpid.toNat ≤ 2 := by
  obtain ⟨-, kend, trampoline, mem, fails, n, -, -, hboot⟩ := h
  set k0 := cold kend trampoline mem fails with hk0
  have hspec : wlp (boot n) (fun _ k => IdsOk k ∧ k.nextpid.toNat ≤ 2) k0 := by
    refine wlp_seq (ids_onMach k0) fun _ k1 h1 => ?_
    refine wlp_seq (preserves_kallocs (p := ids) (fun _ _ => rfl) n k1) fun pages k2 h2 => ?_
    have hk2 : k2.ids = k0.ids := h2.trans h1
    refine wlp_seq (wlp_userinit_ids ((idsOk_cold ..).congr hk2) ?_) fun _ k3 h3 => wlp_pure h3
    exact congrArg snd hk2
  exact hspec pages k hboot

/-- **`kill` reaches the process it names.** In every run that makes no `kill(0)` and fewer than
`2 ^ 31 - 1` processes, pids are distinct, `kill` of any pid but 0 does what it is for, and `allocproc`
returns a process that is not marked. -/
theorem kill_reaches_named {pages : List Nat} (h : Booted pages k) {as : List Action}
    (hkill : ∀ a ∈ as, ∀ i, a.1 ≠ .kill i 0)
    (hpids : 1 + as.countP (fun a => a.1.takesPid) < 2 ^ 31 - 1) :
    ∃ k', Lib.run step k as = .ok k' ∧
      (∀ i j, (k'.proc i).state ≠ .UNUSED → (k'.proc j).state ≠ .UNUSED →
        (k'.proc i).pid = (k'.proc j).pid → i = j) ∧
      (∀ pid ≠ 0, wp (kill pid) (fun r k'' => KillsNamed pid k' r k'') k') ∧
      ∀ fails, wp allocproc (fun r k'' => ∀ j, r = some j → (k''.proc j).killed = false)
        (k'.failing fails) := by
  obtain ⟨k', hrun, hk'⟩ := run_kinv h.kinv as
  obtain ⟨hids, hnext⟩ := h.idsOk
  have h' := hids.run hkill (by omega) hrun
  refine ⟨k', hrun, h'.inj, fun pid hpid => h'.wp_kill hpid, fun fails => ?_⟩
  obtain ⟨r, k'', halloc, -⟩ := wp_allocproc (hk'.failing fails)
  refine ⟨r, k'', halloc, ?_⟩
  rintro j rfl
  rcases wlp_allocproc_ids _ _ k'' halloc with ⟨hr, -⟩ | ⟨i, hi, ⟨hr, -⟩ | ⟨hr, ht⟩⟩
  · exact absurd hr (Option.some_ne_none j)
  · exact absurd hr (Option.some_ne_none j)
  · obtain rfl := Option.some.inj hr
    have hkilled : (k''.proc j).killed = (k'.proc j).killed := congrArg Ident.killed ht.self
    rw [hkilled]
    exact congrArg Ident.killed (h'.unused j hi)

theorem kill_reaches_named_small : ∃ pages k, Booted pages k ∧
    ∃ k', Lib.run step k lifeCycle = .ok k' ∧
      (∀ i j, (k'.proc i).state ≠ .UNUSED → (k'.proc j).state ≠ .UNUSED →
        (k'.proc i).pid = (k'.proc j).pid → i = j) ∧
      (∀ pid ≠ 0, wp (kill pid) (fun r k'' => KillsNamed pid k' r k'') k') ∧
      ∀ fails, wp allocproc (fun r k'' => ∀ j, r = some j → (k''.proc j).killed = false)
        (k'.failing fails) := by
  obtain ⟨pages, k, hb, -⟩ := small_booted
  exact ⟨pages, k, hb, kill_reaches_named hb (by simp [lifeCycle]) (by decide)⟩

/-- **`kill(0)` marks an unused slot.** After boot only the first process exists and its pid is 1;
`kill(0)` returns 0, and the process that the next `fork` makes is born marked. -/
theorem kill_zero_marks_next_child :
    (boot 1).test small (fun _ k => (List.finRange NPROC).all fun i =>
      decide ((k.proc i).state = .UNUSED) || decide ((k.proc i).pid = 1)) = true ∧
    (do let _ ← boot 1; kill 0).test small (fun r _ => decide (r = 0)) = true ∧
    (do let _ ← boot 1; let _ ← kill 0; fork ⟨0, by decide⟩).test small (fun r k =>
      decide (r = 2) && decide ((k.proc ⟨1, by decide⟩).pid = 2) &&
        (k.proc ⟨1, by decide⟩).killed) = true := by
  decide +kernel

end Xv6
