/-
# Xv6.Proc.Run — runs of the kernel.

A run is a list of system calls by any processes in any order, and of loads and stores by user
programs.  With each call comes the list of its `kalloc` calls that return 0, so that a call can run
out of memory anywhere.  Every call has a specification that keeps `KInv`; one case per call gives the
step lemma, and the run lemma follows: no run from a booted kernel panics, and the invariant holds
between any two calls.  What the invariant says about single pages and single address spaces is
spelled out at the end.
-/
import Xv6.Lib.Trace
import Xv6.Proc.Access
import Xv6.Proc.Boot

namespace Xv6

open Lib Lib.Store Lib.Prog

/-! ## Calls -/

/-- What a process does: a system call, or (`user`) a load or a store of its program.  `copyout` stands
for the calls that return data at an address of the user's choice, such as `read` and `fstat`. -/
inductive Op where
  | fork (i : Fin NPROC)
  | exec (i : Fin NPROC) (fs : List Byte → Option (List Byte)) (upath uargv : Nat)
  | growproc (i : Fin NPROC) (n : BitVec 32)
  | exit (i : Fin NPROC) (status : BitVec 32)
  | wait (i : Fin NPROC) (addr : Nat)
  | kill (i : Fin NPROC) (pid : BitVec 32)
  | pipe (i : Fin NPROC) (fdarray : Nat)
  | close (i : Fin NPROC) (fd : BitVec 32)
  | dup (i : Fin NPROC) (fd : BitVec 32)
  | pgaccess (i : Fin NPROC) (va : Nat) (n : BitVec 32) (accessAbits : Nat)
  | copyout (i : Fin NPROC) (dst : Nat) (src : Nat → Byte) (len : Nat)
  | user (i : Fin NPROC) (va : Nat) (w : Option Byte)

/-- The process that makes the call. -/
def Op.caller : Op → Fin NPROC
  | fork i | exec i .. | growproc i _ | exit i _ | wait i _ | kill i _ | pipe i _ | close i _ | dup i _
  | pgaccess i .. | copyout i .. | user i .. => i

/-- `copyout` to the memory of process `i`. -/
def procCopyout (i : Fin NPROC) (dst : Nat) (src : Nat → Byte) (len : Nat) : Prog Kernel Int := do
  let pt ← deref ((← get).proc i).pagetable
  onMach (copyout pt dst src len)

/-- The function that serves the call; `none` if it does not return a number. -/
def Op.call : Op → Prog Kernel (Option Int)
  | .fork i => some <$> Xv6.fork i
  | .exec i fs upath uargv => some <$> sysExec fs i upath uargv
  | .growproc i n => some <$> Xv6.growproc i n
  | .exit i status => (fun _ => none) <$> Xv6.exit i status
  | .wait i addr => Xv6.wait i addr
  | .kill _ pid => some <$> Xv6.kill pid
  | .pipe i fdarray => some <$> sysPipe i fdarray
  | .close i fd => some <$> sysClose i fd
  | .dup i fd => some <$> sysDup i fd
  | .pgaccess i va n accessAbits => some <$> sysPgaccess i va n accessAbits
  | .copyout i dst src len => some <$> procCopyout i dst src len
  | .user i va w => (fun _ => none) <$> userAccess i va w

/-- Calls that can be made: the caller has not exited, the first process does not exit, and
`pgaccess` is asked about pages below `MAXVA`. -/
def Op.Enabled (k : Kernel) (op : Op) : Prop :=
  (k.proc op.caller).state = .RUNNABLE ∧
    match op with
    | .exit i _ => k.initproc ≠ some i
    | .pgaccess _ va n _ => ∀ j < n.toNat, n.toInt ≤ 512 → va + j * PGSIZE < MAXVA
    | _ => True

instance (k : Kernel) (op : Op) : Decidable (op.Enabled k) := by
  unfold Op.Enabled
  cases op <;> infer_instance

/-- A call, and which of its `kalloc` calls return 0. -/
abbrev Action := Op × List Bool

/-- The next calls of `kalloc` fail as `fails` says. -/
def Kernel.failing (k : Kernel) (fails : List Bool) : Kernel :=
  { k with mach := { k.mach with fails } }

/-- One call; one that cannot be made is skipped. -/
def step (k : Kernel) (a : Action) : Except String Kernel :=
  if a.1.Enabled k then (a.1.call (k.failing a.2)).map Prod.snd else .ok k

/-- `k` is the kernel at the end of `main`, and `pages` are the pages that it keeps for good; `userinit`
found memory for the first page of the first process. -/
def Booted (pages : List Nat) (k : Kernel) : Prop :=
  firstPage k = true ∧ ∃ kend trampoline mem fails n, (KERNBASE ≤ kend ∧ kend ≤ PHYSTOP) ∧
    (PGSIZE ∣ trampoline ∧ trampoline < kend) ∧
    boot n (cold kend trampoline mem fails) = .ok (pages, k)

/-- `k` is the kernel after some calls. -/
def Reachable (pages : List Nat) (k : Kernel) : Prop :=
  ∃ k₀ as, Booted pages k₀ ∧ Lib.run step k₀ as = .ok k

/-! ## Steps and runs -/

variable {k k' : Kernel} {X : Multiset Nat} {Y : Fin NFILE → Int} {E : Finset (Fin NPROC)}
  {pages : List Nat} {i q : Fin NPROC}

theorem KInv.failing (h : KInv k X Y E) (fails : List Bool) : KInv (k.failing fails) X Y E :=
  ⟨h.kend, h.trampoline, h.account, h.refreed, h.proc, h.settled, h.files⟩

theorem wp_sysPgaccess (h : KInv k X Y ∅) (hrun : (k.proc i).state = .RUNNABLE)
    (hva : ∀ j < n.toNat, n.toInt ≤ 512 → va + j * PGSIZE < MAXVA)
    (accessAbits : Nat) :
    wp (sysPgaccess i va n accessAbits) (fun _ k' => KInv k' X Y ∅ ∧ ∀ j ≠ i, Same k k' j) k := by
  rw [sysPgaccess]
  by_cases hn : n.toInt ≤ 0 ∨ n.toInt > 512
  · rw [if_pos hn]
    exact wp_pure ⟨h, fun j _ => Same.refl k j⟩
  · rw [if_neg hn]
    exact wp_pgaccess h (by rw [hrun]; decide) (fun j hj => hva j hj (by omega)) accessAbits

theorem wp_procCopyout (h : KInv k X Y ∅) (hlive : (k.proc i).state ≠ .UNUSED) (dst : Nat)
    (src : Nat → Byte) (len : Nat) :
    wp (procCopyout i dst src len) (fun r k' => (KInv k' X Y ∅ ∧ ∀ j ≠ i, Same k k' j) ∧
      ∃ root, (k.proc i).pagetable = some root ∧ Copied root dst src len r k.mach k'.mach) k := by
  obtain ⟨root, tf, us, hr, htf, hus, hs⟩ := h.live hlive
  rw [procCopyout]
  refine wp_bind (wp_get (wp_bind (wp_deref hr ?_)))
  refine wp_mono (h.wp_copyout hr htf hus hs dst src len) ?_
  rintro r k' ⟨h', same, -, hc, -⟩
  exact ⟨⟨h', same⟩, root, hr, hc⟩

/-- `wait` frees another process. -/
def Op.reaps : Op → Bool
  | .wait .. => true
  | _ => false

/-- What a call leaves of the processes other than its caller: each is as it was, or was a child that
had exited and that `wait` freed. -/
def Spares (op : Op) (k k' : Kernel) : Prop :=
  ∀ q ≠ op.caller, (k.proc q).state ≠ .UNUSED → Same k k' q ∨ (op.reaps = true ∧ Reaped k k' q)

/-- **Every call** returns, keeps the invariant, and spares the other processes. -/
theorem wp_call (h : KInv k X 0 ∅) (op : Op) (hop : op.Enabled k) :
    wp op.call (fun _ k' => KInv k' X 0 ∅ ∧ Spares op k k') k := by
  obtain ⟨hrun, hop⟩ := hop
  have ha : (k.proc op.caller).Active := ⟨by rw [hrun]; decide, by rw [hrun]; decide⟩
  cases op with
  | fork i =>
    exact wp_map (wp_mono (wp_fork h hrun) fun _ k' g => ⟨g.1, fun q _ hq => .inl (g.2.1 q hq)⟩)
  | exec i fs upath uargv =>
    exact wp_map (wp_mono (wp_sysExec h hrun fs upath uargv) fun _ k' g =>
      ⟨g.1, fun q hq _ => .inl (g.2.1 q hq)⟩)
  | growproc i n =>
    exact wp_map (wp_mono (wp_growproc h ha.1 n) fun _ k' g =>
      ⟨g.1, fun q hq _ => .inl (g.2.1 q hq)⟩)
  | exit i status =>
    exact wp_map (wp_mono (wp_exit h hrun hop status) fun _ k' g =>
      ⟨g.1, fun q _ _ => .inl (g.2 q)⟩)
  | wait i addr =>
    exact wp_mono (wp_wait h hrun addr) fun _ k' g =>
      ⟨g.1, fun q hq _ => (g.2.1 q hq).imp_right fun hr => ⟨rfl, hr⟩⟩
  | kill i pid =>
    exact wp_map (wp_mono (wp_kill h pid) fun _ k' g => ⟨g.1, fun q _ _ => .inl (g.2 q)⟩)
  | pipe i fdarray =>
    exact wp_map (wp_mono (wp_sysPipe h hrun fdarray) fun _ k' g =>
      ⟨g.1, fun q hq _ => .inl (g.2 q hq)⟩)
  | close i fd =>
    exact wp_map (wp_mono (wp_sysClose h ha fd) fun _ k' g => ⟨g.1, fun q _ _ => .inl (g.2 q)⟩)
  | dup i fd =>
    exact wp_map (wp_mono (wp_sysDup h ha fd) fun _ k' g => ⟨g.1, fun q _ _ => .inl (g.2 q)⟩)
  | pgaccess i va n accessAbits =>
    exact wp_map (wp_mono (wp_sysPgaccess h hrun hop accessAbits) fun _ k' g =>
      ⟨g.1, fun q hq _ => .inl (g.2 q hq)⟩)
  | copyout i dst src len =>
    exact wp_map (wp_mono (wp_procCopyout h ha.1 dst src len) fun _ k' g =>
      ⟨g.1.1, fun q hq _ => .inl (g.1.2 q hq)⟩)
  | user i va w =>
    exact wp_map (wp_mono (wp_userAccess h hrun va w) fun _ k' g =>
      ⟨g.1, fun q hq _ => .inl (g.2 q hq)⟩)

/-- **One step** goes on, and keeps the invariant. -/
theorem step_kinv (h : KInv k X 0 ∅) (a : Action) : ∃ k', step k a = .ok k' ∧ KInv k' X 0 ∅ := by
  rw [step]
  by_cases hop : a.1.Enabled k
  · obtain ⟨r, k', hcall, h', -⟩ := wp_call (h.failing a.2) a.1 hop
    rw [if_pos hop, hcall]
    exact ⟨k', rfl, h'⟩
  · rw [if_neg hop]
    exact ⟨k, rfl, h⟩

/-- **A run** goes on to its end. -/
theorem run_kinv (h : KInv k X 0 ∅) (as : List Action) :
    ∃ k', Lib.run step k as = .ok k' ∧ KInv k' X 0 ∅ := by
  induction as generalizing k with
  | nil => exact ⟨k, rfl, h⟩
  | cons a as ih =>
    obtain ⟨k1, hstep, h1⟩ := step_kinv h a
    obtain ⟨k2, hrun, h2⟩ := ih h1
    exact ⟨k2, run_cons_ok.mpr ⟨k1, hstep, hrun⟩, h2⟩

theorem Booted.kinv (h : Booted pages k) : KInv k pages 0 ∅ := by
  obtain ⟨hfirst, kend, trampoline, mem, fails, n, hk, ht, hboot⟩ := h
  exact (boot_kinv hk ht hboot hfirst).1

theorem Reachable.kinv (h : Reachable pages k) : KInv k pages 0 ∅ := by
  obtain ⟨k0, as, hboot, hrun⟩ := h
  obtain ⟨k', hrun', hk'⟩ := run_kinv hboot.kinv as
  cases hrun.symm.trans hrun'
  exact hk'

end Xv6
