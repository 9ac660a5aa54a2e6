/-
# Xv6.Proc.Shared — the page that a process shares with the user.

`allocproc` puts the pid into a page, `proc_pagetable` maps it read-only at `USYSCALL`, and `ugetpid`
reads it there.  The life cycle of a process keeps the page and the mapping.  The word in it stays the
pid as long as the kernel does not write there itself, and `wait` does when it is told to store the
status of a child at `USYSCALL`.
-/
import Xv6.Proc.Ident

namespace Xv6

open Lib Lib.Store Lib.Prog Multiset Option

variable {k k' : Kernel} {X : Multiset Nat} {Y : Fin NFILE → Int} {E : Finset (Fin NPROC)}
  {pages : List Nat} {i j : Fin NPROC} {root us : Nat}

/-! ## Calls -/

/-- The calls of the life cycle, where `wait` does not store the status in the shared page. -/
def Op.SparesShared : Op → Prop
  | .fork _ | .exec .. | .growproc .. | .exit .. => True
  | .wait _ addr => MissesShared addr 4
  | _ => False

/-- What a call does to the shared pages: a process keeps its page, or was freed; a new one sees its
pid. -/
structure KeepsShared (k k' : Kernel) : Prop where
  live : ∀ j, (k.proc j).state ≠ .UNUSED →
    (Shared k k' j ∧ (k'.proc j).pid = (k.proc j).pid) ∨ Reaped k k' j
  unused : ∀ j, (k.proc j).state = .UNUSED → (k'.proc j).state = .UNUSED ∨ k'.ShowsPid j

/-- A call that keeps the identities, and the shared page of its caller. -/
theorem KeepsShared.of_ids (hids : k'.ids = k.ids) (hsame : ∀ j ≠ i, Same k k' j)
    (hself : Shared k k' i) : KeepsShared k k' := by
  have hid : ∀ j, (k'.proc j).ident = (k.proc j).ident := congrFun (congrArg Prod.fst hids)
  refine ⟨fun j _ => .inl ⟨?_, congrArg Ident.pid (hid j)⟩, fun j hj => .inl ?_⟩
  · by_cases hj : j = i
    · exact hj ▸ hself
    · exact (hsame j hj).shared
  · exact (congrArg Ident.state (hid j)).trans hj

/-- **Every such call** keeps the shared pages. -/
theorem wp_call_shared (h : KInv k X 0 ∅) {op : Op} (hop : op.Enabled k) (hs : op.SparesShared) :
    wp op.call (fun _ k' => KInv k' X 0 ∅ ∧ KeepsShared k k') k := by
  obtain ⟨hrun, hop⟩ := hop
  have hlive : (k.proc op.caller).state ≠ .UNUSED := fun hun => nomatch hrun.symm.trans hun
  have hne : ∀ {j q}, (k.proc j).state ≠ .UNUSED → (k.proc q).state = .UNUSED → j ≠ q := by
    rintro j q hj hq rfl
    exact hj hq
  cases op with
  | fork i =>
    refine wp_map ?_
    obtain ⟨r, k', hcall, h', hsame, hnew⟩ := wp_fork h (i := i) hrun
    refine ⟨r, k', hcall, h', fun j hj => .inl ⟨(hsame j hj).shared, ?_⟩, hnew⟩
    rcases wlp_fork_ids i k r k' hcall with hk | ⟨np, hnp, ht | ht⟩
    · exact congrArg Ident.pid (congrFun (congrArg Prod.fst hk) j)
    · exact congrArg Ident.pid (ht.ne (hne hj hnp))
    · exact congrArg Ident.pid (ht.ne (hne hj hnp))
  | exec i fs upath uargv =>
    refine wp_map ?_
    obtain ⟨r, k', hcall, h', hsame, hself⟩ := wp_sysExec h (i := i) hrun fs upath uargv
    exact ⟨r, k', hcall, h', .of_ids (ids_sysExec fs i upath uargv k r k' hcall) hsame hself⟩
  | growproc i n =>
    refine wp_map ?_
    obtain ⟨r, k', hcall, h', hsame, hself⟩ := wp_growproc h (i := i) hlive n
    exact ⟨r, k', hcall, h', .of_ids (ids_growproc i n k r k' hcall) hsame hself⟩
  | exit i status =>
    refine wp_map ?_
    obtain ⟨r, k', hcall, h', hsame⟩ := wp_exit h (i := i) hrun hop status
    have ht := wlp_exit_ids i status k r k' hcall
    refine ⟨r, k', hcall, h', fun j _ => .inl ⟨(hsame j).shared, ?_⟩, fun j hj => .inl ?_⟩
    · by_cases hji : j = i
      · exact hji ▸ congrArg Ident.pid ht.self
      · exact congrArg Ident.pid (ht.ne hji)
    · exact (congrArg Ident.state (ht.ne (hne hlive hj).symm)).trans hj
  | wait i addr =>
    obtain ⟨r, k', hcall, h', hother, hself⟩ := wp_wait h (i := i) hrun addr
    have hids := wlp_wait_ids i addr k r k' hcall
    -- a process that has its page still has its pid
    have hpid : ∀ j, (k.proc j).state ≠ .UNUSED → Shared k k' j →
        (k'.proc j).pid = (k.proc j).pid := by
      intro j hj hsh
      rcases hids with hk | ⟨q, ht⟩
      · exact congrArg Ident.pid (congrFun (congrArg Prod.fst hk) j)
      · refine congrArg Ident.pid (ht.ne ?_)
        rintro rfl
        obtain ⟨-, -, us, -, -, hus, -⟩ := h.live hj
        obtain ⟨-, -, hnone, -⟩ := (h'.settled j (Finset.notMem_empty j)).unused
          (congrArg Ident.state ht.self)
        rw [hsh.usyscall, hus] at hnone
        exact absurd hnone (some_ne_none us)
    refine ⟨r, k', hcall, h', fun j hj => ?_, fun j hj => .inl ?_⟩
    · by_cases hji : j = i
      · subst hji
        exact .inl ⟨hself hs, hpid j hj (hself hs)⟩
      · rcases hother j hji with hsame | hreap
        · exact .inl ⟨hsame.shared, hpid j hj hsame.shared⟩
        · exact .inr hreap
    · rcases hids with hk | ⟨q, ht⟩
      · exact (congrArg Ident.state (congrFun (congrArg Prod.fst hk) j)).trans hj
      · by_cases hjq : j = q
        · exact hjq ▸ congrArg Ident.state ht.self
        · exact (congrArg Ident.state (ht.ne hjq)).trans hj
  | kill | pipe | close | dup | pgaccess | copyout | user => exact hs.elim

/-! ## Runs -/

/-- Every process sees its pid. -/
def Kernel.ShowsPids (k : Kernel) : Prop := ∀ i, (k.proc i).state ≠ .UNUSED → k.ShowsPid i

theorem KeepsShared.showsPids (hk : KeepsShared k k') (h : KInv k X Y E) (hp : k.ShowsPids) :
    k'.ShowsPids := by
  intro j hj
  by_cases hun : (k.proc j).state = .UNUSED
  · exact (hk.unused j hun).resolve_left hj
  · rcases hk.live j hun with ⟨hs, hpid⟩ | ⟨-, hfreed, -⟩
    · exact hs.showsPid h hpid (hp j hun)
    · exact absurd (by rw [hfreed]; rfl) hj

theorem Booted.showsPids (h : Booted pages k) : k.ShowsPids := by
  obtain ⟨hfirst, kend, trampoline, mem, fails, n, hk, ht, hboot⟩ := h
  obtain ⟨-, i, hi, hother⟩ := boot_kinv hk ht hboot hfirst
  intro j hj
  by_cases hji : j = i
  · exact hji ▸ hi
  · exact absurd (by rw [hother j hji]; rfl) hj

/-- **One step.** -/
theorem step_shared (h : KInv k X 0 ∅) (a : Action) (hs : a.1.SparesShared) :
    ∃ k', step k a = .ok k' ∧ KInv k' X 0 ∅ ∧ KeepsShared k k' := by
  rw [step]
  by_cases hop : a.1.Enabled k
  · obtain ⟨r, k', hcall, h', hk⟩ := wp_call_shared (h.failing a.2) hop hs
    rw [if_pos hop, hcall]
    refine ⟨k', rfl, h', fun j hj => ?_, hk.unused⟩
    exact (hk.live j hj).imp_left fun hs => ⟨⟨hs.1.usyscall, hs.1.kept⟩, hs.2⟩
  · rw [if_neg hop]
    exact ⟨k, rfl, h, fun j _ => .inl ⟨Shared.refl k j, rfl⟩, fun _ hj => .inl hj⟩

/-- **A run.** -/
theorem run_shared (h : KInv k X 0 ∅) (hp : k.ShowsPids)
    (hs : ∀ a ∈ as, a.1.SparesShared) :
    ∃ k', Lib.run step k as = .ok k' ∧ KInv k' X 0 ∅ ∧ k'.ShowsPids := by
  induction as generalizing k with
  | nil => exact ⟨k, rfl, h, hp⟩
  | cons a as ih =>
    obtain ⟨k1, hstep, h1, hk1⟩ := step_shared h a (hs a List.mem_cons_self)
    obtain ⟨k2, hrun, h2⟩ := ih h1 (hk1.showsPids h hp) fun b hb => hs b (List.mem_cons_of_mem a hb)
    exact ⟨k2, run_cons_ok.mpr ⟨k1, hstep, hrun⟩, h2⟩

/-! ## The shared page -/

/-- `us` is the page that process `i` shares with the user: it is mapped at `USYSCALL` with the
permissions `R` and `U`, nowhere else in this table or another, and holds the pid. -/
structure SharesPage (k : Kernel) (i : Fin NPROC) (root us : Nat) : Prop where
  usyscall : (k.proc i).usyscall = some us
  page : PTE2PA (ptEntry k.mach.mem root vUSYSCALL) = us
  perm : ptEntry k.mach.mem root vUSYSCALL &&& (PTE_V ||| PTE_R ||| PTE_W ||| PTE_X ||| PTE_U) =
    PTE_V ||| PTE_R ||| PTE_U
  here : ∀ v < NVPN, ptEntry k.mach.mem root v &&& PTE_V ≠ 0 →
    PTE2PA (ptEntry k.mach.mem root v) = us → v = vUSYSCALL
  others : ∀ j ≠ i, ∀ root', (k.proc j).pagetable = some root' →
    ∀ v < NVPN, ptEntry k.mach.mem root' v &&& PTE_V ≠ 0 →
      PTE2PA (ptEntry k.mach.mem root' v) ≠ us
  pid : load 4 k.mach.mem us = (k.proc i).pid

/-- A page of one process is mapped by no other. -/
theorem KInv.not_mapped (h : KInv k X Y E) (hij : j ≠ i)
    (hr : (k.proc j).pagetable = some root') (hq : q ∈ (k.proc i).pages k.mach.mem) (hv : v < NVPN)
    (hV : ptEntry k.mach.mem root' v &&& PTE_V ≠ 0) : PTE2PA (ptEntry k.mach.mem root' v) ≠ q := by
  rintro rfl
  obtain ⟨tf, us, htf, hus, hs⟩ := (h.proc j).space root' hr
  have hidle := h.idle_proc i
  have hnot : PTE2PA (ptEntry k.mach.mem root' v) ∉ (k.proc j).pages k.mach.mem := fun hin => by
    have hnd := (nodup_add.mp hidle.nodup).2.1
    refine disjoint_left.mp (nodup_add.mp hnd).2.2
      (mem_add.mpr (.inl hq)) ?_
    exact subset_of_le (Kernel.pages_le_rest hij) hin
  rw [Proc.pages_eq hr htf hus, spacePages] at hnot
  simp only [mem_add, mem_coe, mem_singleton, not_or] at hnot
  rw [Ne, and_V_eq_zero, Bool.not_eq_false] at hV
  rcases hs.valid_page hv hV with ⟨-, hp⟩ | ⟨-, hp⟩ | ⟨-, hp⟩ | ⟨-, hp⟩
  · exact hnot.1.1.2 hp
  · exact hnot.2 hp
  · exact hnot.1.2 hp
  · have hpage := hidle.page _ (mem_add.mpr (.inr (mem_add.mpr (.inl
      (mem_add.mpr (.inl hq))))))
    rw [hp] at hpage
    exact absurd h.trampoline.2 (by have := hpage.2.1; omega)

theorem KInv.sharesPage (h : KInv k X Y E) (hp : k.ShowsPid i)
    (hr : (k.proc i).pagetable = some root) : ∃ us, SharesPage k i root us := by
  obtain ⟨tf, us, htf, hus, hs⟩ := (h.proc i).space root hr
  have hmaps := hs.layout.usyscall
  obtain ⟨h1, h2, h3, h4⟩ := vUSYSCALL_lt
  have hV : (ptEntry k.mach.mem root vUSYSCALL).getLsbD 0 = true :=
    (hmaps.getLsbD (by omega)).trans (by decide)
  refine ⟨us, hus, hmaps.page, ?_, fun v hv hVv heq => ?_, fun j hj root' hr' v hv hVv => ?_,
    hp us hus⟩
  · have hmask : PTE_V ||| PTE_R ||| PTE_W ||| PTE_X ||| PTE_U = 0x1F#64 := by decide
    rw [hmask, hmaps.perm]
    decide
  · rw [Ne, and_V_eq_zero, Bool.not_eq_false] at hVv
    exact h.entry_inj hr hv (by omega) hVv hV (heq.trans hmaps.page.symm)
  · exact h.not_mapped hj hr' (Proc.mem_pages (.inr hus)) hv hVv

theorem KInv.count_freelist (h : KInv k X Y E) (hp : p ∈ k.mach.freelist) :
    k.mach.freelist.count p = 1 :=
  List.count_eq_one_of_mem (coe_nodup.mp (nodup_add.mp h.idle.nodup).1) hp

/-- **`ugetpid` agrees with `getpid`.** In every run of the life cycle in which no `wait` stores a
status in the shared page, every process shares a page of its own with the user that shows its pid;
the next call leaves a process its page (`exec` maps the same one), or frees the process and with it
the page, once. -/
theorem ugetpid_agrees (h : Booted pages k) {as : List Action} (hs : ∀ a ∈ as, a.1.SparesShared) :
    ∃ k', Lib.run step k as = .ok k' ∧
      (∀ i root, (k'.proc i).pagetable = some root → ∃ us, SharesPage k' i root us) ∧
      ∀ a : Action, a.1.SparesShared → ∃ k'', step k' a = .ok k'' ∧ k''.mach.refreed = false ∧
        ∀ j us, (k'.proc j).usyscall = some us → (k''.proc j).usyscall = some us ∨
          ((k''.proc j).usyscall = none ∧ k''.mach.freelist.count us = 1) := by
  obtain ⟨k', hrun, h', hp'⟩ := run_shared h.kinv h.showsPids hs
  have hlive : ∀ i, ((k'.proc i).pagetable ≠ none ∨ (k'.proc i).usyscall ≠ none) →
      (k'.proc i).state ≠ .UNUSED := fun i hi hun => by
    obtain ⟨hpt, -, hus, -⟩ := (h'.settled i (Finset.notMem_empty i)).unused hun
    exact hi.elim (fun hn => hn hpt) fun hn => hn hus
  refine ⟨k', hrun, fun i root hr => ?_, fun a ha => ?_⟩
  · exact h'.sharesPage (hp' i (hlive i (.inl (hr ▸ some_ne_none root)))) hr
  · obtain ⟨k'', hstep, h'', hk⟩ := step_shared h' a ha
    refine ⟨k'', hstep, h''.refreed, fun j us hus => ?_⟩
    rcases hk.live j (hlive j (.inr (hus ▸ some_ne_none us))) with ⟨hsh, -⟩ | ⟨-, hfreed, hle⟩
    · exact .inl (hsh.usyscall.trans hus)
    · refine .inr ⟨by rw [hfreed]; rfl, h''.count_freelist ?_⟩
      exact mem_coe.mp (subset_of_le hle (Proc.mem_pages (.inr hus)))

theorem ugetpid_agrees_small : ∃ pages k, Booted pages k ∧
    ∃ k', Lib.run step k lifeCycle = .ok k' ∧
      (∀ i root, (k'.proc i).pagetable = some root → ∃ us, SharesPage k' i root us) ∧
      ∀ a : Action, a.1.SparesShared → ∃ k'', step k' a = .ok k'' ∧ k''.mach.refreed = false ∧
        ∀ j us, (k'.proc j).usyscall = some us → (k''.proc j).usyscall = some us ∨
          ((k''.proc j).usyscall = none ∧ k''.mach.freelist.count us = 1) := by
  obtain ⟨pages, k, hb, -⟩ := small_booted
  refine ⟨pages, k, hb, ugetpid_agrees hb ?_⟩
  have hmiss : MissesShared 0 4 := by decide
  simp [lifeCycle, Op.SparesShared, hmiss]

/-! ## `wait` at `USYSCALL` -/

theorem KInv.usyscall_accessible (h : KInv k X Y E) (hr : (k.proc i).pagetable = some root)
    (hus : (k.proc i).usyscall = some us) (hb : b < PGSIZE) :
    AccessibleAt k.mach.mem root (USYSCALL + b) ∧
      physAddr k.mach.mem root (USYSCALL + b) = us + b := by
  obtain ⟨tf, us', htf, hus', hs⟩ := (h.proc i).space root hr
  obtain rfl : us' = us := some.inj (hus'.symm.trans hus)
  have hdiv : (USYSCALL + b) / PGSIZE = vUSYSCALL ∧ (USYSCALL + b) % PGSIZE = b ∧
      USYSCALL + b < MAXVA := by
    unfold vUSYSCALL USYSCALL TRAPFRAME TRAMPOLINE MAXVA PGSIZE at *
    omega
  have hmaps := hs.layout.usyscall
  have hpage := (h.idle_proc i).page us' (mem_add.mpr (.inr (mem_add.mpr (.inl
    (mem_add.mpr (.inl (Proc.mem_pages (.inr hus))))))))
  rw [AccessibleAt, physAddr, hdiv.1, hdiv.2.1, hmaps.page]
  refine ⟨⟨hdiv.2.2, ?_, ?_, ?_⟩, rfl⟩
  · rw [Ne, and_V_eq_zero, Bool.not_eq_false]
    exact (hmaps.getLsbD (by omega)).trans (by decide)
  · rw [Ne, and_U_eq_zero, Bool.not_eq_false]
    exact (hmaps.getLsbD (by omega)).trans (by decide)
  · rw [hmaps.page]
    have h1 := hpage.2.1
    have h2 := h.kend.1
    unfold KERNBASE at h2
    omega

/-- The status of the child goes where the pid was. -/
theorem wp_wait_usyscall (h : KInv k X 0 ∅) (hrun : (k.proc i).state = .RUNNABLE)
    (hus : (k.proc i).usyscall = some us)
    (hfind : (List.finRange NPROC).find? (fun j => decide ((k.proc j).parent = some i) &&
      decide ((k.proc j).state = .ZOMBIE)) = some j) :
    wp (wait i USYSCALL) (fun r k' => r = some (k.proc j).pid.toInt ∧
      (k'.proc i).usyscall = some us ∧ (k'.proc i).pid = (k.proc i).pid ∧
      load 4 k'.mach.mem us = (k.proc j).xstate) k := by
  have hz := List.find?_some hfind
  simp only [Bool.and_eq_true, decide_eq_true_eq] at hz
  have hij : i ≠ j := by
    rintro rfl
    exact absurd (hrun.symm.trans hz.2) (by decide)
  obtain ⟨root, tf, us', hr, htf, hus', hs⟩ := h.live (i := i) (by rw [hrun]; decide)
  obtain rfl : us' = us := some.inj (hus'.symm.trans hus)
  have hacc := fun {b} => h.usyscall_accessible hr hus (b := b)
  rw [wait]
  refine wp_bind (wp_get ?_)
  rw [hfind]
  refine wp_bind (wp_deref hr ?_)
  rw [if_pos (by decide)]
  refine wp_seq (h.wp_copyout hr htf hus hs USYSCALL _ 4) ?_
  rintro r k1 ⟨h1, same1, e1, hc, -⟩
  have hr0 : r = 0 := by
    rcases hc.ret with ⟨hr0, -⟩ | ⟨-, va, hle, hlt, hno⟩
    · exact hr0
    · obtain ⟨b, rfl⟩ := Nat.exists_eq_add_of_le hle
      exact absurd (hacc (by unfold PGSIZE; omega)).1 hno
  subst hr0
  rw [if_neg (by decide)]
  have hidle := h1.idle_proc j
  rw [add_assoc] at hidle
  refine wp_seq (wp_freePages hidle (h1.proc j)) ?_
  rintro ⟨⟩ k2 ⟨w, hfreed, -⟩
  obtain ⟨-, same2⟩ := w.kinv h1 {j} (fun _ _ _ => Finset.notMem_empty _) fun hj =>
    absurd (Finset.mem_singleton_self j) hj
  have hself : k2.proc i = k.proc i := by rw [w.proc i hij, e1.proc]
  refine wp_pure ⟨rfl, by rw [hself, hus], by rw [hself], ?_⟩
  -- the four bytes were copied, and freeing the child did not touch them
  have hus1 : (k1.proc i).usyscall = some us' := by rw [e1.proc, hus]
  have hdvd : PGSIZE ∣ us' := ((h.idle_proc i).page us' (mem_add.mpr (.inr
    (mem_add.mpr (.inl (mem_add.mpr (.inl (Proc.mem_pages (.inr hus))))))))).1
  have hbyte : ∀ x, us' ≤ x → x < us' + 4 →
      k2.mach.mem x = store 4 k.mach.mem us' (k.proc j).xstate x := by
    intro x hle hlt
    obtain ⟨b, rfl⟩ := Nat.exists_eq_add_of_le hle
    have hb : b < PGSIZE := by unfold PGSIZE; omega
    have hpage : PGROUNDDOWN (us' + b) ∈ ({us'}) :=
      mem_singleton.mpr (PGROUNDDOWN_of_mem hdvd hle (by omega))
    have hreach : Reached k.mach.mem root USYSCALL (USYSCALL + b) := by
      refine ⟨Nat.le_add_right _ _, fun v hv hv' => ?_⟩
      have hvb : v * PGSIZE = USYSCALL + 0 := by
        unfold USYSCALL TRAPFRAME TRAMPOLINE MAXVA PGSIZE at *
        omega
      rw [hvb]
      exact (hacc (by decide)).1
    have hhit := hc.hit (USYSCALL + b) (by omega) hreach
    rw [(hacc hb).2, Nat.add_sub_cancel_left] at hhit
    rw [(same2 i hij).shared.kept us' hus1 _ hpage, hhit, store_of_mem _ _ hle hlt,
      Nat.add_sub_cancel_left]
    rfl
  rw [load_congr hbyte]
  exact load_store _ _ _

/-- **`wait` overwrites the pid.** The first process forks, the child exits with status 5, and
`wait(USYSCALL)` returns its pid 2 and leaves 5 where the pid 1 of the caller was. -/
theorem wait_overwrites_pid : ∃ pages k, Reachable pages k ∧
    wp (wait ⟨0, by decide⟩ USYSCALL) (fun r k' => r = some 2 ∧
      ∃ us, (k'.proc ⟨0, by decide⟩).usyscall = some us ∧ (k'.proc ⟨0, by decide⟩).pid = 1 ∧
        load 4 k'.mach.mem us = 5) k := by
  let p : Fin NPROC := ⟨0, by decide⟩
  let c : Fin NPROC := ⟨1, by decide⟩
  let life : List Action := [(.fork p, []), (.exit c 5, [])]
  have htest : (boot 1).test small (fun _ k => firstPage k &&
      match Lib.run step k life with
      | .error _ => false
      | .ok k => decide ((k.proc p).state = .RUNNABLE) && decide ((k.proc p).pid = 1) &&
          decide ((List.finRange NPROC).find? (fun j => decide ((k.proc j).parent = some p) &&
            decide ((k.proc j).state = .ZOMBIE)) = some c) &&
          decide ((k.proc c).xstate = 5) && decide ((k.proc c).pid = 2)) = true := by
    decide +kernel
  obtain ⟨pages, k0, hboot, hk⟩ := of_test htest
  obtain ⟨hfirst, hk⟩ := Bool.and_eq_true_iff.mp hk
  cases hrun : Lib.run step k0 life with
  | error e =>
    rw [hrun] at hk
    cases hk
  | ok k =>
    rw [hrun] at hk
    simp only [Bool.and_eq_true, decide_eq_true_eq] at hk
    obtain ⟨⟨⟨⟨hstate, hpid⟩, hfind⟩, hx⟩, hc⟩ := hk
    have hreach : Reachable pages k :=
      ⟨k0, life, ⟨hfirst, _, _, _, _, _, by decide, by decide, hboot⟩, hrun⟩
    obtain ⟨root, tf, us, hr, htf, hus, hs⟩ := hreach.kinv.live (i := p) (by rw [hstate]; decide)
    refine ⟨pages, k, hreach, wp_mono (wp_wait_usyscall hreach.kinv hstate hus hfind) ?_⟩
    rintro r k' ⟨rfl, hus', hpid', hload⟩
    exact ⟨by rw [hc]; decide, us, hus', hpid'.trans hpid, hload.trans hx⟩

end Xv6
