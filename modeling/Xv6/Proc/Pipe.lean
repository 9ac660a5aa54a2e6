/-
# Xv6.Proc.Pipe — `pipealloc`, and the system calls on descriptors.

Every way out of `sys_pipe` gives back what it took: the two files, the page, the descriptors.
-/
import Xv6.Proc.File

namespace Xv6

open Lib Lib.Store Lib.Prog Function Multiset

variable {k k' : Kernel} {X : Multiset Nat} {Y : Fin NFILE → Int} {E : Finset (Fin NPROC)}
  {f g : Fin NFILE} {i j : Fin NPROC} {fd : Fin NOFILE}

/-! ## `filealloc` -/

/-- **`filealloc`** takes a closed file. -/
theorem KInv.wp_filealloc (h : KInv k X Y E) (hY : ∀ f, 0 ≤ Y f) :
    wp filealloc (fun r k' => (r = none ∧ k' = k) ∨ ∃ f, r = some f ∧ (k.ftable f).ref = 0 ∧
      k'.ftable = update k.ftable f { k.ftable f with ref := 1 } ∧
      (k.ftable f).type = .FD_NONE ∧ KInv k' X (give f 1 Y) E ∧ Quiet k k') k := by
  rw [filealloc]
  refine wp_bind (wp_get ?_)
  cases hfind : (List.finRange NFILE).find? fun f => decide ((k.ftable f).ref = 0) with
  | none => exact wp_pure (.inl ⟨rfl, rfl⟩)
  | some f =>
    have hz : (k.ftable f).ref = 0 := by simpa using List.find?_some hfind
    refine wp_seq (wp_setFile f _ k) ?_
    rintro ⟨⟩ k1 e1
    have href := h.files.ref f
    have hYf := hY f
    obtain ⟨hfiles, hpipes⟩ := h.files.setRef (f := f) (n := 1) (d := 1) (by omega)
      (by rw [hz]; rfl) fun _ => by omega
    obtain ⟨hk, hsame⟩ := h.refile_one e1 hpipes hfiles
    exact wp_pure (.inr ⟨f, rfl, hz, e1.ftable, h.files.closed f hz, hk, hsame, e1.proc,
      e1.initproc⟩)

/-! ## `pipealloc` -/

/-- What the call holds can be closed. -/
theorem KInv.ref_pos (h : KInv k X Y E) (hY : 1 ≤ Y f) : 1 ≤ (k.ftable f).ref := by
  have := h.files.ref f
  omega

/-- The file table after `pipealloc` made `f0` and `f1` the ends of a pipe in page `pi`. -/
def piped (ftable : Fin NFILE → File) (f0 f1 : Fin NFILE) (pi : Nat) : Fin NFILE → File :=
  let ft := update ftable f0 { ftable f0 with
    type := .FD_PIPE, readable := true, writable := false, pipe := pi }
  update ft f1 { ft f1 with
    type := .FD_PIPE, readable := false, writable := true, pipe := pi }

section Piped

variable {ftable : Fin NFILE → File} {f0 f1 : Fin NFILE} {pi : Nat}

theorem piped_fst (hne : f0 ≠ f1) : piped ftable f0 f1 pi f0 = { ftable f0 with
    type := .FD_PIPE, readable := true, writable := false, pipe := pi } := by
  rw [piped, update_of_ne hne, update_self]

theorem piped_snd (hne : f0 ≠ f1) : piped ftable f0 f1 pi f1 = { ftable f1 with
    type := .FD_PIPE, readable := false, writable := true, pipe := pi } := by
  rw [piped, update_self, update_of_ne (Ne.symm hne)]

theorem piped_ne (h0 : g ≠ f0) (h1 : g ≠ f1) : piped ftable f0 f1 pi g = ftable g := by
  rw [piped, update_of_ne h1, update_of_ne h0]

section

variable (hne : f0 ≠ f1) (h0 : (ftable f0).type = .FD_NONE) (h1 : (ftable f1).type = .FD_NONE)

include hne h0 h1

theorem isEnd_piped {pi' : Nat} {w : Bool} :
    IsEnd (piped ftable f0 f1 pi) pi' w g ↔
      IsEnd ftable pi' w g ∨ (pi' = pi ∧ g = if w then f1 else f0) := by
  by_cases hg1 : g = f1
  · subst hg1
    rw [IsEnd, IsEnd, piped_snd hne, h1]
    cases w <;> simp [Ne.symm hne, @eq_comm _ pi]
  by_cases hg0 : g = f0
  · subst hg0
    rw [IsEnd, IsEnd, piped_fst hne, h0]
    cases w <;> simp [hne, @eq_comm _ pi]
  · rw [IsEnd, IsEnd, piped_ne hg0 hg1]
    cases w <;> simp [hg0, hg1]

theorem pipes_piped : pipes (piped ftable f0 f1 pi) = insert pi (pipes ftable) := by
  ext pi'
  simp only [mem_pipes, isEnd_piped hne h0 h1, Finset.mem_insert]
  constructor
  · rintro ⟨w, g, hg | ⟨rfl, -⟩⟩
    · exact .inr ⟨w, g, hg⟩
    · exact .inl rfl
  · rintro (rfl | ⟨w, g, hg⟩)
    · exact ⟨true, f1, .inr ⟨rfl, rfl⟩⟩
    · exact ⟨w, g, .inl hg⟩

end

/-- The two files of the call become the ends of a pipe. -/
theorem FilesOk.piped {m : Store} {proc : Fin NPROC → Proc} (h : FilesOk m proc ftable Y)
    (hne : f0 ≠ f1) (h0 : (ftable f0).type = .FD_NONE) (h1 : (ftable f1).type = .FD_NONE)
    (href0 : (ftable f0).ref ≠ 0) (href1 : (ftable f1).ref ≠ 0) (hpi : pi ∉ pipes ftable)
    (hflag : ∀ w, load 4 m (pi + flagOff w) = 1) :
    FilesOk m proc (Xv6.piped ftable f0 f1 pi) Y := by
  have hcases : ∀ g, g = f0 ∨ g = f1 ∨ Xv6.piped ftable f0 f1 pi g = ftable g := fun g => by
    by_cases hg0 : g = f0
    · exact .inl hg0
    by_cases hg1 : g = f1
    · exact .inr (.inl hg1)
    · exact .inr (.inr (piped_ne hg0 hg1))
  have hold : ∀ w g, ¬IsEnd ftable pi w g := fun w g hg => hpi (mem_pipes.mpr ⟨w, g, hg⟩)
  refine ⟨fun g => ?_, fun g hg => ?_, fun g hg => ?_, fun pi' w g g' hg hg' => ?_, fun g hg => ?_,
    fun pi' hpi' w => ?_⟩
  · rw [← h.ref]
    rcases hcases g with rfl | rfl | hg
    · rw [piped_fst hne]
    · rw [piped_snd hne]
    · rw [hg]
  · rcases hcases g with rfl | rfl | hg'
    · rw [piped_fst hne] at hg
      exact absurd hg href0
    · rw [piped_snd hne] at hg
      exact absurd hg href1
    · rw [hg'] at hg ⊢
      exact h.closed g hg
  · rcases hcases g with rfl | rfl | hg'
    · rw [piped_fst hne] at hg
      cases hg
    · rw [piped_snd hne] at hg
      cases hg
    · rw [hg'] at hg
      exact h.typed g hg
  · rw [isEnd_piped hne h0 h1] at hg hg'
    rcases hg with hg | ⟨rfl, rfl⟩ <;> rcases hg' with hg' | ⟨hp, rfl⟩
    · exact h.ends pi' w g g' hg hg'
    · exact absurd (hp ▸ hg) (hold w g)
    · exact absurd hg' (hold w g')
    · rfl
  · rcases hcases g with rfl | rfl | hg'
    · rw [piped_fst hne]
      rfl
    · rw [piped_snd hne]
      rfl
    · rw [hg'] at hg ⊢
      exact h.access g hg
  · simp only [isEnd_piped hne h0 h1]
    by_cases hp : pi' = pi
    · rw [hp, hflag, if_pos ⟨_, .inr ⟨rfl, rfl⟩⟩]
    · rw [pipes_piped hne h0 h1, Finset.mem_insert] at hpi'
      simp only [hp, false_and, or_false]
      exact h.flag pi' (hpi'.resolve_left hp) w

end Piped

/-- Closing two files that the call holds. -/
theorem KInv.wp_close_both {α : Type} {r : α} (h : KInv k X (give g 1 (give f 1 Y)) E)
    (hY : ∀ f, 0 ≤ Y f) :
    wp (do fileclose f; fileclose g; pure r) (fun r' k' => r' = r ∧ KInv k' X Y E ∧ Quiet k k') k := by
  have hf : 1 ≤ give g 1 (give f 1 Y) f := by
    have := hY f
    rw [give, give_self]
    split <;> omega
  refine wp_seq (h.wp_fileclose (h.ref_pos hf)) ?_
  rintro ⟨⟩ k1 ⟨h₁, q1⟩
  rw [give_comm, give_give, add_neg_cancel, give_zero] at h₁
  have hg : 1 ≤ give g 1 Y g := by
    have := hY g
    rw [give_self]
    omega
  refine wp_seq (h₁.wp_fileclose (h₁.ref_pos hg)) ?_
  rintro ⟨⟩ k2 ⟨h2, q2⟩
  rw [give_give, add_neg_cancel, give_zero] at h2
  exact wp_pure ⟨rfl, h2, q1.trans q2⟩

/-- **`pipealloc`** makes a pipe with its two files, or takes nothing. -/
theorem KInv.wp_pipealloc (h : KInv k X 0 E) :
    wp pipealloc (fun r k' => (r = none ∧ KInv k' X 0 E ∧ Quiet k k') ∨
      ∃ f0 f1, r = some (f0, f1) ∧ f0 ≠ f1 ∧ (k'.ftable f0).type = .FD_PIPE ∧
        (k'.ftable f1).type = .FD_PIPE ∧ KInv k' X (give f1 1 (give f0 1 0)) E ∧ Quiet k k') k := by
  rw [pipealloc]
  refine wp_seq (h.wp_filealloc fun _ => le_rfl) ?_
  rintro r k1 (⟨rfl, rfl⟩ | ⟨f0, rfl, hz0, hft0, ht0, h₁, q1⟩)
  · exact wp_pure (.inl ⟨rfl, h, Quiet.refl k1⟩)
  refine wp_seq (h₁.wp_filealloc fun f => ?_) ?_
  · unfold give
    split <;> simp
  rintro r k2 (⟨rfl, rfl⟩ | ⟨f1, rfl, hz1, hft1, ht1, h2, q2⟩)
  · have hf : (1 : Int) ≤ give f0 1 0 f0 := by
      rw [give_self]
      rfl
    refine wp_seq (h₁.wp_fileclose (h₁.ref_pos hf)) ?_
    rintro ⟨⟩ k3 ⟨h3, q3⟩
    rw [give_give, add_neg_cancel, give_zero] at h3
    exact wp_bind (wp_pure (wp_pure (.inl ⟨rfl, h3, q1.trans q3⟩)))
  have hne : f0 ≠ f1 := by
    rintro rfl
    rw [hft0, update_self] at hz1
    cases hz1
  -- the page
  refine wp_seq (wp_onMach (wp_kalloc_moves h2.idle)) ?_
  rintro r k3 ⟨⟨rfl, m3⟩ | ⟨pi, rfl, hpage, m3⟩, e3⟩
  · obtain ⟨h3, same3⟩ := h2.mach (m3.frame_eq X (zero_add X).symm (zero_add X).symm) e3
    refine wp_mono (h3.wp_close_both fun _ => le_rfl) ?_
    rintro r k4 ⟨rfl, h4, q4⟩
    have q3 : Quiet k2 k3 := ⟨same3, e3.proc, e3.initproc⟩
    exact .inl ⟨rfl, h4, ((q1.trans q2).trans q3).trans q4⟩
  obtain ⟨h3, same3⟩ := h2.mach (m3.frame_eq X (zero_add X).symm rfl) e3
  have q3 : Quiet k2 k3 := ⟨same3, e3.proc, e3.initproc⟩
  have hflags := fun w => flagOff_add_le w
  refine wp_seq (wp_onMach (wp_storeWord (n := 4) 1 hpage.1 (Nat.le_add_right pi READOPEN)
    (Nat.add_le_add_left (hflags false) pi))) ?_
  rintro ⟨⟩ k4 ⟨⟨hm4, ht4, hf4, hr4⟩, e4⟩
  obtain ⟨h4, same4⟩ := h3.mach ((ht4.moves hf4 hr4).frame X) e4
  refine wp_seq (wp_onMach (wp_storeWord (n := 4) 1 hpage.1 (Nat.le_add_right pi WRITEOPEN)
    (Nat.add_le_add_left (hflags true) pi))) ?_
  rintro ⟨⟩ k5 ⟨⟨hm5, ht5, hf5, hr5⟩, e5⟩
  obtain ⟨h5, same5⟩ := h4.mach ((ht5.moves hf5 hr5).frame X) e5
  -- the two ends
  refine wp_seq (wp_setFile f0 _ k5) ?_
  rintro ⟨⟩ k6 e6
  refine wp_seq (wp_setFile f1 _ k6) ?_
  rintro ⟨⟩ k7 e7
  have hft : k5.ftable = k2.ftable := by rw [e5.ftable, e4.ftable, e3.ftable]
  have hft7 : k7.ftable = piped k5.ftable f0 f1 pi := by
    rw [e7.ftable, e6.ftable]
    rfl
  have hfst : k5.ftable f0 = { k.ftable f0 with ref := 1 } := by
    rw [hft, hft1, update_of_ne hne, hft0, update_self]
  have hsnd : k5.ftable f1 = { k1.ftable f1 with ref := 1 } := by
    rw [hft, hft1, update_self]
  have ht0' : (k5.ftable f0).type = .FD_NONE := by rw [hfst, ht0]
  have ht1' : (k5.ftable f1).type = .FD_NONE := by rw [hsnd, ht1]
  have hfresh : pi ∉ pipes k5.ftable := fun hin => by
    have hnd := (nodup_add.mp h5.idle.nodup).2.1
    have hdis := (nodup_add.mp hnd).2.2
    exact disjoint_left.mp hdis (mem_add.mpr (.inr hin))
      (mem_add.mpr (.inl (mem_singleton_self pi)))
  have hflag : ∀ w, load 4 k5.mach.mem (pi + flagOff w) = 1 := fun w => by
    rw [hm5, hm4]
    cases w with
    | true => exact load_store (k := 4) _ _ _
    | false =>
      exact (load_store_flag _ pi true 1).trans (load_store (k := 4) _ _ _)
  have hfiles := h5.files.piped hne ht0' ht1' (by rw [hfst]; exact one_ne_zero)
    (by rw [hsnd]; exact one_ne_zero) hfresh hflag
  obtain ⟨h7, same7⟩ : KInv k7 X _ E ∧ ∀ j, Same k5 k7 j := h5.refile (by rw [e7.mach, e6.mach])
    (by
      rw [hft7, pipes_piped hne ht0' ht1', Finset.insert_val_of_notMem hfresh,
        ← singleton_add, add_assoc, add_left_comm])
    (fun j => ⟨_, by rw [e7.proc, e6.proc]⟩)
    (fun j hj => by
      rw [e7.proc, e6.proc]
      exact h5.settled j hj)
    (by
      rw [e7.proc, e6.proc, hft7]
      exact hfiles)
  refine wp_pure (.inr ⟨f0, f1, rfl, hne, ?_, ?_, h7, ?_⟩)
  · rw [hft7, piped_fst hne]
  · rw [hft7, piped_snd hne]
  · have q4 : Quiet k3 k4 := ⟨same4, e4.proc, e4.initproc⟩
    have q5 : Quiet k4 k5 := ⟨same5, e5.proc, e5.initproc⟩
    have q7 : Quiet k5 k7 :=
      ⟨same7, by rw [e7.proc, e6.proc], by rw [e7.initproc, e6.initproc]⟩
    exact ((((q1.trans q2).trans q3).trans q4).trans q5).trans q7

/-! ## Descriptors -/

theorem wp_fdalloc (h : KInv k X Y E) (ha : (k.proc i).Active) (hf : (k.ftable f).type ≠ .FD_NONE) :
    wp (fdalloc i f) (fun r k' => (r = none ∧ k' = k) ∨
      ∃ fd, r = some fd ∧ (k.proc i).ofile fd = none ∧ KInv k' X (give f (-1) Y) E ∧
        (∀ j, Same k k' j) ∧ ProcOnly i ((k.proc i).setFd fd (some f)) k k') k := by
  rw [fdalloc]
  refine wp_bind (wp_get ?_)
  cases hfind : (List.finRange NOFILE).find? fun fd => ((k.proc i).ofile fd).isNone with
  | none => exact wp_pure (.inl ⟨rfl, rfl⟩)
  | some fd =>
    have hfd : (k.proc i).ofile fd = none := by simpa using List.find?_some hfind
    refine wp_seq (wp_setProc i _ k) ?_
    rintro ⟨⟩ k1 e1
    obtain ⟨h₁, same1⟩ := h.setFd ha e1 (h.files.fill hfd hf)
    exact wp_pure (.inr ⟨fd, rfl, hfd, h₁, same1, e1⟩)

theorem wp_argfd (i : Fin NPROC) (fd : BitVec 32) (k : Kernel) :
    wp (argfd i fd) (fun r k' => k' = k ∧ ∀ x, r = some x → (k.proc i).ofile x.1 = some x.2) k := by
  rw [argfd]
  split
  · exact wp_pure ⟨rfl, fun _ hx => nomatch hx⟩
  · refine wp_bind (wp_get (wp_pure ⟨rfl, fun x hx => ?_⟩))
    obtain ⟨f, hf, rfl⟩ := Option.map_eq_some_iff.mp hx
    exact hf

/-- **`sys_close`.** -/
theorem wp_sysClose (h : KInv k X 0 E) (ha : (k.proc i).Active) (fd : BitVec 32) :
    wp (sysClose i fd) (fun _ k' => KInv k' X 0 E ∧ ∀ j, Same k k' j) k := by
  rw [sysClose]
  refine wp_seq (wp_argfd i fd k) ?_
  rintro r _ ⟨rfl, hfd⟩
  cases r with
  | none => exact wp_pure ⟨h, Same.refl _⟩
  | some x =>
    obtain ⟨fd, f⟩ := x
    have hfd := hfd _ rfl
    refine wp_seq (wp_setProc i _ _) ?_
    rintro ⟨⟩ k1 e1
    obtain ⟨h₁, same1⟩ := h.setFd ha e1 (h.files.clear hfd)
    refine wp_seq (h₁.wp_fileclose (h₁.ref_pos ?_)) ?_
    · rw [give_self]
      exact le_rfl
    rintro ⟨⟩ k2 ⟨h2, q2⟩
    rw [give_give, add_neg_cancel, give_zero] at h2
    exact wp_pure ⟨h2, fun j => (same1 j).trans (q2.same j)⟩

/-- **`sys_dup`.** -/
theorem wp_sysDup (h : KInv k X 0 E) (ha : (k.proc i).Active) (fd : BitVec 32) :
    wp (sysDup i fd) (fun _ k' => KInv k' X 0 E ∧ ∀ j, Same k k' j) k := by
  rw [sysDup]
  refine wp_seq (wp_argfd i fd k) ?_
  rintro r _ ⟨rfl, hfd⟩
  cases r with
  | none => exact wp_pure ⟨h, Same.refl _⟩
  | some x =>
    obtain ⟨fd, f⟩ := x
    obtain ⟨href, htype⟩ := h.fd_open rfl (hfd _ rfl)
    refine wp_seq (wp_fdalloc h ha htype) ?_
    rintro r k1 (⟨rfl, rfl⟩ | ⟨fd', rfl, -, h₁, same1, e1⟩)
    · exact wp_pure ⟨h, Same.refl _⟩
    refine wp_seq (h₁.wp_filedup ?_ ?_) ?_
    · rw [e1.ftable]
      exact href
    · rw [e1.ftable]
      exact htype
    rintro r k2 ⟨-, h2, q2, -⟩
    rw [give_give, neg_add_cancel, give_zero] at h2
    exact wp_pure ⟨h2, fun j => (same1 j).trans (q2.same j)⟩

/-! ## `sys_pipe` -/

/-- **`copyout`** to the memory of process `i`. -/
theorem KInv.wp_copyout (h : KInv k X Y E) {root tf us : Nat} (hr : (k.proc i).pagetable = some root)
    (htf : (k.proc i).trapframe = some tf) (hus : (k.proc i).usyscall = some us)
    (hs : Space k.mach.mem k.mach.trampoline root (k.proc i).sz tf us (k.proc i).guard)
    (dst : Nat) (src : Nat → Byte) (len : Nat) :
    wp (onMach (copyout root dst src len)) (fun r k' => KInv k' X Y E ∧ (∀ j ≠ i, Same k k' j) ∧
      MachOnly k k' ∧ Copied root dst src len r k.mach k'.mach ∧
      Space k'.mach.mem k'.mach.trampoline root (k.proc i).sz tf us (k.proc i).guard ∧
      (MissesShared dst len → Shared k k' i)) k := by
  have hidle := h.idle_space hr htf hus
  refine wp_mono (wp_onMach (hs.wp_copyout hidle src)) ?_
  rintro r k' ⟨⟨hc, ht, hs', -⟩, e⟩
  have hown := hs.own_user hidle
  have w : Work i k k' := by
    refine (Work.refl h i).write e ht ?_ ?_ (subset_of_le ?_) fun q hq r hr' => ?_
    · rw [hc.state]
    · rw [hc.state]
    · rw [Proc.pages_eq hr htf hus, spacePages, userPages]
      exact add_le_add ((le_add_left _ _).trans (le_add_right _ _)) le_rfl
    · rw [hr] at hr'
      cases hr'
      exact (hown.notMem hq).1
  obtain ⟨h', same⟩ := w.kinv h E (fun j hj _ => hj) fun hi => by
    rw [e.proc]
    exact h.settled i hi
  rw [ht.trampoline]
  refine ⟨h', same, e, hc, hs', fun hmiss => ⟨by rw [e.proc], fun u hu => ?_⟩⟩
  obtain rfl : us = u := Option.some.inj (hus.symm.trans hu)
  exact hs.copied_kept hidle hc hmiss

/-- Taking back the descriptors that `sys_pipe` gave out. -/
theorem KInv.wp_unpipe (h : KInv k X 0 E) (ha : (k.proc i).Active) {fd0 fd1 : Fin NOFILE}
    (hfd : fd0 ≠ fd1) (h0 : (k.proc i).ofile fd0 = some f) (h1 : (k.proc i).ofile fd1 = some g) :
    wp (do
        setProc i fun p => { p with ofile := update p.ofile fd0 none }
        setProc i fun p => { p with ofile := update p.ofile fd1 none }
        fileclose f
        fileclose g
        pure (-1)) (fun (_ : Int) k' => KInv k' X 0 E ∧ ∀ j, Same k k' j) k := by
  refine wp_seq (wp_setProc i _ k) ?_
  rintro ⟨⟩ k1 e1
  obtain ⟨h₁, same1⟩ := h.setFd ha e1 (h.files.clear h0)
  have h1' : (k1.proc i).ofile fd1 = some g := by
    rw [e1.self]
    exact (update_of_ne (Ne.symm hfd) _ _).trans h1
  have ha1 : (k1.proc i).Active := by
    rw [e1.self]
    exact ha
  refine wp_seq (wp_setProc i _ k1) ?_
  rintro ⟨⟩ k2 e2
  obtain ⟨h2, same2⟩ := h₁.setFd ha1 e2 (h₁.files.clear h1')
  refine wp_mono (h2.wp_close_both fun _ => le_rfl) ?_
  rintro r k3 ⟨-, h3, q3⟩
  exact ⟨h3, fun j => ((same1 j).trans (same2 j)).trans (q3.same j)⟩

/-- **`sys_pipe`** keeps the invariant on every way out. -/
theorem wp_sysPipe (h : KInv k X 0 ∅) (hrun : (k.proc i).state = .RUNNABLE) (fdarray : Nat) :
    wp (sysPipe i fdarray) (fun _ k' => KInv k' X 0 ∅ ∧ ∀ j ≠ i, Same k k' j) k := by
  have ha : (k.proc i).Active := ⟨by rw [hrun]; decide, by rw [hrun]; decide⟩
  rw [sysPipe]
  refine wp_seq h.wp_pipealloc ?_
  rintro r k1 (⟨rfl, h₁, q1⟩ | ⟨rf, wf, rfl, hne, htr, htw, h₁, q1⟩)
  · exact wp_pure ⟨h₁, fun j _ => q1.same j⟩
  have ha1 : (k1.proc i).Active := by rwa [q1.proc]
  refine wp_seq (wp_fdalloc h₁ ha1 (by rw [htr]; decide)) ?_
  rintro r k2 (⟨rfl, rfl⟩ | ⟨fd0, rfl, hfd0, h2, same2, e2⟩)
  · refine wp_mono (h₁.wp_close_both fun _ => le_rfl) ?_
    rintro r k3 ⟨-, h3, q3⟩
    exact ⟨h3, fun j _ => (q1.same j).trans (q3.same j)⟩
  rw [give_comm, give_give, add_neg_cancel, give_zero] at h2
  have ha2 : (k2.proc i).Active := by
    rw [e2.self]
    exact ha1
  have h0 : (k2.proc i).ofile fd0 = some rf := by
    rw [e2.self]
    exact update_self ..
  refine wp_seq (wp_fdalloc h2 ha2 (by rw [e2.ftable, htw]; decide)) ?_
  rintro r k3 (⟨rfl, rfl⟩ | ⟨fd1, rfl, hfd1, h3, same3, e3⟩)
  · -- no second descriptor
    refine wp_seq (wp_setProc i _ _) ?_
    rintro ⟨⟩ k4 e4
    obtain ⟨h4, same4⟩ := h2.setFd ha2 e4 (h2.files.clear h0)
    rw [give_comm] at h4
    refine wp_mono (h4.wp_close_both fun _ => le_rfl) ?_
    rintro r k5 ⟨-, h5, q5⟩
    exact ⟨h5, fun j _ => ((q1.same j).trans (same2 j)).trans ((same4 j).trans (q5.same j))⟩
  rw [give_give, add_neg_cancel, give_zero] at h3
  have hfd : fd0 ≠ fd1 := by
    rintro rfl
    rw [h0] at hfd1
    cases hfd1
  have same : ∀ j, Same k k3 j := fun j => ((q1.same j).trans (same2 j)).trans (same3 j)
  have hself : k3.proc i = ((k.proc i).setFd fd0 (some rf)).setFd fd1 (some wf) := by
    rw [e3.self, e2.self, q1.proc]
  have hlive : (k3.proc i).state ≠ .UNUSED := by
    rw [hself]
    exact ha.1
  obtain ⟨root, tf, us, hr, htf, hus, hs⟩ := h3.live hlive
  refine wp_bind (wp_get (wp_bind (wp_deref hr ?_)))
  -- whatever the copies do, the descriptors are as they were
  have finish : ∀ {k5 : Kernel} {r : Int}, KInv k5 X 0 ∅ → (∀ j ≠ i, Same k k5 j) →
      k5.proc = k3.proc →
      wp (if r < 0 then do
            setProc i fun p => { p with ofile := update p.ofile fd0 none }
            setProc i fun p => { p with ofile := update p.ofile fd1 none }
            fileclose rf
            fileclose wf
            pure (-1)
          else pure 0) (fun (_ : Int) k' => KInv k' X 0 ∅ ∧ ∀ j ≠ i, Same k k' j) k5 := by
    intro k5 r h5 same5 hproc
    by_cases hneg : r < 0
    · rw [if_pos hneg]
      refine wp_mono (h5.wp_unpipe (f := rf) (g := wf) ?_ hfd ?_ ?_) ?_
      · rw [hproc, hself]
        exact ha
      · rw [hproc, e3.self]
        exact (update_of_ne hfd _ _).trans h0
      · rw [hproc, e3.self]
        exact update_self ..
      · rintro r k6 ⟨h6, same6⟩
        exact ⟨h6, fun j hj => (same5 j hj).trans (same6 j)⟩
    · rw [if_neg hneg]
      exact wp_pure ⟨h5, same5⟩
  refine wp_seq (h3.wp_copyout hr htf hus hs _ _ _) ?_
  rintro r0 k4 ⟨h4, same4, e4, -, hs4, -⟩
  have same4' : ∀ j ≠ i, Same k k4 j := fun j hj => (same j).trans (same4 j hj)
  by_cases hneg : r0 < 0
  · rw [if_pos hneg]
    exact wp_bind (wp_pure (finish h4 same4' e4.proc))
  rw [if_neg hneg]
  rw [← e4.proc] at hr htf hus hs4
  refine wp_seq (h4.wp_copyout hr htf hus hs4 _ _ _) ?_
  rintro r k5 ⟨h5, same5, e5, -, -⟩
  exact finish h5 (fun j hj => (same4' j hj).trans (same5 j hj)) (e5.proc.trans e4.proc)

end Xv6
