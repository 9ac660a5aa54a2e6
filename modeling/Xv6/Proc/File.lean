/-
# Xv6.Proc.File — reference counts of open files, and pipes.

Every function on open files moves references between descriptors and the call in progress.  `Y f` is
what the call holds of `f`: `filealloc` and `filedup` add one, `fileclose` takes one away, and writing
a descriptor moves one.  A pipe lives as long as one of its two files does: `pipeclose` clears the
flag of its end, and frees the page when the other end is gone too.
-/
import Xv6.Proc.Life
import Mathlib.Tactic.Ring

namespace Xv6

open Lib Lib.Store Lib.Prog Function Multiset

variable {pi : Nat} {w : Bool} {Y' : Fin NFILE → Int} {p : Proc} {o : Option (Fin NFILE)}

variable {k k' : Kernel} {X : Multiset Nat} {Y : Fin NFILE → Int} {E : Finset (Fin NPROC)}
  {m m' : Store} {proc proc' : Fin NPROC → Proc} {ftable ftable' : Fin NFILE → File}
  {f g : Fin NFILE} {i j : Fin NPROC} {fd : Fin NOFILE}

/-! ## Counting descriptors -/

/-- Process `i` with another value in descriptor `fd`. -/
def Proc.setFd (p : Proc) (fd : Fin NOFILE) (o : Option (Fin NFILE)) : Proc :=
  { p with ofile := update p.ofile fd o }

theorem ofile_setFd (o : Option (Fin NFILE)) (x : Fin NPROC × Fin NOFILE) :
    (update proc i ((proc i).setFd fd o) x.1).ofile x.2 =
      if x = (i, fd) then o else (proc x.1).ofile x.2 := by
  obtain ⟨j, fd'⟩ := x
  by_cases hj : j = i
  · subst hj
    by_cases hfd : fd' = fd
    · subst hfd
      simp [Proc.setFd]
    · simp [Proc.setFd, hfd]
  · simp [hj]

/-- Filling an empty descriptor. -/
theorem slots_fill (hfd : (proc i).ofile fd = none) :
    (slots (update proc i ((proc i).setFd fd (some f))) g).card =
      (slots proc g).card + if g = f then 1 else 0 := by
  by_cases hg : g = f
  · subst hg
    have hnot : (i, fd) ∉ slots proc g := by
      rw [mem_slots, hfd]
      exact fun h => nomatch h
    rw [if_pos rfl, ← Finset.card_insert_of_notMem hnot]
    refine congrArg Finset.card (Finset.ext fun x => ?_)
    rw [mem_slots, ofile_setFd, Finset.mem_insert, mem_slots]
    by_cases hx : x = (i, fd) <;> simp [hx]
  · rw [if_neg hg, Nat.add_zero]
    refine congrArg Finset.card (Finset.ext fun x => ?_)
    rw [mem_slots, ofile_setFd, mem_slots]
    by_cases hx : x = (i, fd)
    · subst hx
      simp [hfd, Ne.symm hg]
    · simp [hx]

/-- Clearing a descriptor. -/
theorem slots_clear (hfd : (proc i).ofile fd = some f) :
    (slots (update proc i ((proc i).setFd fd none)) g).card +
      (if g = f then 1 else 0) = (slots proc g).card := by
  set proc' := update proc i ((proc i).setFd fd none) with hproc'
  have hnone : (proc' i).ofile fd = none := by
    rw [hproc', update_self]
    simp [Proc.setFd]
  rw [← slots_fill hnone]
  refine congrArg Finset.card (Finset.ext fun x => ?_)
  rw [mem_slots, ofile_setFd, mem_slots]
  by_cases hx : x = (i, fd)
  · subst hx
    simp [hfd]
  · rw [if_neg hx, hproc', ofile_setFd, if_neg hx]

/-! ## References -/

theorem isEnd_congr (h : ∀ f, (ftable' f).type = (ftable f).type ∧
    (ftable' f).pipe = (ftable f).pipe ∧ (ftable' f).writable = (ftable f).writable)
    (pi : Nat) (w : Bool) (f : Fin NFILE) : IsEnd ftable' pi w f ↔ IsEnd ftable pi w f := by
  rw [IsEnd, IsEnd, (h f).1, (h f).2.1, (h f).2.2]

theorem mem_pipes : pi ∈ pipes ftable ↔ ∃ w f, IsEnd ftable pi w f := by
  simp only [pipes, Finset.mem_image, Finset.mem_filter, Finset.mem_univ, true_and, IsEnd]
  constructor
  · rintro ⟨f, ht, hp⟩
    exact ⟨_, f, ht, hp, rfl⟩
  · rintro ⟨_, f, ht, hp, -⟩
    exact ⟨f, ht, hp⟩

theorem pipes_congr (h : ∀ pi w f, IsEnd ftable' pi w f ↔ IsEnd ftable pi w f) :
    pipes ftable' = pipes ftable := by
  ext pi
  simp only [mem_pipes, h]

/-- The call in progress gets `d` references to `f`. -/
def give (f : Fin NFILE) (d : Int) (Y : Fin NFILE → Int) : Fin NFILE → Int := fun g =>
  Y g + if g = f then d else 0

theorem give_self (Y : Fin NFILE → Int) (f : Fin NFILE) (d : Int) : give f d Y f = Y f + d := by
  rw [give, if_pos rfl]

theorem give_ne (Y : Fin NFILE → Int) (d : Int) (h : g ≠ f) : give f d Y g = Y g := by
  rw [give, if_neg h, add_zero]

@[simp] theorem give_give (Y : Fin NFILE → Int) (f : Fin NFILE) (d e : Int) :
    give f e (give f d Y) = give f (d + e) Y := by
  funext g
  unfold give
  split <;> ring

@[simp] theorem give_zero (Y : Fin NFILE → Int) (f : Fin NFILE) : give f 0 Y = Y := by
  funext g
  rw [give, ite_self, add_zero]

theorem give_comm (Y : Fin NFILE → Int) (f g : Fin NFILE) (d e : Int) :
    give f d (give g e Y) = give g e (give f d Y) := by
  funext x
  unfold give
  ring

/-- The reference count of an open file changes, and with it what the call holds. -/
theorem FilesOk.setRef (h : FilesOk m proc ftable Y) {n : Nat} (hn : n ≠ 0) {d : Int}
    (hd : (n : Int) = (ftable f).ref + d)
    (htyped : (ftable f).type = .FD_NONE → ((slots proc f).card : Int) ≤ max 0 (-(Y f + d))) :
    FilesOk m proc (update ftable f { ftable f with ref := n }) (give f d Y) ∧
      pipes (update ftable f { ftable f with ref := n }) = pipes ftable := by
  set ftable' := update ftable f { ftable f with ref := n } with hft
  have hself : ftable' f = { ftable f with ref := n } := update_self ..
  have hne : ∀ g ≠ f, ftable' g = ftable g := fun g hg => update_of_ne hg ..
  have hend : ∀ pi w g, IsEnd ftable' pi w g ↔ IsEnd ftable pi w g := isEnd_congr fun g => by
    by_cases hg : g = f
    · subst hg
      rw [hself]
      exact ⟨rfl, rfl, rfl⟩
    · rw [hne g hg]
      exact ⟨rfl, rfl, rfl⟩
  refine ⟨⟨fun g => ?_, fun g hg => ?_, fun g hg => ?_, fun pi w g g' => ?_, fun g hg => ?_,
    fun pi hpi w => ?_⟩, pipes_congr hend⟩
  · by_cases hgf : g = f
    · subst hgf
      rw [hself, give_self, hd, h.ref g]
      ring
    · rw [hne g hgf, give_ne Y d hgf, h.ref g]
  · by_cases hgf : g = f
    · subst hgf
      rw [hself] at hg
      exact absurd hg hn
    · rw [hne g hgf] at hg ⊢
      exact h.closed g hg
  · by_cases hgf : g = f
    · subst hgf
      rw [hself] at hg
      rw [give_self]
      exact htyped hg
    · rw [hne g hgf] at hg
      rw [give_ne Y d hgf]
      exact h.typed g hg
  · rw [hend, hend]
    exact h.ends pi w g g'
  · by_cases hgf : g = f
    · subst hgf
      rw [hself] at hg ⊢
      exact h.access g hg
    · rw [hne g hgf] at hg ⊢
      exact h.access g hg
  · rw [pipes_congr hend] at hpi
    simp only [hend]
    exact h.flag pi hpi w

/-- A reference of the call goes into an empty descriptor. -/
theorem FilesOk.fill (h : FilesOk m proc ftable Y) (hfd : (proc i).ofile fd = none)
    (hf : (ftable f).type ≠ .FD_NONE) :
    FilesOk m (update proc i ((proc i).setFd fd (some f))) ftable (give f (-1) Y) := by
  refine ⟨fun g => ?_, h.closed, fun g hg => ?_, h.ends, h.access, h.flag⟩
  · rw [slots_fill hfd, h.ref]
    by_cases hgf : g = f
    · subst hgf
      rw [if_pos rfl, give_self]
      push_cast
      ring
    · rw [if_neg hgf, give_ne Y _ hgf, Nat.add_zero]
  · have hgf : g ≠ f := fun hgf => hf (hgf ▸ hg)
    rw [slots_fill hfd, if_neg hgf, give_ne Y _ hgf, Nat.add_zero]
    exact h.typed g hg

/-- The reference in a descriptor goes to the call. -/
theorem FilesOk.clear (h : FilesOk m proc ftable Y) (hfd : (proc i).ofile fd = some f) :
    FilesOk m (update proc i ((proc i).setFd fd none)) ftable (give f 1 Y) := by
  refine ⟨fun g => ?_, h.closed, fun g hg => ?_, h.ends, h.access, h.flag⟩
  · have hcard := slots_clear (g := g) hfd
    rw [h.ref, ← hcard]
    by_cases hgf : g = f
    · subst hgf
      rw [if_pos rfl, give_self]
      push_cast
      ring
    · rw [if_neg hgf, give_ne Y _ hgf, Nat.add_zero]
  · have hcard := slots_clear (g := g) hfd
    have ht := h.typed g hg
    rw [← hcard] at ht
    by_cases hgf : g = f
    · subst hgf
      rw [if_pos rfl] at ht
      rw [give_self]
      omega
    · rw [if_neg hgf, Nat.add_zero] at ht
      rwa [give_ne Y _ hgf]

/-! ## Closing -/

/-- The file table after the last reference to `f` is gone. -/
def shut (ftable : Fin NFILE → File) (f : Fin NFILE) : Fin NFILE → File :=
  update ftable f { ftable f with ref := 0, type := .FD_NONE }

theorem isEnd_shut : IsEnd (shut ftable f) pi w g ↔ IsEnd ftable pi w g ∧ g ≠ f := by
  by_cases hg : g = f
  · subst hg
    simp [shut, IsEnd]
  · simp [shut, IsEnd, hg]

theorem FilesOk.last (h : FilesOk m proc ftable Y) (hf : (ftable f).ref = 1)
    (hflag : ∀ pi ∈ pipes (shut ftable f), ∀ w,
      load 4 m' (pi + flagOff w) = if ∃ g, IsEnd (shut ftable f) pi w g then 1 else 0) :
    FilesOk m' proc (shut ftable f) (give f (-1) Y) := by
  have hself : shut ftable f f = { ftable f with ref := 0, type := .FD_NONE } :=
    update_self ..
  have hne : ∀ g ≠ f, shut ftable f g = ftable g := fun g hg => update_of_ne hg ..
  have href := h.ref f
  rw [hf] at href
  refine ⟨fun g => ?_, fun g hg => ?_, fun g hg => ?_, fun pi w g g' hg hg' => ?_, fun g hg => ?_,
    hflag⟩
  · by_cases hgf : g = f
    · subst hgf
      rw [hself, give_self]
      push_cast at href ⊢
      omega
    · rw [hne g hgf, give_ne Y _ hgf, h.ref]
  · by_cases hgf : g = f
    · subst hgf
      rw [hself]
    · rw [hne g hgf] at hg ⊢
      exact h.closed g hg
  · by_cases hgf : g = f
    · subst hgf
      rw [give_self]
      omega
    · rw [hne g hgf] at hg
      rw [give_ne Y _ hgf]
      exact h.typed g hg
  · exact h.ends pi w g g' (isEnd_shut.mp hg).1 (isEnd_shut.mp hg').1
  · by_cases hgf : g = f
    · subst hgf
      rw [hself] at hg
      cases hg
    · rw [hne g hgf] at hg ⊢
      exact h.access g hg

theorem flagOff_add_le (w : Bool) : flagOff w + 4 ≤ PGSIZE := by cases w <;> decide

theorem load_store_flag (m : Store) (pi : Nat) (w : Bool) (v : BitVec 32) :
    load 4 (store 4 m (pi + flagOff w) v) (pi + flagOff (!w)) = load 4 m (pi + flagOff (!w)) := by
  refine load_store_of_disjoint (j := 4) (k := 4) m v ?_
  cases w <;> simp [flagOff, READOPEN, WRITEOPEN]

/-- **`pipeclose`** frees the page if the other end is closed, and else clears its flag. -/
theorem wp_pipeclose (w : Bool) (h : Idle s ({pi} + F)) :
    wp (pipeclose pi w) (fun _ s' =>
      (load 4 s.mem (pi + flagOff (!w)) = 0 ∧ Moves {pi} 0 s s') ∨
      (load 4 s.mem (pi + flagOff (!w)) ≠ 0 ∧ Moves {pi} {pi} s s' ∧
        s'.mem = store 4 s.mem (pi + flagOff w) 0)) s := by
  have hpage : s.IsPage pi :=
    h.page pi (mem_add.mpr (.inr (mem_add.mpr (.inl (mem_singleton_self pi)))))
  have hoff := flagOff_add_le w
  rw [pipeclose]
  refine wp_seq (wp_storeWord (n := 4) 0 hpage.1 (Nat.le_add_right pi (flagOff w)) (by omega)) ?_
  rintro ⟨⟩ s1 ⟨hmem, ht, hfree, hre⟩
  have m1 : Moves {pi} {pi} s s1 := ht.moves hfree hre
  refine wp_bind (wp_get ?_)
  -- the flag that was stored is 0, so the other one decides
  have hcond : (load 4 s1.mem (pi + READOPEN) = 0 ∧ load 4 s1.mem (pi + WRITEOPEN) = 0) ↔
      load 4 s.mem (pi + flagOff (!w)) = 0 := by
    have hown : load 4 s1.mem (pi + flagOff w) = 0 := by rw [hmem, load_store]
    have hother : load 4 s1.mem (pi + flagOff (!w)) = load 4 s.mem (pi + flagOff (!w)) := by
      rw [hmem, load_store_flag]
    rw [← hother]
    cases w with
    | false => exact ⟨fun hh => hh.2, fun hh => ⟨hown, hh⟩⟩
    | true => exact ⟨fun hh => hh.1, fun hh => ⟨hh, hown⟩⟩
  by_cases hz : load 4 s.mem (pi + flagOff (!w)) = 0
  · rw [if_pos (hcond.mpr hz)]
    have h1 : Idle s1 (pi ::ₘ F) := by
      rw [← singleton_add]
      exact h.moves (m1.frame F)
    exact wp_mono (wp_kfree_moves h1) fun _ s' m2 => .inl ⟨hz, m1.trans m2⟩
  · rw [if_neg (hcond.not.mpr hz)]
    exact wp_pure (.inr ⟨hz, m1, hmem⟩)

/-! ## The kernel's file table -/

/-- From `k` to `k'` open file `f` became `x`, and nothing else changed. -/
structure FileOnly (f : Fin NFILE) (x : File) (k k' : Kernel) : Prop where
  mach : k'.mach = k.mach
  proc : k'.proc = k.proc
  ftable : k'.ftable = update k.ftable f x
  nextpid : k'.nextpid = k.nextpid
  initproc : k'.initproc = k.initproc

theorem wp_setFile (f : Fin NFILE) (g : File → File) (k : Kernel) :
    wp (setFile f g) (fun _ k' => FileOnly f (g (k.ftable f)) k k') k :=
  wp_modify ⟨rfl, rfl, rfl, rfl, rfl⟩

/-- A step on memory outside the tables. -/
theorem KInv.mach (h : KInv k X Y E) (hm : Moves X X' k.mach k'.mach)
    (e : MachOnly k k') : KInv k' X' Y E ∧ ∀ j, Same k k' j := by
  refine h.step_files (add_comm _ _) ?_ hm (fun j => ⟨_, by rw [e.proc]⟩) (fun j hj => ?_)
    fun hk => ?_
  · rw [e.ftable, add_comm]
  · rw [e.proc]
    exact h.settled j hj
  · rw [e.proc, e.ftable]
    exact h.files.congr (fun _ => rfl) (fun pi hpi => (h.pipe_isPage hpi).1) hk

/-- A step on the open files that memory does not show. -/
theorem KInv.refile (h : KInv k X Y E) {Y' : Fin NFILE → Int}
    (hmach : k'.mach = k.mach)
    (hpipes : (pipes k'.ftable).val + X' = (pipes k.ftable).val + X)
    (hproc : ∀ j, ∃ o, k'.proc j = { k.proc j with ofile := o })
    (hset : ∀ j ∉ E', (k'.proc j).Settled)
    (hfiles : FilesOk k.mach.mem k'.proc k'.ftable Y') :
    KInv k' X' Y' E' ∧ ∀ j, Same k k' j := by
  refine h.step_files (A := 0) (B := 0) (zero_add _).symm ?_ ?_ hproc hset fun _ => ?_
  · rw [hpipes, zero_add]
  · rw [hmach]
    exact Moves.refl _ _
  · rw [hmach]
    exact hfiles

/-- A step that changes one open file only. -/
theorem KInv.refile_one (h : KInv k X Y E) (e : FileOnly f x k k')
    (hpipes : pipes (update k.ftable f x) = pipes k.ftable)
    (hfiles : FilesOk k.mach.mem k.proc (update k.ftable f x) Y') :
    KInv k' X Y' E ∧ ∀ j, Same k k' j := by
  refine h.refile e.mach ?_ (fun j => ⟨_, by rw [e.proc]⟩) (fun j hj => ?_) ?_
  · rw [e.ftable, hpipes]
  · rw [e.proc]
    exact h.settled j hj
  · rw [e.proc, e.ftable]
    exact hfiles

/-- Ends of another pipe than that of `f`. -/
theorem isEnd_shut_of_ne (hpi : (ftable f).pipe ≠ pi) :
    IsEnd (shut ftable f) pi w g ↔ IsEnd ftable pi w g := by
  rw [isEnd_shut, and_iff_left_iff_imp]
  rintro ⟨-, hg, -⟩ rfl
  exact hpi hg

/-- Nothing else refers to an end of a pipe. -/
theorem FilesOk.isEnd_shut_self (h : FilesOk m proc ftable Y) (hf : IsEnd ftable pi w f) :
    ¬∃ g, IsEnd (shut ftable f) pi w g := by
  rintro ⟨g, hg⟩
  obtain ⟨hg, hne⟩ := isEnd_shut.mp hg
  exact hne (h.ends pi w g f hg hf)

theorem isEnd_shut_other (hf : IsEnd ftable pi w f) :
    IsEnd (shut ftable f) pi (!w) g ↔ IsEnd ftable pi (!w) g := by
  rw [isEnd_shut, and_iff_left_iff_imp]
  rintro ⟨-, -, hg⟩ rfl
  rw [hf.2.2] at hg
  cases w <;> cases hg

/-- The flags of the other pipes. -/
theorem FilesOk.flag_shut (h : FilesOk m proc ftable Y) (hpi : (ftable f).pipe ≠ pi)
    (hmem : pi ∈ pipes (shut ftable f)) (w : Bool) :
    load 4 m (pi + flagOff w) = if ∃ g, IsEnd (shut ftable f) pi w g then 1 else 0 := by
  rw [mem_pipes] at hmem
  simp only [isEnd_shut_of_ne hpi] at hmem ⊢
  exact h.flag pi (mem_pipes.mpr hmem) w

/-- Closing the last reference to an end of a pipe. -/
theorem KInv.wp_pipeclose (h : KInv k X Y E) (hf : (k.ftable f).ref = 1)
    (htype : (k.ftable f).type = .FD_PIPE)
    (e : FileOnly f { k.ftable f with ref := 0, type := .FD_NONE } k k₁) :
    wp (onMach (pipeclose (k.ftable f).pipe (k.ftable f).writable)) (fun _ k' =>
      (KInv k' X (give f (-1) Y) E ∧ ∀ j, Same k k' j) ∧ MachOnly k₁ k') k₁ := by
  set pi := (k.ftable f).pipe with hpi
  set w := (k.ftable f).writable with hw
  have hend : IsEnd k.ftable pi w f := ⟨htype, hpi.symm, hw.symm⟩
  have hmem : pi ∈ pipes k.ftable := mem_pipes.mpr ⟨w, f, hend⟩
  have hft : k₁.ftable = shut k.ftable f := e.ftable
  set R := (pipes k.ftable).val.erase pi + X with hRdef
  have hR : (pipes k.ftable).val + X = {pi} + R := by
    rw [hRdef, ← add_assoc, singleton_add, cons_erase hmem]
  have hidle : Idle k₁.mach ({pi} + (∑ i, (k.proc i).pages k.mach.mem + R)) := by
    have := h.idle
    rw [Kernel.held, add_assoc, hR, add_left_comm] at this
    rwa [e.mach]
  have hother : ∀ pi' ∈ pipes (shut k.ftable f), pi ≠ pi' → pi' ∈ R := fun pi' hpi' hne => by
    rw [mem_pipes] at hpi'
    simp only [isEnd_shut_of_ne (hpi ▸ hne)] at hpi'
    refine mem_add.mpr (.inl ?_)
    exact (mem_erase_of_ne (Ne.symm hne)).mpr (mem_pipes.mpr hpi')
  have hdvd : ∀ pi' ∈ pipes (shut k.ftable f), PGSIZE ∣ pi' := fun pi' hpi' => by
    obtain ⟨w', g, hg⟩ := mem_pipes.mp hpi'
    exact (h.pipe_isPage (mem_pipes.mpr ⟨w', g, (isEnd_shut.mp hg).1⟩)).1
  refine wp_mono (wp_onMach (Xv6.wp_pipeclose w hidle)) ?_
  rintro ⟨⟩ k' ⟨hres, e'⟩
  refine ⟨?_, e'⟩
  have hft' : k'.ftable = shut k.ftable f := by rw [e'.ftable, hft]
  have hproc' : k'.proc = k.proc := by rw [e'.proc, e.proc]
  have hset : ∀ j ∉ E, (k'.proc j).Settled := fun j hj => by
    rw [hproc']
    exact h.settled j hj
  rw [e.mach, h.files.flag pi hmem] at hres
  rcases hres with ⟨hz, hm⟩ | ⟨hz, hm, hst⟩
  · -- the other end is gone: the page goes back
    have hnone : ¬∃ g, IsEnd k.ftable pi (!w) g := fun hex => by
      rw [if_pos hex] at hz
      cases hz
    have hgone : pi ∉ pipes (shut k.ftable f) := fun hin => by
      obtain ⟨w', g, hg⟩ := mem_pipes.mp hin
      rcases Bool.eq_or_eq_not w' w with rfl | rfl
      · exact h.files.isEnd_shut_self hend ⟨g, hg⟩
      · exact hnone ⟨g, (isEnd_shut_other hend).mp hg⟩
    have hpipes : pipes (shut k.ftable f) = (pipes k.ftable).erase pi := by
      ext pi'
      rw [Finset.mem_erase]
      by_cases hne : pi' = pi
      · subst hne
        exact iff_of_false hgone fun hh => hh.1 rfl
      · rw [and_iff_right hne, mem_pipes, mem_pipes]
        simp only [isEnd_shut_of_ne (hpi ▸ Ne.symm hne)]
    refine h.step_files hR ?_ hm (fun j => ⟨_, by rw [hproc']⟩) hset fun hk => ?_
    · rw [hft', hpipes, Finset.erase_val, zero_add]
    · rw [hproc', hft']
      refine h.files.last hf fun pi' hpi' w' => ?_
      have hne : pi ≠ pi' := fun heq => hgone (heq ▸ hpi')
      rw [hk.load (hother pi' hpi' hne) (hdvd pi' hpi') _ (flagOff_add_le w')]
      exact h.files.flag_shut hne hpi' w'
  · -- the pipe stays, with one end
    have hex : ∃ g, IsEnd k.ftable pi (!w) g := by
      by_contra hnone
      rw [if_neg hnone] at hz
      exact hz rfl
    have hpipes : pipes (shut k.ftable f) = pipes k.ftable := by
      ext pi'
      by_cases hne : pi' = pi
      · subst hne
        refine iff_of_true ?_ hmem
        obtain ⟨g, hg⟩ := hex
        exact mem_pipes.mpr ⟨!w, g, (isEnd_shut_other hend).mpr hg⟩
      · rw [mem_pipes, mem_pipes]
        simp only [isEnd_shut_of_ne (hpi ▸ Ne.symm hne)]
    refine h.step_files hR ?_ hm (fun j => ⟨_, by rw [hproc']⟩) hset fun hk => ?_
    · rw [hft', hpipes, hR]
    · rw [hproc', hft']
      refine h.files.last hf fun pi' hpi' w' => ?_
      by_cases hne : pi = pi'
      · subst hne
        rw [hst]
        rcases Bool.eq_or_eq_not w' w with rfl | rfl
        · rw [load_store, if_neg (h.files.isEnd_shut_self hend)]
        · rw [load_store_flag, h.files.flag pi hmem]
          simp only [isEnd_shut_other hend]
      · rw [hk.load (hother pi' hpi' hne) (hdvd pi' hpi') _ (flagOff_add_le w')]
        exact h.files.flag_shut hne hpi' w'

/-- `p` and `p'` have the same memory and the same files. -/
structure Proc.Alike (p p' : Proc) : Prop where
  pagetable : p'.pagetable = p.pagetable
  trapframe : p'.trapframe = p.trapframe
  usyscall : p'.usyscall = p.usyscall
  size : p'.sz = p.sz
  guard : p'.guard = p.guard
  ofile : p'.ofile = p.ofile

theorem Proc.Alike.refl (p : Proc) : p.Alike p := ⟨rfl, rfl, rfl, rfl, rfl, rfl⟩

/-- A step on fields of processes that are not about memory or files. -/
theorem KInv.fields (h : KInv k X Y E) (E' : Finset (Fin NPROC)) (hmach : k'.mach = k.mach)
    (hftable : k'.ftable = k.ftable) (hproc : ∀ j, (k.proc j).Alike (k'.proc j))
    (hset : ∀ j ∉ E', (k'.proc j).Settled) : KInv k' X Y E' ∧ ∀ j, Same k k' j := by
  have hpages : ∀ j, (k'.proc j).pages k'.mach.mem = (k.proc j).pages k.mach.mem := fun j => by
    obtain ⟨h1, h2, h3, h4⟩ := hproc j
    rw [Proc.pages, Proc.pages, h1, h2, h3, h4, hmach]
  refine ⟨⟨?_, ?_, ?_, ?_, fun j => ?_, hset, ?_⟩, fun j => ?_⟩
  · rw [hmach]
    exact h.kend
  · rw [hmach]
    exact h.trampoline
  · rw [hmach, Kernel.held, Finset.sum_congr rfl fun j _ => hpages j, hftable]
    exact h.account
  · rw [hmach]
    exact h.refreed
  · obtain ⟨h1, h2, h3, h4, h5⟩ := hproc j
    refine ⟨fun root hr => ?_, fun hr => ?_⟩
    · rw [hmach, h2, h3, h4, h5]
      exact (h.proc j).space root (h1 ▸ hr)
    · rw [h4]
      exact (h.proc j).size (h1 ▸ hr)
  · rw [hmach, hftable]
    exact h.files.congr (fun j => (hproc j).ofile) (fun pi hpi => (h.pipe_isPage hpi).1)
      fun _ _ => rfl
  · obtain ⟨h1, h2, h3, h4⟩ := hproc j
    refine ⟨h1, h2, h3, h4, hpages j, fun _ _ => ?_⟩
    rw [hmach]

/-- A step on such fields of one process. -/
theorem KInv.relabel (h : KInv k X Y E) (E' : Finset (Fin NPROC)) (e : ProcOnly i p k k')
    (hp : (k.proc i).Alike p) (hE : ∀ j ∉ E', j ≠ i → j ∉ E) (hset : i ∉ E' → p.Settled) :
    KInv k' X Y E' ∧ ∀ j, Same k k' j := by
  refine h.fields E' e.mach e.ftable (fun j => ?_) fun j hjE => ?_
  · by_cases hj : j = i
    · subst hj
      rw [e.self]
      exact hp
    · rw [e.ne hj]
      exact Proc.Alike.refl _
  · by_cases hj : j = i
    · subst hj
      rw [e.self]
      exact hset hjE
    · rw [e.ne hj]
      exact h.settled j (hE j hjE hj)

/-- From `k` to `k'` the processes are the same, and so are their pages. -/
structure Quiet (k k' : Kernel) : Prop where
  same : ∀ j, Same k k' j
  proc : k'.proc = k.proc
  initproc : k'.initproc = k.initproc

theorem Quiet.trans (q : Quiet k k') (q' : Quiet k' k'') : Quiet k k'' :=
  ⟨fun j => (q.same j).trans (q'.same j), q'.proc.trans q.proc, q'.initproc.trans q.initproc⟩

theorem Quiet.refl (k : Kernel) : Quiet k k := ⟨Same.refl k, rfl, rfl⟩

/-- **`fileclose`** takes one reference away. -/
theorem KInv.wp_fileclose (h : KInv k X Y E) (hf : 1 ≤ (k.ftable f).ref) :
    wp (fileclose f) (fun _ k' => KInv k' X (give f (-1) Y) E ∧ Quiet k k') k := by
  rw [fileclose]
  refine wp_bind (wp_get ?_)
  rw [if_neg (by omega)]
  by_cases hmany : (k.ftable f).ref - 1 > 0
  · rw [if_pos hmany]
    refine wp_mono (wp_setFile f _ k) ?_
    rintro ⟨⟩ k1 e1
    have hd : (((k.ftable f).ref - 1 : Nat) : Int) = (k.ftable f).ref + (-1) := by omega
    obtain ⟨hfiles, hpipes⟩ := h.files.setRef (by omega) hd fun ht => by
      have := h.files.typed f ht
      omega
    obtain ⟨hk, hsame⟩ := h.refile_one e1 hpipes hfiles
    exact ⟨hk, hsame, e1.proc, e1.initproc⟩
  rw [if_neg hmany]
  have hone : (k.ftable f).ref = 1 := by omega
  refine wp_seq (wp_setFile f _ k) ?_
  rintro ⟨⟩ k1 e1
  by_cases hpipe : (k.ftable f).type = .FD_PIPE
  · rw [if_pos hpipe]
    refine wp_mono (h.wp_pipeclose hone hpipe e1) ?_
    rintro ⟨⟩ k' ⟨⟨hk, hsame⟩, e'⟩
    exact ⟨hk, hsame, e'.proc.trans e1.proc, e'.initproc.trans e1.initproc⟩
  · rw [if_neg hpipe]
    have hend : ∀ pi w g, IsEnd (shut k.ftable f) pi w g ↔ IsEnd k.ftable pi w g := by
      intro pi w g
      rw [isEnd_shut, and_iff_left_iff_imp]
      rintro ⟨ht, -⟩ rfl
      exact hpipe ht
    have hflag : ∀ pi ∈ pipes (shut k.ftable f), ∀ w, load 4 k.mach.mem (pi + flagOff w) =
        if ∃ g, IsEnd (shut k.ftable f) pi w g then 1 else 0 := fun pi hpi w => by
      rw [pipes_congr hend] at hpi
      simp only [hend]
      exact h.files.flag pi hpi w
    have hfiles := h.files.last hone hflag
    obtain ⟨hk, hsame⟩ := h.refile_one e1 (pipes_congr hend) hfiles
    exact wp_pure ⟨hk, hsame, e1.proc, e1.initproc⟩

/-- **`filedup`** adds a reference to an open file. -/
theorem KInv.wp_filedup (h : KInv k X Y E) (hf : 1 ≤ (k.ftable f).ref)
    (htype : (k.ftable f).type ≠ .FD_NONE) :
    wp (filedup f) (fun r k' => r = f ∧ KInv k' X (give f 1 Y) E ∧ Quiet k k' ∧
      ∀ g, (k'.ftable g).type = (k.ftable g).type) k := by
  rw [filedup]
  refine wp_bind (wp_get ?_)
  rw [if_neg (by omega)]
  refine wp_seq (wp_setFile f _ k) ?_
  rintro ⟨⟩ k1 e1
  obtain ⟨hfiles, hpipes⟩ := h.files.setRef (d := 1) (n := (k.ftable f).ref + 1) (by omega)
    (by push_cast; rfl) fun ht => absurd ht htype
  obtain ⟨hk, hsame⟩ := h.refile_one e1 hpipes hfiles
  refine wp_pure ⟨rfl, hk, ⟨hsame, e1.proc, e1.initproc⟩, fun g => ?_⟩
  rw [e1.ftable]
  by_cases hg : g = f
  · rw [hg, update_self]
  · rw [update_of_ne hg]

/-! ## Descriptors -/

theorem ofile_only (e : ProcOnly i (p.setFd fd o) k k') (hp : p = k.proc i) (j : Fin NPROC) :
    ∃ o, k'.proc j = { k.proc j with ofile := o } := by
  by_cases hj : j = i
  · subst hj
    exact ⟨_, by rw [e.self, hp]; rfl⟩
  · exact ⟨_, by rw [e.ne hj]⟩

/-- A process whose file descriptors do not tell its state. -/
def Proc.Active (p : Proc) : Prop := p.state ≠ .UNUSED ∧ p.state ≠ .ZOMBIE

theorem Proc.Active.settled (ha : p.Active) (hs : p.Settled) (o : Fin NOFILE → Option (Fin NFILE)) :
    Proc.Settled { p with ofile := o } :=
  ⟨fun hun => absurd hun ha.1, hs.used, fun hz => absurd hz ha.2⟩

/-- Writing a descriptor of an active process. -/
theorem KInv.setFd (h : KInv k X Y E) (ha : (k.proc i).Active)
    (e : ProcOnly i ((k.proc i).setFd fd o) k k')
    (hfiles : FilesOk k.mach.mem (update k.proc i ((k.proc i).setFd fd o)) k.ftable Y') :
    KInv k' X Y' E ∧ ∀ j, Same k k' j := by
  refine h.refile e.mach (by rw [e.ftable]) (ofile_only e rfl) (fun j hj => ?_) ?_
  · by_cases hji : j = i
    · subst hji
      rw [e.self]
      exact ha.settled (h.settled j hj) _
    · rw [e.ne hji]
      exact h.settled j hj
  · rw [e.proc, e.ftable]
    exact hfiles

/-- From `k` to `k'` descriptors of process `i` changed, and nothing else of any process. -/
structure OfileOnly (i : Fin NPROC) (k k' : Kernel) : Prop where
  same : ∀ j, Same k k' j
  proc : ∀ j ≠ i, k'.proc j = k.proc j
  self : ∃ o, k'.proc i = { k.proc i with ofile := o }
  initproc : k'.initproc = k.initproc

theorem OfileOnly.refl (i : Fin NPROC) (k : Kernel) : OfileOnly i k k :=
  ⟨Same.refl k, fun _ _ => rfl, ⟨_, rfl⟩, rfl⟩

theorem OfileOnly.trans (h : OfileOnly i k k') (h' : OfileOnly i k' k'') :
    OfileOnly i k k'' := by
  refine ⟨fun j => (h.same j).trans (h'.same j), fun j hj => (h'.proc j hj).trans (h.proc j hj), ?_,
    h'.initproc.trans h.initproc⟩
  obtain ⟨o, ho⟩ := h.self
  obtain ⟨o', ho'⟩ := h'.self
  exact ⟨o', by rw [ho', ho]⟩

theorem Quiet.setFd (q : Quiet k k₁) (e : ProcOnly i ((k₁.proc i).setFd fd o) k₁ k')
    (hsame : ∀ j, Same k₁ k' j) : OfileOnly i k k' := by
  refine ⟨fun j => (q.same j).trans (hsame j), fun j hj => ?_,
    ⟨update (k₁.proc i).ofile fd o, ?_⟩, e.initproc.trans q.initproc⟩
  · rw [e.ne hj, q.proc]
  · rw [e.self, q.proc]
    rfl

/-- What a descriptor refers to is open. -/
theorem KInv.fd_open (h : KInv k X Y E) (hY : Y f = 0) (hfd : (k.proc i).ofile fd = some f) :
    1 ≤ (k.ftable f).ref ∧ (k.ftable f).type ≠ .FD_NONE := by
  have hin : (i, fd) ∈ slots k.proc f := by
    rw [mem_slots]
    exact hfd
  have hpos := Finset.card_ne_zero_of_mem hin
  refine ⟨?_, fun ht => ?_⟩
  · have := h.files.ref f
    omega
  · have := h.files.typed f ht
    omega

end Xv6
