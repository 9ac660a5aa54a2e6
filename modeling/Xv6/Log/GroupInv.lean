/-
# Xv6.Log.GroupInv — group commit never splits or mixes operations.

`step_cases` says once what a step can do; `GroupInv` is the invariant, and `GroupInv.step` its
preservation, one case for each kind of step.  The two facts that make group commit work are that a
committing process excludes every process inside an operation, and that the in-memory header lists
the blocks logged since the previous commit until the commit has installed them.
-/
import Xv6.Log.Group

namespace Xv6

open Lib Function Finset

variable {p : Pid} {c : CommitPc}

namespace LogSys

variable {s s' : LogSys} {a : LogAct}

@[simp] theorem setPc_pc (p : Pid) (c : LogPc) : (s.setPc p c).pc = update s.pc p c := rfl

/-- The commit steps that change neither the log nor the history. -/
inductive Silent (lh : List BlockNo) : CommitPc → CommitPc → Prop
  | nonempty : lh ≠ [] → Silent lh .test (.writeLog 0)
  | copy (tail : Nat) : Silent lh (.writeLog tail) (.writeLog (tail + 1))
  | copied (tail : Nat) : Silent lh (.writeLog tail) .writeHead
  | install (tail : Nat) : Silent lh (.installTrans tail) (.installTrans (tail + 1))
  | installed (tail : Nat) : Silent lh (.installTrans tail) .clear

/-- **What a step can do.** -/
inductive StepCases (s : LogSys) : LogSys → Prop
  | sleep (p : Pid) : s.pc p = .user ∨ s.pc p = .waiting → StepCases s (s.setPc p .waiting)
  | enter (p : Pid) : s.pc p = .user ∨ s.pc p = .waiting → s.log.committing = false →
      (s.log.lh.length : Int) + (s.log.outstanding + 1) * MAXOPBLOCKS ≤ LOGSIZE →
      StepCases s { s.setPc p .inOp with
        log := { s.log with outstanding := s.log.outstanding + 1 }, hist := .began p :: s.hist }
  | absorb (p : Pid) (b : BlockNo) : s.pc p = .inOp → b ∈ s.log.lh →
      StepCases s { s with hist := .logged p b :: s.hist }
  | append (p : Pid) (b : BlockNo) : s.pc p = .inOp → b ∉ s.log.lh →
      StepCases s { s with
        log := { s.log with lh := s.log.lh ++ [b] }, hist := .logged p b :: s.hist }
  | last (p : Pid) : s.pc p = .inOp → s.log.committing = false → s.log.outstanding = 1 →
      StepCases s { s.setPc p (.commit .test) with
        log := { s.log with outstanding := 0, committing := true }, hist := .ended p :: s.hist }
  | leave (p : Pid) : s.pc p = .inOp → s.log.committing = false → s.log.outstanding ≠ 1 →
      StepCases s { s.setPc p .user with
        log := { s.log with outstanding := s.log.outstanding - 1 }, hist := .ended p :: s.hist }
  | silent (p : Pid) (c c' : CommitPc) : s.pc p = .commit c → Silent s.log.lh c c' →
      StepCases s (s.setPc p (.commit c'))
  | nothing (p : Pid) : s.pc p = .commit .test → s.log.lh = [] →
      StepCases s (s.setPc p (.commit .release))
  | header (p : Pid) : s.pc p = .commit .writeHead →
      StepCases s { s.setPc p (.commit (.installTrans 0)) with hist := .header s.log.lh :: s.hist }
  | clear (p : Pid) : s.pc p = .commit .clear →
      StepCases s { s.setPc p (.commit .eraseHead) with log := { s.log with lh := [] } }
  | erase (p : Pid) : s.pc p = .commit .eraseHead →
      StepCases s { s.setPc p (.commit .release) with hist := .erased :: s.hist }
  | release (p : Pid) : s.pc p = .commit .release →
      StepCases s { s.setPc p .user with
        log := { s.log with committing := false }, hist := .committed :: s.hist }

theorem commitStep_cases (hp : s.pc p = .commit c) : StepCases s (s.commitStep p c) := by
  cases c with
  | test =>
    by_cases hn : s.log.lh = []
    · rw [commitStep, if_neg (by simp [hn])]
      exact .nothing p hp hn
    · rw [commitStep, if_pos (List.length_pos_iff.mpr hn)]
      exact .silent p _ _ hp (.nonempty hn)
  | writeLog tail =>
    rw [commitStep]
    split_ifs
    · exact .silent p _ _ hp (.copy tail)
    · exact .silent p _ _ hp (.copied tail)
  | writeHead => exact .header p hp
  | installTrans tail =>
    rw [commitStep]
    split_ifs
    · exact .silent p _ _ hp (.install tail)
    · exact .silent p _ _ hp (.installed tail)
  | clear => exact .clear p hp
  | eraseHead => exact .erase p hp
  | release => exact .release p hp

theorem step_cases (h : s.step a = .ok s') : StepCases s s' := by
  cases a with
  | beginOp p =>
    rw [step] at h
    split_ifs at h with hp
    unfold Log.beginOp at h
    split_ifs at h with hc hr <;> cases h
    · exact .sleep p hp
    · exact .sleep p hp
    · exact .enter p hp (by simpa using hc) (by omega)
  | logWrite p b =>
    rw [step] at h
    split_ifs at h with hp
    unfold Log.logWrite at h
    split_ifs at h with h1 h2 hb <;> cases h
    · exact .absorb p b hp hb
    · exact .append p b hp hb
  | endOp p =>
    rw [step] at h
    split_ifs at h with hp
    unfold Log.endOp at h
    simp only at h
    split_ifs at h with hc ho <;> cases h
    · have h1 : s.log.outstanding = 1 := by omega
      rw [h1]
      exact .last p hp (by simpa using hc) h1
    · exact .leave p hp (by simpa using hc) (by omega)
  | commitStep p =>
    rw [step] at h
    split at h
    next c hp =>
      cases h
      exact commitStep_cases hp
    next => cases h

/-- **Where a step can panic**: in `log_write` or in `end_op`, inside an operation. -/
theorem step_panic {msg : String} (h : s.step a = .error (.panic msg)) :
    (∃ p b, a = .logWrite p b ∧ s.pc p = .inOp ∧ s.log.logWrite b = .error msg) ∨
    (∃ p, a = .endOp p ∧ s.pc p = .inOp ∧ s.log.endOp = .error msg) := by
  cases a with
  | beginOp p =>
    rw [step] at h
    split_ifs at h
    · split at h <;> cases h
    · cases h
  | logWrite p b =>
    rw [step] at h
    split_ifs at h with hp
    · split at h
      next hw =>
        cases h
        exact Or.inl ⟨p, b, rfl, hp, hw⟩
      next => cases h
    · cases h
  | endOp p =>
    rw [step] at h
    split_ifs at h with hp
    · split at h
      next hw =>
        cases h
        exact Or.inr ⟨p, rfl, hp, hw⟩
      next => cases h
    · cases h
  | commitStep p =>
    rw [step] at h
    split at h <;> cases h

/-! ## Who may run -/

/-- The control part of the invariant: `outstanding` counts the processes inside an operation, and
a committing process excludes them and every other committing process. -/
structure Control (s : LogSys) : Prop where
  count : ∃ A : Finset Pid, (∀ p, p ∈ A ↔ s.pc p = .inOp) ∧ s.log.outstanding = A.card
  quiet : s.log.committing = true → ∀ p, s.pc p ≠ .inOp
  flag : ∀ p c, s.pc p = .commit c → s.log.committing = true
  single : ∀ p q c c', s.pc p = .commit c → s.pc q = .commit c' → p = q

theorem Control.init (start size : Nat) : Control (LogSys.init start size) := by
  refine ⟨⟨∅, by simp [LogSys.init], rfl⟩, ?_, ?_, ?_⟩ <;> simp [LogSys.init]

/-- No commit runs while `committing` is clear. -/
theorem Control.no_commit (h : Control s) (hc : s.log.committing = false) (p : Pid) (c : CommitPc) :
    s.pc p ≠ .commit c := by
  intro hp
  simp [h.flag p c hp] at hc

/-- A process that is outside an operation and stays outside changes nobody's being inside. -/
theorem inOp_update {d : LogPc} (hp : s.pc p ≠ .inOp) (hd : d ≠ .inOp) (q : Pid) :
    s.pc q = .inOp ↔ update s.pc p d q = .inOp := by
  by_cases hq : q = p
  · subst hq
    simp [hp, hd]
  · rw [update_of_ne hq]

/-- A process that is outside an operation and stays outside leaves the count alone. -/
theorem Control.count_update (h : Control s) {c : LogPc} (hp : s.pc p ≠ .inOp) (hc : c ≠ .inOp) :
    ∃ A : Finset Pid, (∀ q, q ∈ A ↔ update s.pc p c q = .inOp) ∧
      s.log.outstanding = A.card := by
  obtain ⟨A, hA, ho⟩ := h.count
  exact ⟨A, fun q => (hA q).trans (inOp_update hp hc q), ho⟩

/-- Whoever commits after a step of `p` is `p`, if nobody else did before. -/
theorem single_update {d : LogPc} (h : ∀ q e, s.pc q = .commit e → q = p) (q r : Pid)
    (e e' : CommitPc) (hq : update s.pc p d q = .commit e) (hr : update s.pc p d r = .commit e') :
    q = r := by
  have key : ∀ t e, update s.pc p d t = .commit e → t = p := by
    intro t e ht
    by_contra hne
    rw [update_of_ne hne] at ht
    exact hne (h t e ht)
  rw [key q e hq, key r e' hr]

/-- A step of the committing process from `c` to `c'` keeps the control invariant. -/
theorem Control.commit_step (h : Control s) (hp : s.pc p = .commit c) (c' : CommitPc) :
    Control (s.setPc p (.commit c')) := by
  refine ⟨h.count_update (by simp [hp]) (by simp), ?_, fun _ _ _ => h.flag p c hp, ?_⟩
  · intro hc q hq
    exact h.quiet hc q (of_update hq nofun).2
  · exact single_update fun q d hq => h.single q p d c hq hp

theorem Control.congr {t : LogSys} (h : Control s) (hpc : t.pc = s.pc)
    (ho : t.log.outstanding = s.log.outstanding) (hc : t.log.committing = s.log.committing) :
    Control t := by
  obtain ⟨h1, h2, h3, h4⟩ := h
  exact ⟨by rw [hpc, ho]; exact h1, by rw [hpc, hc]; exact h2, by rw [hpc, hc]; exact h3,
    by rw [hpc]; exact h4⟩

theorem Control.step (h : Control s) (hs : StepCases s s') : Control s' := by
  cases hs with
  | sleep p hp =>
    have hne : s.pc p ≠ .inOp := by rcases hp with hp | hp <;> simp [hp]
    refine ⟨h.count_update hne (by simp), ?_, ?_, ?_⟩
    · intro hc q hq
      exact h.quiet hc q (of_update hq nofun).2
    · intro q c hq
      exact h.flag q c (of_update hq nofun).2
    · intro q r c c' hq hr
      exact h.single q r c c' (of_update hq nofun).2 (of_update hr nofun).2
  | enter p hp hc _ =>
    have hne : s.pc p ≠ .inOp := by rcases hp with hp | hp <;> simp [hp]
    obtain ⟨A, hA, ho⟩ := h.count
    have hpA : p ∉ A := by rwa [hA]
    refine ⟨⟨insert p A, ?_, ?_⟩, ?_, ?_, ?_⟩
    · intro q
      by_cases hq : q = p
      · subst hq
        simp
      · simp [hq, hA]
    · simp [card_insert_of_notMem hpA, ho]
    · simp [hc]
    · intro q c hq
      exact absurd (of_update hq nofun).2 (h.no_commit hc q c)
    · intro q r c c' hq _
      exact absurd (of_update hq nofun).2 (h.no_commit hc q c)
  | absorb p b _ _ | append => exact h.congr rfl rfl rfl
  | last p hp hc ho =>
    obtain ⟨A, hA, hcard⟩ := h.count
    have hpA : p ∈ A := (hA p).mpr hp
    -- `p` was the only process inside an operation
    have hone : ∀ q, s.pc q = .inOp → q = p := by
      obtain ⟨x, rfl⟩ := card_eq_one.mp (show A.card = 1 by omega)
      intro q hq
      rw [mem_singleton.mp ((hA q).mpr hq), mem_singleton.mp hpA]
    have hout : ∀ q, update s.pc p (.commit .test) q ≠ .inOp := by
      intro q hq
      obtain ⟨he, hin⟩ := of_update hq nofun
      exact he (hone q hin)
    refine ⟨⟨∅, fun q => by simpa using hout q, rfl⟩, fun _ => hout, fun _ _ _ => rfl, ?_⟩
    exact single_update fun q c hq => absurd hq (h.no_commit hc q c)
  | leave p hp hc ho =>
    obtain ⟨A, hA, hcard⟩ := h.count
    have hpA : p ∈ A := (hA p).mpr hp
    have hpos : 0 < A.card := card_pos.mpr ⟨p, hpA⟩
    have hno : ∀ q c, update s.pc p .user q ≠ .commit c := by
      intro q c hq
      exact h.no_commit hc q c (of_update hq nofun).2
    refine ⟨⟨A.erase p, ?_, ?_⟩, ?_, ?_, ?_⟩
    · intro q
      by_cases he : q = p
      · subst he
        simp
      · simp [he, hA]
    · simp only
      rw [card_erase_of_mem hpA]
      omega
    · simp [hc]
    · intro q c hq
      exact absurd hq (hno q c)
    · intro q r c c' hq _
      exact absurd hq (hno q c)
  | silent p c c' hp _ => exact h.commit_step hp c'
  | nothing p hp _ => exact h.commit_step hp _
  | header p hp | clear _ hp | erase _ hp => exact (h.commit_step hp _).congr rfl rfl rfl
  | release p hp =>
    have hno : ∀ q c, update s.pc p .user q ≠ .commit c := by
      intro q c hq
      obtain ⟨he, hin⟩ := of_update hq nofun
      exact he (h.single q p _ _ hin hp)
    refine ⟨h.count_update (by simp [hp]) (by simp), by simp, ?_, ?_⟩
    · intro q c hq
      exact absurd hq (hno q c)
    · intro q r c c' hq _
      exact absurd hq (hno q c)

/-! ## What the header lists -/

/-- Every header written so far lists exactly the blocks of the operations that had ended since the
commit before it, and was written while no operation was in progress. -/
def HeadersOk : List LogEvent → Prop
  | [] => True
  | .header lh :: h =>
    ((∀ b, b ∈ lh ↔ ∃ op ∈ endedOps h, b ∈ op.2) ∧ ∀ p, ¬ InProgress p h) ∧ HeadersOk h
  | .began _ :: h | .logged _ _ :: h | .ended _ :: h | .erased :: h | .committed :: h =>
    HeadersOk h

/-- The commit has cleared the in-memory header and not yet released the log. -/
def Clearing (s : LogSys) : Prop :=
  ∃ p, s.pc p = .commit .eraseHead ∨ s.pc p = .commit .release

/-- The content part of the invariant. -/
structure Content (s : LogSys) : Prop where
  nodup : s.log.lh.Nodup
  progress : ∀ p, InProgress p s.hist ↔ s.pc p = .inOp
  idle : ∀ p, s.pc p ≠ .inOp → opWrites p s.hist = []
  logged : ¬ Clearing s → ∀ b, b ∈ s.log.lh ↔ b ∈ transBlocks s.hist
  cleared : Clearing s → s.log.lh = []
  parts : ∀ b, b ∈ transBlocks s.hist ↔
    (∃ op ∈ endedOps s.hist, b ∈ op.2) ∨ ∃ p, b ∈ opWrites p s.hist
  headers : HeadersOk s.hist

theorem Content.init (start size : Nat) : Content (LogSys.init start size) := by
  refine ⟨by simp [LogSys.init], ?_, ?_, ?_, ?_, ?_, trivial⟩ <;>
    simp [LogSys.init, InProgress, opWrites, transBlocks, endedOps, Clearing]

/-- A process that neither enters nor leaves an operation, and neither enters nor leaves the
clearing phase, keeps the content invariant. -/
theorem Content.setPc (h : Content s) {c : LogPc} (hp : s.pc p ≠ .inOp) (hc : c ≠ .inOp)
    (hcl : Clearing (s.setPc p c) ↔ Clearing s) : Content (s.setPc p c) := by
  have hin := inOp_update hp hc
  refine ⟨h.nodup, fun q => (h.progress q).trans (hin q), ?_, ?_, ?_, h.parts, h.headers⟩
  · intro q hq
    exact h.idle q fun hq' => hq ((hin q).mp hq')
  · rw [hcl]
    exact h.logged
  · rw [hcl]
    exact h.cleared

/-- While one process commits at `c`, the clearing phase is read off `c`. -/
theorem Control.clearing_iff (h : Control s) (hp : s.pc p = .commit c) :
    Clearing s ↔ c = .eraseHead ∨ c = .release := by
  constructor
  · rintro ⟨q, hq⟩
    rcases hq with hq | hq
    · obtain rfl := h.single q p _ _ hq hp
      left
      simpa [hp] using hq
    · obtain rfl := h.single q p _ _ hq hp
      right
      simpa [hp] using hq
  · rintro (rfl | rfl)
    · exact ⟨p, Or.inl hp⟩
    · exact ⟨p, Or.inr hp⟩

theorem Control.not_clearing (h : Control s) (hc : s.log.committing = false) : ¬ Clearing s := by
  rintro ⟨p, hp | hp⟩
  · exact h.no_commit hc p _ hp
  · exact h.no_commit hc p _ hp

/-- A step to a point before the clearing phase is no step into it. -/
theorem Clearing.of_setPc {d : LogPc} (h : Clearing (s.setPc p d)) (he : d ≠ .commit .eraseHead)
    (hr : d ≠ .commit .release) : Clearing s := by
  obtain ⟨q, hq | hq⟩ := h
  · exact ⟨q, .inl (of_update hq he).2⟩
  · exact ⟨q, .inr (of_update hq hr).2⟩

/-- Process `p` cannot be inside an operation while the log is committing. -/
theorem Control.not_committing_of_inOp (h : Control s) (hp : s.pc p = .inOp) :
    s.log.committing = false := by
  by_contra hc
  exact h.quiet (by simpa using hc) p hp

/-- Outside the clearing phase and while no operation runs, the header lists what has ended. -/
theorem Content.lists_ended (h : Content s) (hcl : ¬ Clearing s) (hq : ∀ p, s.pc p ≠ .inOp)
    (b : BlockNo) : b ∈ s.log.lh ↔ ∃ op ∈ endedOps s.hist, b ∈ op.2 := by
  rw [h.logged hcl, h.parts]
  constructor
  · rintro (hb | ⟨p, hb⟩)
    · exact hb
    · rw [h.idle p (hq p)] at hb
      cases hb
  · exact Or.inl

/-- A step of the committing process keeps the content invariant when it stays on its side of the
clearing phase. -/
theorem Content.commit_step (h : Content s) (hC : Control s) (hp : s.pc p = .commit c)
    (c' : CommitPc) (hcl : (c' = .eraseHead ∨ c' = .release) ↔ (c = .eraseHead ∨ c = .release)) :
    Content (s.setPc p (.commit c')) := by
  refine h.setPc (by simp [hp]) (by simp) ?_
  rw [(hC.commit_step hp c').clearing_iff (p := p) (c := c') (by simp), hC.clearing_iff hp, hcl]

/-- Logging block `b` in an operation of `p`, with the header `lh` it leaves. -/
theorem Content.log (h : Content s) (hC : Control s) {b : BlockNo} {lh : List BlockNo}
    (hp : s.pc p = .inOp) (hnd : lh.Nodup) (hlh : ∀ x, x ∈ lh ↔ x = b ∨ x ∈ s.log.lh) :
    Content { s with log := { s.log with lh := lh }, hist := .logged p b :: s.hist } := by
  have hncl : ¬ Clearing s := hC.not_clearing (hC.not_committing_of_inOp hp)
  refine ⟨hnd, h.progress, ?_, ?_, fun hcl => absurd hcl hncl, ?_, h.headers⟩
  · intro q hq
    have hqp : p ≠ q := by
      rintro rfl
      exact hq hp
    rw [opWrites, if_neg hqp]
    exact h.idle q hq
  · intro _ x
    rw [transBlocks, List.mem_cons, hlh, h.logged hncl]
  · intro x
    rw [transBlocks, List.mem_cons, h.parts, endedOps]
    constructor
    · rintro (rfl | hx | ⟨q, hx⟩)
      · exact Or.inr ⟨p, by simp [opWrites]⟩
      · exact Or.inl hx
      · refine Or.inr ⟨q, ?_⟩
        rw [opWrites]
        split_ifs
        · exact List.mem_cons_of_mem _ hx
        · exact hx
    · rintro (hx | ⟨q, hx⟩)
      · exact Or.inr (Or.inl hx)
      · rw [opWrites] at hx
        split_ifs at hx
        · rcases List.mem_cons.mp hx with hx | hx
          · exact Or.inl hx
          · exact Or.inr (Or.inr ⟨q, hx⟩)
        · exact Or.inr (Or.inr ⟨q, hx⟩)

/-- Ending the operation of `p`: its blocks move from the running to the ended operations. -/
theorem Content.endOp (h : Content s) {c : LogPc} {log : Log} (hp : s.pc p = .inOp) (hc : c ≠ .inOp)
    (hcl : ¬ Clearing (s.setPc p c)) (hs : ¬ Clearing s) (hlh : log.lh = s.log.lh) :
    Content { s.setPc p c with log := log, hist := .ended p :: s.hist } := by
  refine ⟨?_, ?_, ?_, ?_, fun h => absurd h hcl, ?_, h.headers⟩
  · rw [hlh]
    exact h.nodup
  · intro q
    by_cases he : q = p
    · subst he
      simp [InProgress, hc]
    · simp [InProgress, Ne.symm he, update_of_ne he, h.progress]
  · intro q hq
    rw [opWrites]
    split_ifs with he
    · rfl
    · exact h.idle q (by simpa [update_of_ne (Ne.symm he)] using hq)
  · intro _ b
    rw [hlh, h.logged hs, transBlocks]
  · intro b
    rw [transBlocks, h.parts, endedOps]
    constructor
    · rintro (⟨op, hop, hb⟩ | ⟨q, hb⟩)
      · exact Or.inl ⟨op, List.mem_cons_of_mem _ hop, hb⟩
      · by_cases he : p = q
        · subst he
          exact Or.inl ⟨_, List.mem_cons_self, hb⟩
        · exact Or.inr ⟨q, by rwa [opWrites, if_neg he]⟩
    · rintro (⟨op, hop, hb⟩ | ⟨q, hb⟩)
      · rcases List.mem_cons.mp hop with rfl | hop
        · exact Or.inr ⟨p, hb⟩
        · exact Or.inl ⟨op, hop, hb⟩
      · rw [opWrites] at hb
        split_ifs at hb
        · cases hb
        · exact Or.inr ⟨q, hb⟩

theorem Content.step (h : Content s) (hC : Control s) (hs : StepCases s s') : Content s' := by
  cases hs with
  | sleep p hp =>
    have hne : s.pc p ≠ .inOp := by rcases hp with hp | hp <;> simp [hp]
    refine h.setPc hne (by simp) ?_
    have hnc : ∀ c, s.pc p ≠ .commit c := by
      intro c
      rcases hp with hp | hp <;> simp [hp]
    constructor
    · intro hcl
      exact hcl.of_setPc nofun nofun
    · rintro ⟨q, hq⟩
      have he : q ≠ p := by
        rintro rfl
        rcases hq with hq | hq <;> exact hnc _ hq
      exact ⟨q, by simpa [update_of_ne he] using hq⟩
  | enter p hp hc _ =>
    have hne : s.pc p ≠ .inOp := by rcases hp with hp | hp <;> simp [hp]
    have hcl : ¬ Clearing (s.setPc p .inOp) :=
      fun hcl => hC.not_clearing hc (hcl.of_setPc nofun nofun)
    have hop : ∀ q, opWrites q (.began p :: s.hist) = opWrites q s.hist := by
      intro q
      rw [opWrites]
      split_ifs with he
      · subst he
        exact (h.idle p hne).symm
      · rfl
    refine ⟨h.nodup, ?_, ?_, ?_, fun hcl' => absurd hcl' hcl, ?_, h.headers⟩
    · intro q
      by_cases he : q = p
      · subst he
        simp [InProgress]
      · simp [InProgress, Ne.symm he, update_of_ne he, h.progress]
    · intro q hq
      rw [hop]
      refine h.idle q fun hq' => hq ?_
      by_cases he : q = p
      · subst he
        simp
      · simpa [update_of_ne he] using hq'
    · intro _ b
      exact h.logged (hC.not_clearing hc) b
    · intro b
      simp only [hop]
      exact h.parts b
  | absorb p b hp hb =>
    refine h.log hC hp h.nodup fun x => ⟨Or.inr, ?_⟩
    rintro (rfl | hx)
    · exact hb
    · exact hx
  | append p b hp hb =>
    refine h.log hC hp (List.nodup_append.mpr ⟨h.nodup, List.nodup_singleton b, ?_⟩) fun x => ?_
    · intro x hx y hy he
      rw [List.mem_singleton.mp hy] at he
      exact hb (he ▸ hx)
    · rw [List.mem_append, List.mem_singleton, or_comm]
  | last p hp hc ho | leave p hp hc =>
    refine h.endOp hp (by simp) (fun hcl => ?_) (hC.not_clearing hc) rfl
    exact hC.not_clearing hc (hcl.of_setPc nofun nofun)
  | silent p c c' hp hsil => exact h.commit_step hC hp c' (by cases hsil <;> simp)
  | nothing p hp hn =>
    -- an empty transaction goes straight to the end: nothing was logged
    have hncl : ¬ Clearing s := by simp [hC.clearing_iff hp]
    have hcl : Clearing (s.setPc p (.commit .release)) := ⟨p, by simp⟩
    have hq := hC.quiet (hC.flag p _ hp)
    refine ⟨h.nodup, fun q => ?_, fun q _ => h.idle q (hq q), fun hn' => absurd hcl hn',
      fun _ => hn, h.parts, h.headers⟩
    exact (h.progress q).trans (inOp_update (by simp [hp]) (by simp) q)
  | header p hp =>
    have h' := h.commit_step hC hp (.installTrans 0) (by simp)
    have hncl : ¬ Clearing s := by simp [hC.clearing_iff hp]
    have hq := hC.quiet (hC.flag p _ hp)
    refine ⟨h'.nodup, h'.progress, h'.idle, h'.logged, h'.cleared, h'.parts, ?_, h.headers⟩
    exact ⟨h.lists_ended hncl hq, fun q hin => hq q ((h.progress q).mp hin)⟩
  | clear p hp =>
    have hcl : Clearing (s.setPc p (.commit .eraseHead)) := ⟨p, by simp⟩
    have hq := hC.quiet (hC.flag p _ hp)
    refine ⟨List.nodup_nil, fun q => ?_, fun q _ => h.idle q (hq q), fun hn => absurd hcl hn,
      fun _ => rfl, h.parts, h.headers⟩
    exact (h.progress q).trans (inOp_update (by simp [hp]) (by simp) q)
  | erase p hp =>
    have h' := h.commit_step hC hp .release (by simp)
    exact ⟨h'.nodup, h'.progress, h'.idle, h'.logged, h'.cleared, h'.parts, h'.headers⟩
  | release p hp =>
    have hcl : Clearing s := ⟨p, Or.inr hp⟩
    have hlh : s.log.lh = [] := h.cleared hcl
    have hq := hC.quiet (hC.flag p _ hp)
    refine ⟨h.nodup, ?_, fun q _ => h.idle q (hq q), ?_, fun _ => hlh, ?_, h.headers⟩
    · intro q
      exact (h.progress q).trans (inOp_update (by simp [hp]) (by simp) q)
    · intro _ b
      simp [hlh, transBlocks]
    · intro b
      simp [transBlocks, endedOps, opWrites, h.idle _ (hq _)]

/-! ## Group commit -/

/-- Both parts of the invariant hold along every run. -/
theorem run_inv {start size : Nat} {acts : List LogAct}
    (h : run LogSys.step (LogSys.init start size) acts = .ok s) : Control s ∧ Content s := by
  refine run_invariant (I := fun s => Control s ∧ Content s) ?_ h
    ⟨Control.init start size, Content.init start size⟩
  rintro s a s' ⟨hC, hK⟩ hstep
  have hs := step_cases hstep
  exact ⟨hC.step hs, hK.step hC hs⟩

theorem Control.outstanding_eq_zero (h : Control s) (hc : s.log.committing = true) :
    s.log.outstanding = 0 := by
  obtain ⟨A, hA, ho⟩ := h.count
  have hempty : A = ∅ := by
    apply eq_empty_of_forall_notMem
    intro p hp
    exact h.quiet hc p ((hA p).mp hp)
  rw [ho, hempty]
  rfl

theorem HeadersOk.of_append {later h : List LogEvent} {lh : List BlockNo}
    (hok : HeadersOk (later ++ .header lh :: h)) :
    (∀ b, b ∈ lh ↔ ∃ op ∈ endedOps h, b ∈ op.2) ∧ ∀ p, ¬ InProgress p h := by
  induction later with
  | nil => exact hok.1
  | cons e later ih =>
    cases e with
    | header _ => exact ih hok.2
    | began _ | logged | ended | erased | committed => exact ih hok

/-- **Group commit never splits or mixes operations.** In every state that any number of processes
can reach by any interleaving of `begin_op`, `log_write`, `end_op` and the steps of `commit`:
a committing log has no outstanding operation; while a process is inside `commit` no `log_write`
takes effect; the panic of `end_op` is not reached; the header lists distinct blocks; and every
header a commit wrote lists exactly the blocks logged by the operations that had ended since the
commit before, at a moment when no operation was in progress — so the writes of one operation are
all in one commit. -/
theorem group_commit {start size : Nat} {acts : List LogAct} {s : LogSys}
    (h : run LogSys.step (LogSys.init start size) acts = .ok s) :
    (s.log.committing = true → s.log.outstanding = 0) ∧
    (∀ p c, s.pc p = .commit c → ∀ q b s', s.step (.logWrite q b) ≠ .ok s') ∧
    (∀ a, s.step a ≠ .error (.panic "log.committing")) ∧
    s.log.lh.Nodup ∧
    (∀ later lh earlier, s.hist = later ++ .header lh :: earlier →
      (∀ b, b ∈ lh ↔ ∃ op ∈ endedOps earlier, b ∈ op.2) ∧ ∀ p, ¬ InProgress p earlier) := by
  obtain ⟨hC, hK⟩ := run_inv h
  refine ⟨hC.outstanding_eq_zero, ?_, ?_, hK.nodup, ?_⟩
  · intro p c hp q b s' hstep
    rw [step, if_neg (hC.quiet (hC.flag p c hp) q)] at hstep
    cases hstep
  · intro a hstep
    rcases step_panic hstep with ⟨p, b, -, -, hw⟩ | ⟨p, -, hp, hw⟩
    · unfold Log.logWrite at hw
      split_ifs at hw
      · simp at hw
      · simp at hw
    · unfold Log.endOp at hw
      rw [if_neg (by simp [hC.not_committing_of_inOp hp])] at hw
      split_ifs at hw
  · intro later lh earlier he
    exact HeadersOk.of_append (he ▸ hK.headers)

/-- Two interleaved operations on blocks 5 and 7 end up in one header. -/
theorem group_commit_two_ops :
    ∃ s, run LogSys.step (LogSys.init 2 LOGSIZE)
        [.beginOp 0, .beginOp 1, .logWrite 0 5, .logWrite 1 7, .endOp 0, .endOp 1, .commitStep 1,
          .commitStep 1, .commitStep 1, .commitStep 1, .commitStep 1] = .ok s ∧
      s.log.outstanding = 0 ∧ ∃ earlier, s.hist = .header [5, 7] :: earlier ∧
        ∀ b, b ∈ [5, 7] ↔ ∃ op ∈ endedOps earlier, b ∈ op.2 := by
  have hrun := rfl (a := run LogSys.step (LogSys.init 2 LOGSIZE)
    [.beginOp 0, .beginOp 1, .logWrite 0 5, .logWrite 1 7, .endOp 0, .endOp 1, .commitStep 1,
      .commitStep 1, .commitStep 1, .commitStep 1, .commitStep 1])
  refine ⟨_, hrun, ?_⟩
  have h := group_commit hrun
  exact ⟨h.1 rfl, _, rfl, (h.2.2.2.2 [] _ _ rfl).1⟩

end LogSys

end Xv6
