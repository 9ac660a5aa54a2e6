/-
# Xv6.Itable.Table — the inode table, entry by entry.

`State.loc` looks at one entry of the table.  A step of the table is a step of each of its entries
(`loc_step`): of the entry it is about, and of no other, unless it writes a dinode.  With at most one entry
for an inode, an `iupdate` is a step of its own entry only.
-/
import Xv6.Itable.Entry

namespace Xv6.Itable

open Lib Function List State
open Xv6.Fs (Dinode Superblock Ptr IBLOCK inodeOff)

variable {P H : Type}

/-! ## An entry of the table -/

def IlockAt.role : IlockAt → Role
  | .acquire => .waits
  | .check => .checks
  | .loaded => .loaded

def IputAt.role : IputAt → Role
  | .trunc | .update => .truncating
  | .clear | .free => .clearing
  | .invalidate => .freed
  | .release => .cleared
  | .drop => .dropping

/-- Where a process is with respect to entry `ip`. -/
def Pc.role (ip : Ptr) : Pc H → Role
  | .ilock jp st => if jp = ip then st.role else .away
  | .iput jp st => if jp = ip then st.role else .away
  | _ => .away

namespace State

def loc (s : State P H) (ip : Ptr) : Loc P where
  x := s.itable ip
  d := s.dinode (s.itable ip).id
  dirty := s.dirty ip
  lock := s.lock ip
  held := s.held ip
  uses p := (p, ip) ∈ s.users
  role p := (s.pc p).role ip

variable {s s' : State P H} {ip jp : Ptr} {p : P} {h : H}

theorem dinode_putDinode (s : State P H) (i j : Id) (n : Dinode) :
    (s.putDinode i n).dinode j = if j = i then n else s.dinode j := by
  obtain ⟨dev, i⟩ := i
  obtain ⟨dev', j⟩ := j
  rw [dinode, dinode, putDinode]
  dsimp only
  by_cases hdev : dev' = dev
  · subst hdev
    rw [update_self, Fs.load_putInode (s.buf dev') s.sb n i j]
    simp only [Prod.mk.injEq, true_and]
  · rw [update_of_ne hdev, if_neg fun he => hdev (Prod.mk.inj he).1]

theorem loc_putDinode (s : State P H) (i : Id) (n : Dinode) (jp : Ptr) :
    (s.putDinode i n).loc jp =
      if (s.itable jp).id = i then { s.loc jp with d := n } else s.loc jp := by
  by_cases hi : (s.itable jp).id = i
  · rw [if_pos hi]
    exact Loc.ext rfl ((dinode_putDinode s i _ n).trans (if_pos hi)) rfl rfl rfl rfl rfl
  · rw [if_neg hi]
    exact Loc.ext rfl ((dinode_putDinode s i _ n).trans (if_neg hi)) rfl rfl rfl rfl rfl

theorem itable_setEntry_self (s : State P H) (ip : Ptr) (x : Entry) : (s.setEntry ip x).itable ip = x :=
  update_self ..

theorem loc_setEntry_self (s : State P H) (ip : Ptr) (x : Entry) :
    (s.setEntry ip x).loc ip = { s.loc ip with x, d := s.dinode x.id } := by
  have hx := itable_setEntry_self s ip x
  refine Loc.ext hx ?_ rfl rfl rfl rfl rfl
  show s.dinode ((s.setEntry ip x).itable ip).id = _
  rw [hx]

theorem loc_setEntry_ne (s : State P H) (x : Entry) (hne : jp ≠ ip) :
    (s.setEntry ip x).loc jp = s.loc jp := by
  have hx : (s.setEntry ip x).itable jp = s.itable jp := update_of_ne hne ..
  refine Loc.ext hx ?_ rfl rfl rfl rfl rfl
  show s.dinode ((s.setEntry ip x).itable jp).id = _
  rw [hx]
  rfl

theorem loc_refs (s : State P H) (refs : List (H × Ptr)) (jp : Ptr) :
    ({ s with refs } : State P H).loc jp = { s.loc jp with held := refs.countP fun r => r.2 = jp } := rfl

theorem loc_users (s : State P H) (users : List (P × Ptr)) (jp : Ptr) :
    ({ s with users } : State P H).loc jp = { s.loc jp with uses := fun p => (p, jp) ∈ users } := rfl

theorem loc_setLock_self (s : State P H) (ip : Ptr) (o : Option P) :
    (s.setLock ip o).loc ip = { s.loc ip with lock := o } :=
  Loc.ext rfl rfl rfl (update_self ..) rfl rfl rfl

theorem loc_setLock_ne (s : State P H) (o : Option P) (hne : jp ≠ ip) :
    (s.setLock ip o).loc jp = s.loc jp :=
  Loc.ext rfl rfl rfl (update_of_ne hne ..) rfl rfl rfl

theorem loc_dirty (s : State P H) (dirty : Ptr → Bool) (jp : Ptr) :
    ({ s with dirty } : State P H).loc jp = { s.loc jp with dirty := dirty jp } := rfl

/-- `iget` finds the entry of the inode, or takes one without references if there is none. -/
theorem iget_cases (hs : s.iget h dev inum = .ok s') :
    ∃ ip x, s' = { s.setEntry ip x with refs := (h, ip) :: s.refs } ∧ x.id = (dev, inum) ∧
      ((0 < (s.itable ip).ref ∧ x = { s.itable ip with ref := (s.itable ip).ref + 1 }) ∨
       ((s.itable ip).ref = 0 ∧ x.ref = 1 ∧ x.valid = false ∧
        ∀ jp, 0 < (s.itable jp).ref → (s.itable jp).id ≠ (dev, inum))) := by
  rw [iget] at hs
  split at hs
  · rename_i ip hfind
    have hip := find?_some hfind
    rw [Bool.and_eq_true, decide_eq_true_iff, decide_eq_true_iff] at hip
    cases hs
    exact ⟨ip, _, rfl, hip.2, .inl ⟨hip.1, rfl⟩⟩
  · rename_i hnone
    split at hs
    · cases hs
    · rename_i ip hfind
      have hip := find?_some hfind
      rw [decide_eq_true_iff] at hip
      cases hs
      refine ⟨ip, _, rfl, rfl, .inr ⟨hip, rfl, rfl, fun jp hpos hid => ?_⟩⟩
      have := find?_eq_none.mp hnone jp (mem_finRange jp)
      rw [Bool.and_eq_true, decide_eq_true_iff, decide_eq_true_iff] at this
      exact this ⟨hpos, hid⟩

theorem held_cons (s : State P H) (ip jp : Ptr) :
    ((h, ip) :: s.refs).countP (fun r => r.2 = jp) = s.held jp + if ip = jp then 1 else 0 := by
  rw [countP_cons, held]
  simp only [decide_eq_true_eq]

variable [DecidableEq P]

theorem pc_goto_self (s : State P H) (p : P) (pc : Pc H) : (s.goto p pc).pc p = pc :=
  update_self ..

theorem pc_goto_ne (hne : q ≠ p) (pc : Pc H) : (s.goto p pc).pc q = s.pc q :=
  update_of_ne hne ..

theorem loc_goto (s : State P H) (p : P) (pc : Pc H) (jp : Ptr) :
    (s.goto p pc).loc jp = (s.loc jp).goto p (pc.role jp) := by
  refine Loc.ext rfl rfl rfl rfl rfl rfl (funext fun q => ?_)
  show (update s.pc p pc q).role jp = update (fun q => (s.pc q).role jp) p (pc.role jp) q
  by_cases hq : q = p
  · rw [hq, update_self, update_self]
  · rw [update_of_ne hq, update_of_ne hq]

/-- A process that has nothing to do with the entry, before and after. -/
theorem loc_goto_away {t : State P H} {pc : Pc H} (ht : t.loc jp = s.loc jp)
    (hs : (s.pc p).role jp = .away) (hpc : pc.role jp = .away) : (t.goto p pc).loc jp = s.loc jp := by
  rw [loc_goto, ht, hpc, ← hs]
  exact Loc.ext rfl rfl rfl rfl rfl rfl (update_eq_self ..)

end State

/-! ## A step of the table -/

/-- The invariant of the table. -/
structure Inv (s : State P H) : Prop where
  ok : ∀ ip, (s.loc ip).Ok
  uniq : ∀ ip jp, 0 < (s.itable ip).ref → 0 < (s.itable jp).ref → (s.itable ip).id = (s.itable jp).id →
    ip = jp

section

variable {s s' : State P H} {ip jp : Ptr} {p : P} {h : H}

/-- Another entry than the one a new reference is to. -/
theorem loc_newRef_ne (s : State P H) (x : Entry) (h : H) (hne : jp ≠ ip) :
    ({ s.setEntry ip x with refs := (h, ip) :: s.refs } : State P H).loc jp = s.loc jp := by
  rw [loc_refs (s.setEntry ip x), held_cons, loc_setEntry_ne s x hne, if_neg (Ne.symm hne)]
  rfl

theorem loc_newRef_self (s : State P H) (x : Entry) (h : H) (ip : Ptr) :
    ({ s.setEntry ip x with refs := (h, ip) :: s.refs } : State P H).loc ip =
      { s.loc ip with x, d := s.dinode x.id, held := s.held ip + 1 } := by
  rw [loc_refs (s.setEntry ip x), held_cons, loc_setEntry_self, if_pos rfl]

theorem Inv.iget_uniq (hi : Inv s) (hs : s.iget h dev inum = .ok s') :
    ∀ ip jp, 0 < (s'.itable ip).ref → 0 < (s'.itable jp).ref →
      (s'.itable ip).id = (s'.itable jp).id → ip = jp := by
  obtain ⟨kp, x, rfl, hid, hcase⟩ := iget_cases hs
  have hself : (s.setEntry kp x).itable kp = x := itable_setEntry_self ..
  have hne : ∀ ip, ip ≠ kp → (s.setEntry kp x).itable ip = s.itable ip :=
    fun ip hip => update_of_ne hip ..
  -- no other entry in use is for this inode
  have hother : ∀ ip, ip ≠ kp → 0 < (s.itable ip).ref → (s.itable ip).id ≠ (dev, inum) := fun ip hip hpos => by
    rcases hcase with ⟨hkpos, rfl⟩ | ⟨-, -, -, hnone⟩
    · exact fun he => hip (hi.uniq ip kp hpos hkpos (he.trans hid.symm))
    · exact hnone ip hpos
  intro ip jp hip hjp he
  show ip = jp
  change 0 < ((s.setEntry kp x).itable ip).ref at hip
  change 0 < ((s.setEntry kp x).itable jp).ref at hjp
  change ((s.setEntry kp x).itable ip).id = ((s.setEntry kp x).itable jp).id at he
  by_cases h₁ : ip = kp
  · by_cases h2 : jp = kp
    · rw [h₁, h2]
    · rw [h₁, hself, hne jp h2, hid] at he
      rw [hne jp h2] at hjp
      exact absurd he.symm (hother jp h2 hjp)
  · rw [hne ip h₁] at hip he
    by_cases h2 : jp = kp
    · rw [h2, hself, hid] at he
      exact absurd he (hother ip h₁ hip)
    · rw [hne jp h2] at hjp he
      exact hi.uniq ip jp hip hjp he

theorem loc_iupdate_self (s : State P H) (ip : Ptr) :
    (s.iupdate ip).loc ip = { s.loc ip with d := (s.itable ip).toDinode } := by
  rw [iupdate, loc_putDinode, if_pos rfl]

theorem held_erase [DecidableEq H] (hmem : (h, ip) ∈ s.refs) (jp : Ptr) :
    (s.refs.erase (h, ip)).countP (fun r => r.2 = jp) = s.held jp - if ip = jp then 1 else 0 := by
  rw [countP_erase, held]
  simp [hmem]

theorem Inv.of_loc (hi : Inv s) (hloc : ∀ jp, s'.loc jp = s.loc jp) : Inv s' := by
  have hx : ∀ jp, s'.itable jp = s.itable jp := fun jp => congrArg Loc.x (hloc jp)
  refine ⟨fun jp => (hloc jp).symm ▸ hi.ok jp, fun ip jp => ?_⟩
  rw [hx, hx]
  exact hi.uniq ip jp

/-- An `iget`, by a process that has gone to no entry. -/
def Gets (s s' : State P H) : Prop :=
  ∃ (t : State P H) (h : H) (dev : BitVec 32) (inum : Nat), (∀ jp, t.loc jp = s.loc jp) ∧
    t.iget h dev inum = .ok s'

variable [DecidableEq P]

theorem Loc.Step.of_eq {l l' : Loc P} (he : l' = l) : l.Step l' := he ▸ .same

theorem iget_loc (hs : s.iget h dev inum = .ok s') (jp : Ptr) :
    (s.loc jp).Step (s'.loc jp) := by
  obtain ⟨ip, x, rfl, hid, hcase⟩ := iget_cases hs
  by_cases hj : jp = ip
  · subst hj
    rw [loc_newRef_self]
    rcases hcase with ⟨hpos, rfl⟩ | ⟨h0, h1, hv, -⟩
    · exact .get hpos
    · exact .recycle x _ h0 h1 hv
  · exact .of_eq (loc_newRef_ne s x h hj)

/-- A step of every entry, which takes none into use. -/
structure Evolves (s s' : State P H) : Prop where
  loc : ∀ jp, (s.loc jp).Step (s'.loc jp)
  old : ∀ jp, (s.itable jp).ref = 0 → (s'.itable jp).ref = 0

/-- A step that is about one entry. -/
theorem Evolves.about (ip : Fin NINODE) (hself : s'.loc ip = l) (hstep : (s.loc ip).Step l)
    (hold : (s.itable ip).ref = 0 → l.x.ref = 0) (hne : ∀ jp, jp ≠ ip → s'.loc jp = s.loc jp) :
    Evolves s s' := by
  refine ⟨fun jp => ?_, fun jp h0 => ?_⟩
  · by_cases hj : jp = ip
    · rw [hj, hself]
      exact hstep
    · exact .of_eq (hne jp hj)
  · by_cases hj : jp = ip
    · rw [hj] at h0 ⊢
      exact (congrArg (fun l => l.x.ref) hself).trans (hold h0)
    · exact (congrArg (fun l => l.x.ref) (hne jp hj)).trans h0

theorem Inv.evolves (hi : Inv s) (he : Evolves s s') : Inv s' := by
  have hpos : ∀ jp, 0 < (s'.itable jp).ref → 0 < (s.itable jp).ref := fun jp hpos =>
    Nat.pos_of_ne_zero fun h0 => absurd (he.old jp h0) hpos.ne'
  have hid : ∀ jp, 0 < (s.itable jp).ref → (s'.itable jp).id = (s.itable jp).id := fun jp => (he.loc jp).id
  refine ⟨fun jp => (hi.ok jp).step (he.loc jp), fun ip jp hip hjp hsame => ?_⟩
  rw [hid ip (hpos ip hip), hid jp (hpos jp hjp)] at hsame
  exact hi.uniq ip jp (hpos ip hip) (hpos jp hjp) hsame

/-- `iupdate` by the holder of the lock is a step of no other entry. -/
theorem Inv.iupdate_other (hi : Inv s) (hpos : 0 < (s.itable ip).ref) (hne : jp ≠ ip) :
    (s.loc jp).Step ((s.iupdate ip).loc jp) := by
  rw [iupdate, loc_putDinode]
  split
  · rename_i hid
    refine .other _ (Nat.eq_zero_of_not_pos fun hj => hne (hi.uniq jp ip hj hpos hid))
  · exact .same

@[simp] theorem role_ilock_self (ip : Ptr) (st : IlockAt) : (Pc.ilock ip st : Pc H).role ip = st.role :=
  if_pos rfl

@[simp] theorem role_iput_self (ip : Ptr) (st : IputAt) : (Pc.iput ip st : Pc H).role ip = st.role :=
  if_pos rfl

theorem role_ilock_ne (h : jp ≠ ip) (st : IlockAt) : (Pc.ilock ip st : Pc H).role jp = .away :=
  if_neg h.symm

theorem role_iput_ne (h : jp ≠ ip) (st : IputAt) : (Pc.iput ip st : Pc H).role jp = .away :=
  if_neg h.symm

/-! ## `ilock` and `iput` -/

theorem evolves_ilockStep {st : IlockAt} (hpc : s.pc p = .ilock ip st)
    (hs : s.ilockStep p ip st = .ok s') : Evolves s s' := by
  have hrole : (s.loc ip).role p = st.role := by
    show (s.pc p).role ip = _
    rw [hpc, role_ilock_self]
  have haway : ∀ jp, jp ≠ ip → (s.pc p).role jp = .away := fun jp hj => by rw [hpc, role_ilock_ne hj]
  cases st with
  | acquire =>
    rw [ilockStep] at hs
    split at hs
    · rename_i hl
      cases hs
      refine .about ip ?_ (.acquire p hrole hl) id fun jp hj => ?_
      · rw [loc_goto, loc_setLock_self, role_ilock_self]
        rfl
      · exact loc_goto_away (loc_setLock_ne _ _ hj) (haway jp hj) (role_ilock_ne hj _)
    · cases hs
  | check =>
    rw [ilockStep] at hs
    split at hs
    · rename_i hv
      cases hs
      exact .about ip (loc_goto ..) (.hit p hrole hv) id fun jp hj =>
        loc_goto_away rfl (haway jp hj) rfl
    · rename_i hv
      cases hs
      refine .about ip ?_ (.load p hrole (Bool.eq_false_iff.mpr hv)) id fun jp hj => ?_
      · rw [loc_goto, loc_setEntry_self, role_ilock_self]
        rfl
      · exact loc_goto_away (loc_setEntry_ne _ _ hj) (haway jp hj) (role_ilock_ne hj _)
  | loaded =>
    rw [ilockStep] at hs
    split at hs
    · cases hs
    · rename_i ht
      cases hs
      refine .about ip ?_ (.ready p hrole ht) id fun jp hj => ?_
      · rw [loc_goto, loc_setEntry_self]
        rfl
      · exact loc_goto_away (loc_setEntry_ne _ _ hj) (haway jp hj) rfl

/-- A step of `iput` that frees the inode. -/
theorem Inv.evolves_iputStep (hi : Inv s) {st : IputAt} (hpc : s.pc p = .iput ip st) :
    Evolves s (s.iputStep p ip st) := by
  have hrole : (s.loc ip).role p = st.role := by
    show (s.pc p).role ip = _
    rw [hpc, role_iput_self]
  have haway : ∀ jp, jp ≠ ip → (s.pc p).role jp = .away := fun jp hj => by rw [hpc, role_iput_ne hj]
  have hpos : 0 < (s.itable ip).ref := by
    have hp : (s.loc ip).x.ref = (s.loc ip).held + 1 := (hi.ok ip).pending p (by rw [hrole]; cases st <;> rfl)
    exact hp.symm ▸ Nat.succ_pos _
  -- a statement that changes fields of the entry
  have hset : ∀ {x : Entry} {st' : IputAt}, x.id = (s.itable ip).id → (x.ref = 0 ↔ (s.itable ip).ref = 0) →
      (s.loc ip).Step { (s.loc ip).goto p st'.role with x } →
      Evolves s ((s.setEntry ip x).goto p (.iput ip st')) := fun hid href hstep => by
    refine .about ip ?_ hstep href.mpr fun jp hj =>
      loc_goto_away (loc_setEntry_ne _ _ hj) (haway jp hj) (role_iput_ne hj _)
    rw [loc_goto, loc_setEntry_self, role_iput_self, hid]
    rfl
  -- a write of the dinode
  have hput : ∀ {st' : IputAt}, (s.loc ip).Step { (s.loc ip).goto p st'.role with
        d := (s.itable ip).toDinode } → Evolves s ((s.iupdate ip).goto p (.iput ip st')) := fun hstep => by
    refine ⟨fun jp => ?_, fun jp h0 => h0⟩
    by_cases hj : jp = ip
    · rw [hj, loc_goto, loc_iupdate_self, role_iput_self]
      exact hstep
    · rw [loc_goto_away (s := s.iupdate ip) rfl (haway jp hj) (role_iput_ne hj _)]
      exact hi.iupdate_other hpos hj
  cases st with
  | trunc => exact hset rfl Iff.rfl (.trunc p hrole)
  | update => exact hput (.truncated p hrole)
  | clear => exact hset rfl Iff.rfl (.clear p hrole)
  | free => exact hput (.freed p hrole)
  | invalidate => exact hset rfl Iff.rfl (.invalidate p hrole)
  | release =>
    refine .about ip ?_ (.release p hrole) id fun jp hj =>
      loc_goto_away (loc_setLock_ne _ _ hj) (haway jp hj) (role_iput_ne hj _)
    rw [iputStep, loc_goto, loc_setLock_self, role_iput_self]
    rfl
  | drop =>
    refine .about ip ?_ (.drop p hrole) (fun h0 => ?_) fun jp hj =>
      loc_goto_away (loc_setEntry_ne _ _ hj) (haway jp hj) rfl
    · rw [iputStep, loc_goto, loc_setEntry_self]
      rfl
    · exact absurd h0 hpos.ne'

/-- A step of the loop of `ialloc`. -/
theorem evolves_iallocStep {dev : BitVec 32} {type : BitVec 16} {inum : Nat}
    (hpc : s.pc p = .ialloc h dev type inum) : Evolves s (s.iallocStep p h dev type inum) := by
  have haway : ∀ jp, (s.pc p).role jp = .away := fun jp => by rw [hpc]; rfl
  have hgo : ∀ {pc : Pc H}, (∀ jp, pc.role jp = .away) → Evolves s (s.goto p pc) := fun hpc' =>
    ⟨fun jp => .of_eq (loc_goto_away rfl (haway jp) (hpc' jp)), fun _ h0 => h0⟩
  rw [iallocStep]
  split
  · split
    · rename_i ht
      refine ⟨fun jp => ?_, fun _ h0 => h0⟩
      rw [loc_goto_away (s := s.putDinode (dev, inum) (.fresh type)) rfl (haway jp) rfl,
        loc_putDinode]
      split
      · rename_i hid
        refine .alloc _ ?_
        show (s.dinode (s.itable jp).id).type = 0
        rw [hid, ht]
      · exact .same
    · exact hgo fun _ => rfl
  · exact hgo fun _ => rfl

/-! ## Calls -/

variable [DecidableEq H]

/-- A reference is dropped. -/
theorem evolves_iput (hidle : s.pc p = .idle) (hmem : (h, ip) ∈ s.refs)
    (hlast : s.held ip = 1 → ∀ u ∈ s.users, u.2 ≠ ip)
    (hs : ({ s with refs := s.refs.erase (h, ip) } : State P H).iput p ip = .ok s') : Evolves s s' := by
  set t : State P H := { s with refs := s.refs.erase (h, ip) } with ht
  have hheld : 0 < (s.loc ip).held := countP_pos_iff.mpr ⟨_, hmem, decide_eq_true rfl⟩
  have huse : (s.loc ip).held = 1 → ∀ q, ¬(s.loc ip).uses q := fun h1 q hq => hlast h1 _ hq rfl
  have hself : t.loc ip = { s.loc ip with held := (s.loc ip).held - 1 } := by
    rw [ht, loc_refs, held_erase hmem, if_pos rfl]
    rfl
  have hne : ∀ jp, jp ≠ ip → t.loc jp = s.loc jp := fun jp hj => by
    rw [ht, loc_refs, held_erase hmem, if_neg (Ne.symm hj)]
    rfl
  rw [iput] at hs
  split at hs
  · rename_i hfree
    split at hs
    · cases hs
      refine .about ip ?_ (.free p (by show (s.pc p).role ip = _; rw [hidle]; rfl) hheld huse hfree.1
        hfree.2.1) id fun jp hj => loc_goto_away ((loc_setLock_ne _ _ hj).trans (hne jp hj))
          (by rw [hidle]; rfl) (role_iput_ne hj _)
      rw [loc_goto, loc_setLock_self, hself, role_iput_self]
      rfl
    · cases hs
  · cases hs
    refine .about ip ?_ (.put hheld huse) (fun h0 => ?_) fun jp hj =>
      (loc_setEntry_ne _ _ hj).trans (hne jp hj)
    · rw [loc_setEntry_self, hself]
      rfl
    · show (s.itable ip).ref - 1 = 0
      omega

/-- A process calls one of the functions. -/
theorem Inv.evolves_call (hi : Inv s) {a : Act P H} (hidle : s.pc a.proc = .idle)
    (hs : s.call a = .ok s') : Evolves s s' ∨ Gets s s' := by
  have haway : ∀ jp, (s.pc a.proc).role jp = .away := fun jp => by rw [hidle]; rfl
  cases a with
  | iget p h dev inum => exact .inr ⟨s, h, dev, inum, fun _ => rfl, hs⟩
  | idup p h ip =>
    rw [call] at hs
    split at hs
    · rename_i hh
      have hpos : 0 < (s.itable ip).ref := hh.trans_le (hi.ok ip).held_le
      cases hs
      exact .inl (.about _ (loc_newRef_self ..) (.get hpos) (fun h0 => absurd h0 hpos.ne')
        fun jp hj => loc_newRef_ne s _ h hj)
    · cases hs
  | ilock p ip =>
    rw [call] at hs
    split at hs
    · rename_i hh
      split at hs
      · cases hs
      · cases hs
        refine .inl (.about ip ?_ (.enter p (haway ip) hh) id fun jp hj => ?_)
        · rw [loc_users (s.goto p _), loc_goto, role_ilock_self]
          refine Loc.ext rfl rfl rfl rfl rfl (funext fun q => propext ?_) rfl
          exact mem_cons.trans (or_congr (by rw [Prod.mk.injEq, and_iff_left rfl]) Iff.rfl)
        · have hgo := loc_goto_away (s := s) (p := p) rfl (haway jp) (role_ilock_ne hj .acquire)
          rw [loc_users (s.goto p _), hgo]
          refine Loc.ext rfl rfl rfl rfl rfl (funext fun q => propext ?_) rfl
          exact mem_cons.trans (or_iff_right fun he => hj (Prod.mk.inj he).2)
    · cases hs
  | write p ip n =>
    rw [call] at hs
    split at hs
    · rename_i hl
      cases hs
      refine .inl (.about ip ?_ (.write p n (haway ip) hl) id fun jp hj => ?_)
      · rw [loc_dirty (s.setEntry ip _), loc_setEntry_self, update_self]
        rfl
      · rw [loc_dirty (s.setEntry ip _), loc_setEntry_ne _ _ hj, update_of_ne hj]
        rfl
    · cases hs
  | iupdate p ip =>
    rw [call] at hs
    split at hs
    · rename_i hl
      cases hs
      refine .inl ⟨fun jp => ?_, fun _ h0 => h0⟩
      rw [loc_dirty (s.iupdate ip)]
      by_cases hj : jp = ip
      · rw [hj, loc_iupdate_self, update_self]
        exact .update p (haway ip) hl
      · rw [update_of_ne hj]
        exact hi.iupdate_other ((hi.ok ip).ref_pos hl) hj
    · cases hs
  | iunlock p ip =>
    rw [call] at hs
    split at hs
    · cases hs
    · rename_i hd
      split at hs
      · cases hs
      · rename_i hl
        obtain ⟨hl, -⟩ := not_or.mp hl
        cases hs
        refine .inl (.about ip ?_ (.unlock p (fun q => (q, ip) ∈ s.users.erase (p, ip)) (haway ip)
          (not_not.mp hl) (Bool.eq_false_iff.mpr hd) (fun q hq => ?_) mem_of_mem_erase) id
          fun jp hj => ?_)
        · rw [loc_users (s.setLock ip _), loc_setLock_self]
        · exact mem_erase_of_ne fun he => hq (Prod.mk.inj he).1
        · rw [loc_users (s.setLock ip _), loc_setLock_ne _ _ hj]
          refine Loc.ext rfl rfl rfl rfl rfl (funext fun q => propext ?_) rfl
          exact mem_erase_of_ne fun he => hj (Prod.mk.inj he).2
  | iput p h ip =>
    rw [call] at hs
    split at hs
    · rename_i hok
      exact .inl (evolves_iput hidle hok.1 hok.2 hs)
    · cases hs
  | ialloc p h dev type =>
    rw [call] at hs
    split at hs
    · cases hs
    · cases hs
      exact .inl ⟨fun jp => .of_eq (loc_goto_away rfl (haway jp) rfl), fun _ h0 => h0⟩
  | go p => cases hs

/-! ## Runs -/

/-- **A step of the table** takes no entry into use, or is an `iget`. -/
theorem Inv.step_cases (hi : Inv s) {a : Act P H} (hs : s.step a = .ok s') :
    Evolves s s' ∨ Gets s s' := by
  cases a with
  | go p =>
    rw [step] at hs
    cases hpc : s.pc p with
    | idle =>
      rw [hpc] at hs
      cases hs
    | ilock ip st =>
      rw [hpc] at hs
      exact .inl (evolves_ilockStep hpc hs)
    | ialloc h dev type inum =>
      rw [hpc] at hs
      cases hs
      exact .inl (evolves_iallocStep hpc)
    | found h dev inum =>
      rw [hpc] at hs
      exact .inr ⟨s.goto p .idle, h, dev, inum,
        fun jp => loc_goto_away rfl (by rw [hpc]; rfl) rfl, hs⟩
    | iput ip st =>
      rw [hpc] at hs
      cases hs
      exact .inl (hi.evolves_iputStep hpc)
  | _ =>
    simp only [step] at hs
    split at hs
    · rename_i hidle
      exact hi.evolves_call hidle hs
    · cases hs

/-- **A step of the table is a step of each entry.** -/
theorem Inv.loc_step (hi : Inv s) (hs : s.step a = .ok s') (jp : Ptr) :
    (s.loc jp).Step (s'.loc jp) := by
  rcases hi.step_cases hs with he | ⟨t, h, dev, inum, hloc, hg⟩
  · exact he.loc jp
  · rw [← hloc jp]
    exact iget_loc hg jp

/-- **One step keeps the invariant of the table.** -/
theorem Inv.step (hi : Inv s) (hs : s.step a = .ok s') : Inv s' := by
  rcases hi.step_cases hs with he | ⟨t, h, dev, inum, hloc, hg⟩
  · exact hi.evolves he
  · have ht := hi.of_loc hloc
    exact ⟨fun jp => (ht.ok jp).step (iget_loc hg jp), ht.iget_uniq hg⟩

omit [DecidableEq P] [DecidableEq H] in
theorem init_inv (sb : Superblock) (buf : BitVec 32 → Disk) : Inv (init sb buf : State P H) where
  ok _ :=
    { one _ _ hp := nomatch hp
      pending _ hp := nomatch hp
      quiet _ := rfl
      locks _ hp := nomatch hp
      ilocks _ hp := nomatch hp
      holder _ hl := nomatch hl
      use _ hu := absurd hu not_mem_nil
      content hpos := absurd hpos (Nat.lt_irrefl 0) }
  uniq _ _ hpos := absurd hpos (Nat.lt_irrefl 0)

/-- **The invariant holds in every run.** -/
theorem run_inv {sb : Superblock} {buf : BitVec 32 → Disk} {as : List (Act P H)}
    (hs : run step (.init sb buf) as = .ok s) : Inv s :=
  run_invariant (fun _ _ _ hi hs => hi.step hs) hs (init_inv sb buf)

end

end Xv6.Itable
