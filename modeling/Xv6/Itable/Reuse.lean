/-
# Xv6.Itable.Reuse — an inode number that `ialloc` takes while `iput` still holds it.

`iput` marks the inode as free on the disk before it drops its reference, so `ialloc` can take the number
in between, and its `iget` then finds the entry that `iput` is about to leave.  `iput` has the lock until the
entry is not valid any more.  Hence the next `ilock` of the entry reads the new dinode from the disk, and as
`ialloc` has a reference by then, nobody frees the inode again.
-/
import Xv6.Itable.Table
import Mathlib.Logic.Relation

namespace Xv6.Itable

open Lib State
open Xv6.Fs (Dinode Superblock Ptr)

variable {P H : Type} [DecidableEq P] [DecidableEq H]

/-- The process is in an `iput` that has freed the inode of the entry and has not dropped its reference. -/
def FreedBy (s : State P H) (p : P) (ip : Ptr) : Prop :=
  s.pc p = .iput ip .invalidate ∨ s.pc p = .iput ip .release ∨ s.pc p = .iput ip .drop

/-- Any number of steps, after each of which the state satisfies `C`. -/
def While (C : State P H → Prop) : State P H → State P H → Prop :=
  Relation.ReflTransGen fun s s' => (∃ a, s.step a = .ok s') ∧ C s'

variable {s s' : State P H} {p q : P} {ip : Ptr} {h : H} {dev : BitVec 32} {inum : Nat} {type : BitVec 16}

theorem While.invariant {C I : State P H → Prop} (hw : While C s s') (hs : I s)
    (hstep : ∀ {t t' a}, I t → t.step a = .ok t' → C t' → I t') : I s' := by
  induction hw with
  | refl => exact hs
  | tail _ hst ih =>
    obtain ⟨⟨a, ha⟩, hC⟩ := hst
    exact hstep ih ha hC

omit [DecidableEq P] [DecidableEq H] in
theorem FreedBy.role (hf : FreedBy s p ip) : ((s.loc ip).role p).pending = true ∧
    (s.loc ip).role p ≠ .truncating ∧ (s.loc ip).role p ≠ .clearing := by
  have hpc : (s.loc ip).role p = (s.pc p).role ip := rfl
  rcases hf with hp | hp | hp <;> rw [hpc, hp, role_iput_self] <;> decide

omit [DecidableEq P] [DecidableEq H] in
theorem FreedBy.kept (hf : FreedBy s p ip) (hi : Inv s) : (s.loc ip).Kept :=
  (hi.ok ip).kept hf.role.1 hf.role.2.1 hf.role.2.2

omit [DecidableEq P] [DecidableEq H] in
theorem FreedBy.ref_pos (hf : FreedBy s p ip) (hi : Inv s) : 0 < (s.itable ip).ref := by
  have hp : (s.itable ip).ref = s.held ip + 1 := (hi.ok ip).pending p hf.role.1
  exact hp.symm ▸ Nat.succ_pos _

/-- Entry `ip` is for an inode that was allocated with the type, and nobody is about to free it. -/
structure Taken (ip : Ptr) (i : Id) (type : BitVec 16) (s : State P H) : Prop where
  inv : Inv s
  ref : 0 < (s.itable ip).ref
  id : (s.itable ip).id = i
  type : (s.dinode i).type = type
  kept : (s.loc ip).Kept

/-- Over a step after which there is a reference, or during an `iput`, the inode stays allocated. -/
theorem Taken.step (ht : Taken ip i type s) (h0 : type ≠ 0)
    (hs : s.step a = .ok s') (hother : 0 < s'.held ip ∨ ∃ p, ((s.loc ip).role p).pending = true)
    (href : 0 < (s'.itable ip).ref) : Taken ip i type s' := by
  have hloc := ht.inv.loc_step hs ip
  have hid : (s'.itable ip).id = i := (hloc.id ht.ref).trans ht.id
  have hd : (s.loc ip).d.type = type := by
    show (s.dinode (s.itable ip).id).type = type
    rw [ht.id, ht.type]
  refine ⟨ht.inv.step hs, href, hid, ?_, (ht.inv.ok ip).kept_step hloc ht.kept hother⟩
  have htype : (s'.dinode (s'.itable ip).id).type = (s.loc ip).d.type :=
    (ht.inv.ok ip).type_step hloc ht.ref ht.kept (hd ▸ h0)
  rw [← hid, htype, hd]

omit [DecidableEq P] [DecidableEq H] in
theorem held_pos (hi : Inv s) (hmem : (h, ip) ∈ s.refs) : 0 < s.held ip ∧ 0 < (s.itable ip).ref := by
  have hheld : 0 < s.held ip := List.countP_pos_iff.mpr ⟨_, hmem, decide_eq_true rfl⟩
  exact ⟨hheld, hheld.trans_le (hi.ok ip).held_le⟩

/-- `ialloc` takes the number of an inode that `iput` has freed. -/
theorem taken_of_alloc (hi : Inv s) (hf : FreedBy s p ip) (hid : (s.itable ip).id = (dev, inum))
    (hq : s.pc q = .ialloc h dev type inum) (hs : s.step (.go q) = .ok s')
    (hfound : s'.pc q = .found h dev inum) : Taken ip (dev, inum) type s' ∧ FreedBy s' p ip := by
  have hpq : p ≠ q := by
    rintro rfl
    rcases hf with hp | hp | hp <;> exact absurd (hq.symm.trans hp) (by simp)
  have hs' := hs
  rw [step, hq, next, iallocStep] at hs
  have hgo : ∀ pc, pc ≠ .found h dev inum → s.goto q pc ≠ s' := fun pc hne he => by
    rw [← he, pc_goto_self] at hfound
    exact hne hfound
  split at hs
  · split at hs
    · obtain rfl := Except.ok.inj hs
      have hf' : FreedBy ((s.putDinode (dev, inum) (.fresh type)).goto q (.found h dev inum)) p ip := by
        unfold FreedBy
        rw [pc_goto_ne hpq]
        exact hf
      have hi' := hi.step hs'
      refine ⟨⟨hi', hf'.ref_pos hi', hid, ?_, hf'.kept hi'⟩, hf'⟩
      show ((s.putDinode (dev, inum) (.fresh type)).dinode (dev, inum)).type = type
      rw [dinode_putDinode, if_pos rfl]
      rfl
    · exact absurd (Except.ok.inj hs) (hgo _ (by simp))
  · exact absurd (Except.ok.inj hs) (hgo _ (by simp))

/-- The `iget` of `ialloc` finds the entry that `iput` has not left. -/
theorem Taken.iget (ht : Taken ip (dev, inum) type s) (hf : FreedBy s p ip) (h0 : type ≠ 0)
    (hq : s.pc q = .found h dev inum) (hs : s.step (.go q) = .ok s') :
    (h, ip) ∈ s'.refs ∧ Taken ip (dev, inum) type s' := by
  have hg := hs
  rw [State.step, hq, State.next] at hg
  have hmem : (h, ip) ∈ s'.refs := by
    obtain ⟨jp, x, rfl, hid, hcase⟩ := iget_cases hg
    have hjp : jp = ip := by
      rcases hcase with ⟨hpos, rfl⟩ | ⟨-, -, -, hnone⟩
      · exact ht.inv.uniq jp ip hpos ht.ref (hid.trans ht.id.symm)
      · exact absurd ht.id (hnone ip ht.ref)
    rw [hjp]
    exact List.mem_cons_self
  exact ⟨hmem, ht.step h0 hs (.inr ⟨p, hf.role.1⟩) (held_pos (ht.inv.step hs) hmem).2⟩

/-- From the test of `ip->valid` on, `ilock` of an inode that was taken does not panic, and the copy it
leaves has the type that the inode was taken with. -/
theorem Taken.ilock (ht : Taken ip i type s) (h0 : type ≠ 0) (hp : s.pc p = .ilock ip .check) :
    ∃ s₁, s.step (.go p) = .ok s₁ ∧ (s₁.itable ip).type = type ∧
      (s₁.pc p = .idle ∨ s₁.pc p = .ilock ip .loaded ∧
        ∀ s₂, While (fun t => t.pc p = .ilock ip .loaded) s₁ s₂ →
          ∃ s₃, s₂.step (.go p) = .ok s₃ ∧ s₃.pc p = .idle ∧ (s₃.itable ip).type = type) := by
  have hd : (s.dinode (s.itable ip).id).type = type := by rw [ht.id, ht.type]
  have hset : ∀ (t : State P H) (x : Entry) (pc : Pc H), x.type = type →
      (((t.setEntry ip x).goto p pc).itable ip).type = type := fun t x pc hx =>
    (congrArg (fun y => y.type) (itable_setEntry_self t ip x)).trans hx
  have hrole : ∀ {t : State P H} {st}, t.pc p = .ilock ip st → (t.loc ip).role p = st.role :=
    fun {t st} hpt => by
      show (t.pc p).role ip = _
      rw [hpt, role_ilock_self]
  have hstep : s.step (.go p) = s.ilockStep p ip .check := by rw [State.step, hp, State.next]
  rw [ilockStep] at hstep
  by_cases hv : (s.itable ip).valid = true
  · rw [if_pos hv] at hstep
    refine ⟨_, hstep, ?_, .inl (pc_goto_self ..)⟩
    have hl := (ht.inv.ok ip).locks p (by rw [hrole hp]; rfl)
    have hcopy : (s.itable ip).toDinode = s.dinode (s.itable ip).id :=
      ((ht.inv.ok ip).content_of_role (hrole hp) hl hv).1
    exact (congrArg Dinode.type hcopy).trans hd
  · rw [if_neg hv] at hstep
    refine ⟨_, hstep, ?_, .inr ⟨pc_goto_self .., fun s₂ hw => ?_⟩⟩
    · exact hset _ _ _ hd
    · -- nobody touches the copy between the two steps
      have hkeep := hw.invariant (I := fun t => Inv t ∧ t.pc p = .ilock ip .loaded ∧
          (t.itable ip).type = type) ⟨ht.inv.step hstep, pc_goto_self .., ?_⟩ ?_
      · obtain ⟨hi2, hp2, htype⟩ := hkeep
        have hstep2 : s₂.step (.go p) = s₂.ilockStep p ip .loaded := by rw [State.step, hp2, State.next]
        rw [ilockStep, if_neg (by rw [htype]; exact h0)] at hstep2
        refine ⟨_, hstep2, pc_goto_self .., ?_⟩
        exact hset _ _ _ htype
      · exact hset _ _ _ hd
      · rintro t t' a ⟨hit, hpt, htype⟩ ha hpt'
        refine ⟨hit.step ha, hpt', ?_⟩
        have hcopy : (t'.itable ip).toDinode = (t.itable ip).toDinode :=
          (hit.ok ip).copy_step (hit.loc_step ha ip) (hrole hpt) (hrole hpt')
        exact (congrArg Dinode.type hcopy).trans htype

/-! ## The table under any interleaving -/

/-- **The inode table.**  In every run of the table, from any disk:

* there is at most one entry in use for an inode;
* an entry that is in use, valid and not locked is a copy of the dinode;
* suppose `q`, in `ialloc`, takes the number of an inode that an `iput` of `p` has freed, and gets its
  reference `h` while `p` has not dropped its own.  Then this is a reference to the entry that `p` is about to
  leave.  As long as it is there, every `ilock` of the entry goes through and finds the type that `ialloc`
  wrote, and `p` only decrements the reference count. -/
theorem inode_table {sb : Superblock} {buf : BitVec 32 → Disk} {as : List (Act P H)}
    (hrun : run State.step (.init sb buf) as = .ok s) :
    (∀ ip jp, 0 < (s.itable ip).ref → 0 < (s.itable jp).ref → (s.itable ip).id = (s.itable jp).id →
      ip = jp) ∧
    (∀ ip, 0 < (s.itable ip).ref → (s.itable ip).valid = true → s.lock ip = none →
      (s.itable ip).toDinode = s.dinode (s.itable ip).id) ∧
    ∀ {p q ip h dev type inum s₁ s₂ s₃ s₄}, type ≠ 0 → FreedBy s p ip →
      (s.itable ip).id = (dev, inum) → s.pc q = .ialloc h dev type inum →
      s.step (.go q) = .ok s₁ → s₁.pc q = .found h dev inum →
      While (fun t => FreedBy t p ip ∧ t.pc q = .found h dev inum) s₁ s₂ →
      s₂.step (.go q) = .ok s₃ → While (fun t => (h, ip) ∈ t.refs) s₃ s₄ →
      (h, ip) ∈ s₃.refs ∧
      (∀ r, s₄.pc r = .ilock ip .check →
        ∃ s₅, s₄.step (.go r) = .ok s₅ ∧ (s₅.itable ip).type = type ∧
          (s₅.pc r = .idle ∨ s₅.pc r = .ilock ip .loaded ∧
            ∀ s₆, While (fun t => t.pc r = .ilock ip .loaded) s₅ s₆ →
              ∃ s₇, s₆.step (.go r) = .ok s₇ ∧ s₇.pc r = .idle ∧ (s₇.itable ip).type = type)) ∧
      (s₄.pc p = .iput ip .drop → s₄.step (.go p) = .ok ((s₄.setEntry ip
        { s₄.itable ip with ref := (s₄.itable ip).ref - 1 }).goto p .idle)) := by
  have hi := run_inv hrun
  refine ⟨hi.uniq, fun ip hpos hv hl => ?_, ?_⟩
  · have hok := (hi.ok ip).content hpos
    rw [Loc.holderRole_none hl] at hok
    exact (hok hv).1
  · intro p q ip h dev type inum s₁ s₂ s₃ s₄ h0 hf hid hq hs1 hfound hw1 hs3 hw2
    have hfirst := taken_of_alloc hi hf hid hq hs1 hfound
    -- until `ialloc` gets its reference, `p` keeps the entry in use
    obtain ⟨ht2, hf2, hq2⟩ := hw1.invariant (I := fun t => Taken ip (dev, inum) type t ∧ FreedBy t p ip ∧
        t.pc q = .found h dev inum) ⟨hfirst.1, hfirst.2, hfound⟩ fun {t t' a} ht ha hC =>
      ⟨ht.1.step h0 ha (.inr ⟨p, ht.2.1.role.1⟩) (hC.1.ref_pos (ht.1.inv.step ha)), hC⟩
    obtain ⟨hmem, ht3⟩ := ht2.iget hf2 h0 hq2 hs3
    -- from then on, the reference of `ialloc` does
    have ht4 := hw2.invariant (I := Taken ip (dev, inum) type) ht3 fun {t t' a} ht ha hC =>
      have hpos := held_pos (ht.inv.step ha) hC
      ht.step h0 ha (.inl hpos.1) hpos.2
    refine ⟨hmem, fun r hr => ht4.ilock h0 hr, fun hp => ?_⟩
    rw [step, hp]
    rfl

/-! ## A run in which the number is taken -/

/-- An empty disk with two inodes. -/
def emptyDisk : State Nat Nat := .init ⟨2000, 1954, 3, 30, 2, 32, 45⟩ fun _ _ => Fs.zeroBlock

/-- The state after a run. -/
def after (as : List (Act Nat Nat)) : State Nat Nat :=
  (run State.step emptyDisk as).toOption.getD emptyDisk

theorem run_after (hok : (run step emptyDisk as).isOk = true) :
    run step emptyDisk as = .ok (after as) := by
  rw [after]
  cases hr : run step emptyDisk as with
  | error e =>
    rw [hr] at hok
    cases hok
  | ok s => rfl

theorem step_after
    (hok : (run step emptyDisk (as ++ [a])).isOk = true) :
    (after as).step a = .ok (after (as ++ [a])) := by
  obtain ⟨t, ht, ha⟩ := run_concat_ok.mp (run_after hok)
  have hat : after as = t := by rw [after, ht]; rfl
  rw [hat, ha]

def entry₀ : Ptr := ⟨0, NINODE_pos⟩

/-- Process 0 creates a file without links and drops it.  It has freed the inode when process 1 calls
`ialloc`, for a device. -/
def freeing : List (Act Nat Nat) :=
  [.ialloc 0 0 1 2, .go 0, .go 0, .ilock 0 entry₀, .go 0, .go 0, .go 0, .iunlock 0 entry₀,
    .iput 0 0 entry₀, .go 0, .go 0, .go 0, .go 0, .ialloc 1 1 1 3]

/-- Process 1 has the reference. -/
def taking : List (Act Nat Nat) := freeing ++ [.go 1] ++ [.go 1]

/-- It locks the inode: process 0 has to give back the lock first. -/
def locking : List (Act Nat Nat) := taking ++ [.ilock 1 entry₀] ++ [.go 0] ++ [.go 0] ++ [.go 1]

theorem inode_table_reused : FreedBy (after freeing) 0 entry₀ ∧ (1, entry₀) ∈ (after taking).refs ∧
    ∃ s, (after locking).step (.go 1) = .ok s ∧ (s.itable entry₀).type = 3 := by
  have hf : FreedBy (after freeing) 0 entry₀ := .inl (by decide +kernel)
  have h1 : (after taking).step (.ilock 1 entry₀) = .ok _ := step_after (by decide +kernel)
  have h2 : (after (taking ++ [.ilock 1 entry₀])).step (.go 0) = .ok _ := step_after (by decide +kernel)
  have h3 : (after (taking ++ [.ilock 1 entry₀] ++ [.go 0])).step (.go 0) = .ok _ :=
    step_after (by decide +kernel)
  have h4 : (after (taking ++ [.ilock 1 entry₀] ++ [.go 0] ++ [.go 0])).step (.go 1) = .ok _ :=
    step_after (by decide +kernel)
  have hw : While (fun t => (1, entry₀) ∈ t.refs) (after taking) (after locking) :=
    .tail (.tail (.tail (.tail .refl ⟨⟨_, h1⟩, by decide +kernel⟩) ⟨⟨_, h2⟩, by decide +kernel⟩)
      ⟨⟨_, h3⟩, by decide +kernel⟩) ⟨⟨_, h4⟩, by decide +kernel⟩
  have hq : (after freeing).pc 1 = .ialloc 1 1 3 1 := by decide +kernel
  obtain ⟨hmem, hlock, -⟩ := (inode_table (run_after (by decide +kernel))).2.2 (by decide) hf
    (by decide +kernel) hq (step_after (by decide +kernel)) (by decide +kernel) .refl
    (step_after (by decide +kernel)) hw
  obtain ⟨s, hs, htype, -⟩ := hlock 1 (by decide +kernel)
  exact ⟨hf, hmem, s, hs, htype⟩

end Xv6.Itable
