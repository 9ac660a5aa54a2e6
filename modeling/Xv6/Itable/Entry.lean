/-
# Xv6.Itable.Entry — one entry of the inode table.

What the invariants say about the table they say about each entry by itself: its fields, the dinode they
are a copy of, the sleep-lock, how many references there are, who uses the inode, and where each process is
with respect to the entry.  `Loc` is this much of the state and `Loc.Step` all that can happen to it.  An
entry goes on to agree with its dinode because whoever writes one of the two holds the lock, except for
`ialloc`, which only writes a dinode of type 0.
-/
import Xv6.Itable.Defs

namespace Xv6.Itable

open Option Nat

open Xv6.Fs (Dinode Ptr)

/-- Where a process is with respect to an entry. -/
inductive Role where
  /-- In no function that works on the entry. -/
  | away
  /-- `ilock`: waiting for the lock. -/
  | waits
  /-- `ilock`: has the lock. -/
  | checks
  /-- `ilock`: has copied the dinode. -/
  | loaded
  /-- `iput`: in `itrunc`. -/
  | truncating
  /-- `iput`: between `itrunc` and the end of the `iupdate` that frees the inode. -/
  | clearing
  /-- `iput`: the inode is free, the entry is still valid. -/
  | freed
  /-- `iput`: the entry is not valid any more. -/
  | cleared
  /-- `iput`: has given back the lock, but has not dropped its reference. -/
  | dropping
  deriving DecidableEq

namespace Role

/-- In the part of `iput` that frees the inode: the reference that is dropped still counts. -/
def pending : Role → Bool
  | .truncating | .clearing | .freed | .cleared | .dropping => true
  | _ => false

/-- In the part of `iput` that frees the inode, with the lock. -/
def frees : Role → Bool
  | .truncating | .clearing | .freed | .cleared => true
  | _ => false

/-- In `ilock`. -/
def ilocks : Role → Bool
  | .waits | .checks | .loaded => true
  | _ => false

/-- In `ilock` or `iput`, with the lock. -/
def locks : Role → Bool
  | .checks | .loaded => true
  | r => r.frees

theorem frees_pending {r : Role} (h : r.frees = true) : r.pending = true := by
  cases r <;> first | rfl | cases h

/-- What the copy `n` of a dinode `d` is like while a process with this role holds the lock.  A process that
is away has locked the inode and may be changing it. -/
def Ok (n : Dinode) (valid : Bool) (d : Dinode) (dirty : Bool) : Role → Prop
  | .checks => valid = true → n = d ∧ d.type ≠ 0
  | .loaded => n.type ≠ 0 → n = d
  | .truncating => n.type ≠ 0 ∧ d.type ≠ 0
  | .clearing => d.type ≠ 0
  | .freed => True
  | .cleared => valid = false
  | .away | .waits | .dropping => valid = true ∧ d.type ≠ 0 ∧ n.type = d.type ∧ (dirty = false → n = d)

/-- A dinode of type 0 may become any other: no entry is a copy of it. -/
theorem Ok.alloc {n d : Dinode} {valid dirty : Bool} {r : Role} (h : r.Ok n valid d dirty)
    (h0 : d.type = 0) (d' : Dinode) : r.Ok n valid d' dirty := by
  cases r with
  | checks => exact fun hv => absurd h0 (h hv).2
  | loaded =>
    intro ht
    have hn : n = d := h ht
    exact absurd (hn ▸ h0) ht
  | truncating => exact absurd h0 h.2
  | clearing => exact absurd h0 h
  | freed => trivial
  | cleared => exact h
  | away | waits | dropping => exact absurd h0 h.2.1

end Role

variable {P : Type}

/-- An entry of the table and what concerns it. -/
@[ext] structure Loc (P : Type) where
  x : Entry
  d : Dinode
  dirty : Bool
  lock : Option P
  held : Nat
  uses : P → Prop
  role : P → Role

namespace Loc

/-- Who holds the lock, references and uses of an entry. -/
structure Control (l : Loc P) : Prop where
  one : ∀ p q, (l.role p).pending = true → (l.role q).pending = true → p = q
  pending : ∀ p, (l.role p).pending = true → l.x.ref = l.held + 1
  quiet : (∀ p, (l.role p).pending = false) → l.x.ref = l.held
  locks : ∀ p, (l.role p).locks = true → l.lock = some p
  ilocks : ∀ p, (l.role p).ilocks = true → l.uses p
  holder : ∀ p, l.lock = some p → (l.role p).frees = true ∨ l.uses p
  use : ∀ p, l.uses p → 0 < l.held

/-- The role of the holder of the lock.  An entry that is not locked is like one that was just locked. -/
def holderRole (l : Loc P) : Role :=
  match l.lock with
  | none => .checks
  | some p => l.role p

/-- The invariant of an entry. -/
structure Ok (l : Loc P) : Prop extends Control l where
  content : 0 < l.x.ref → l.holderRole.Ok l.x.toDinode l.x.valid l.d l.dirty

namespace Control

variable {l : Loc P} (h : l.Control)

include h

theorem held_le : l.held ≤ l.x.ref := by
  by_cases hp : ∃ p, (l.role p).pending = true
  · obtain ⟨p, hp⟩ := hp
    exact (h.pending p hp).symm ▸ le_succ _
  · refine (h.quiet fun p => ?_).ge
    rw [← Bool.not_eq_true]
    exact fun hn => hp ⟨p, hn⟩

theorem ref_pos (hl : l.lock = some p) : 0 < l.x.ref := by
  rcases h.holder p hl with hf | hu
  · rw [h.pending p (Role.frees_pending hf)]
    exact succ_pos _
  · exact (h.use p hu).trans_le h.held_le

/-- The last reference: nobody is in the middle of `iput`. -/
theorem last (hr : l.x.ref = 1) (hh : 0 < l.held) : l.held = 1 ∧ ∀ p, (l.role p).pending = false := by
  have hle := h.held_le
  refine ⟨by omega, fun p => ?_⟩
  rw [← Bool.not_eq_true]
  intro hp
  have := h.pending p hp
  omega

/-- **`acquiresleep` in `iput` does not wait**: the lock of an inode with one reference, which is about to
be dropped, is free. -/
theorem lock_free (hr : l.x.ref = 1) (hh : 0 < l.held) (hu : l.held = 1 → ∀ q, ¬l.uses q) :
    l.lock = none := by
  obtain ⟨h1, hq⟩ := h.last hr hh
  cases hl : l.lock with
  | none => rfl
  | some p =>
    rcases h.holder p hl with hf | huse
    · have := Role.frees_pending hf
      rw [hq p] at this
      cases this
    · exact absurd huse (hu h1 p)

/-- References come and go together with their count. -/
theorem count {l' : Loc P} (hrole : l'.role = l.role) (hlock : l'.lock = l.lock) (huse : l'.uses = l.uses)
    (hcount : l'.x.ref + l.held = l.x.ref + l'.held) (hheld : ∀ p, l.uses p → 0 < l'.held) :
    l'.Control where
  one := by rw [hrole]; exact h.one
  pending p hp := by
    rw [hrole] at hp
    have := h.pending p hp
    omega
  quiet hq := by
    rw [hrole] at hq
    have := h.quiet hq
    omega
  locks := by rw [hrole, hlock]; exact h.locks
  ilocks := by rw [hrole, huse]; exact h.ilocks
  holder := by rw [hrole, hlock, huse]; exact h.holder
  use := by rw [huse]; exact hheld

/-- One process moves, and the number of references stays as it is. -/
theorem move {l' : Loc P} {p : P} (hrole : ∀ q, q ≠ p → l'.role q = l.role q)
    (hpend : (l'.role p).pending = (l.role p).pending) (href : l'.x.ref = l.x.ref)
    (hheld : l'.held = l.held) (huse : ∀ q, q ≠ p → (l'.uses q ↔ l.uses q))
    (hup : l'.uses p → 0 < l.held) (hlock : ∀ q, q ≠ p → (l'.lock = some q ↔ l.lock = some q))
    (hlocks : (l'.role p).locks = true → l'.lock = some p)
    (hilocks : (l'.role p).ilocks = true → l'.uses p)
    (hholder : l'.lock = some p → (l'.role p).frees = true ∨ l'.uses p) : l'.Control := by
  have hsame : ∀ q, (l'.role q).pending = (l.role q).pending := fun q => by
    by_cases hq : q = p
    · rw [hq, hpend]
    · rw [hrole q hq]
  refine ⟨fun q r hq hr => ?_, fun q hq => ?_, fun hq => ?_, fun q hq => ?_, fun q hq => ?_, fun q hq => ?_,
    fun q hq => ?_⟩
  · rw [hsame] at hq hr
    exact h.one q r hq hr
  · rw [hsame] at hq
    rw [href, hheld, h.pending q hq]
  · rw [href, hheld]
    exact h.quiet fun q => (hsame q).symm.trans (hq q)
  · by_cases hqp : q = p
    · rw [hqp] at hq ⊢
      exact hlocks hq
    · rw [hrole q hqp] at hq
      exact (hlock q hqp).mpr (h.locks q hq)
  · by_cases hqp : q = p
    · rw [hqp] at hq ⊢
      exact hilocks hq
    · rw [hrole q hqp] at hq
      exact (huse q hqp).mpr (h.ilocks q hq)
  · by_cases hqp : q = p
    · rw [hqp] at hq ⊢
      exact hholder hq
    · rw [hrole q hqp, huse q hqp]
      exact h.holder q ((hlock q hqp).mp hq)
  · rw [hheld]
    by_cases hqp : q = p
    · exact hup (hqp ▸ hq)
    · exact h.use q ((huse q hqp).mp hq)

end Control

variable {l l' : Loc P} {p : P}

theorem holderRole_some (h : l.lock = some p) : l.holderRole = l.role p := by rw [holderRole, h]

theorem holderRole_none (h : l.lock = none) : l.holderRole = .checks := by rw [holderRole, h]

/-- The content of an entry whose lock is held by `p`. -/
theorem Ok.content_of_role (h : l.Ok) (hr : l.role p = r) (hl : l.lock = some p) :
    r.Ok l.x.toDinode l.x.valid l.d l.dirty := by
  have := h.content (h.ref_pos hl)
  rwa [holderRole_some hl, hr] at this

variable [DecidableEq P]

/-- The process moves with respect to the entry. -/
def goto (l : Loc P) (p : P) (r : Role) : Loc P := { l with role := Function.update l.role p r }

/-- What can happen to an entry. -/
inductive Step (l : Loc P) : Loc P → Prop where
  | same : Step l l
  /-- The dinode belongs to another entry, or to none. -/
  | other (d : Dinode) : l.x.ref = 0 → Step l { l with d }
  /-- `ialloc` takes the inode number. -/
  | alloc (d : Dinode) : l.d.type = 0 → Step l { l with d }
  | get : 0 < l.x.ref → Step l { l with x := { l.x with ref := l.x.ref + 1 }, held := l.held + 1 }
  /-- `iget` takes the entry for another inode. -/
  | recycle (x : Entry) (d : Dinode) : l.x.ref = 0 → x.ref = 1 → x.valid = false →
      Step l { l with x, d, held := l.held + 1 }
  | enter (p : P) : l.role p = .away → 0 < l.held →
      Step l { l.goto p .waits with uses := fun q => q = p ∨ l.uses q }
  | acquire (p : P) : l.role p = .waits → l.lock = none → Step l { l.goto p .checks with lock := some p }
  | hit (p : P) : l.role p = .checks → l.x.valid = true → Step l (l.goto p .away)
  | load (p : P) : l.role p = .checks → l.x.valid = false →
      Step l { l.goto p .loaded with x := { l.x with toDinode := l.d } }
  | ready (p : P) : l.role p = .loaded → l.x.type ≠ 0 →
      Step l { l.goto p .away with x := { l.x with valid := true } }
  | write (p : P) (n : Dinode) : l.role p = .away → l.lock = some p →
      Step l { l with x := { l.x with toDinode := { n with type := l.x.type } }, dirty := true }
  | update (p : P) : l.role p = .away → l.lock = some p →
      Step l { l with d := l.x.toDinode, dirty := false }
  | unlock (p : P) (uses : P → Prop) : l.role p = .away → l.lock = some p → l.dirty = false →
      (∀ q, q ≠ p → (uses q ↔ l.uses q)) → (uses p → l.uses p) → Step l { l with lock := none, uses }
  | put : 0 < l.held → (l.held = 1 → ∀ q, ¬l.uses q) →
      Step l { l with x := { l.x with ref := l.x.ref - 1 }, held := l.held - 1 }
  /-- `iput` finds that it drops the last reference to an inode without links. -/
  | free (p : P) : l.role p = .away → 0 < l.held → (l.held = 1 → ∀ q, ¬l.uses q) → l.x.ref = 1 →
      l.x.valid = true → Step l { l.goto p .truncating with lock := some p, held := l.held - 1 }
  | trunc (p : P) : l.role p = .truncating →
      Step l { l.goto p .truncating with x := { l.x with size := 0, addrs := fun _ => 0 } }
  | truncated (p : P) : l.role p = .truncating → Step l { l.goto p .clearing with d := l.x.toDinode }
  | clear (p : P) : l.role p = .clearing →
      Step l { l.goto p .clearing with x := { l.x with type := 0 } }
  | freed (p : P) : l.role p = .clearing → Step l { l.goto p .freed with d := l.x.toDinode }
  | invalidate (p : P) : l.role p = .freed →
      Step l { l.goto p .cleared with x := { l.x with valid := false } }
  | release (p : P) : l.role p = .cleared → Step l { l.goto p .dropping with lock := none }
  | drop (p : P) : l.role p = .dropping →
      Step l { l.goto p .away with x := { l.x with ref := l.x.ref - 1 } }

@[simp] theorem goto_role_self (r : Role) : (l.goto p r).role p = r := Function.update_self ..

theorem goto_role_ne (h : q ≠ p) (r : Role) : (l.goto p r).role q = l.role q :=
  Function.update_of_ne h ..

/-- The lock is taken by a process that was away, for the last reference to the inode. -/
theorem Control.free (h : l.Control) (hh : 0 < l.held) (hone : l.x.ref = 1) (p : P)
    (hu : l.held = 1 → ∀ q, ¬l.uses q) :
    Control { l.goto p .truncating with lock := some p, held := l.held - 1 } := by
  obtain ⟨h1, hq⟩ := h.last hone hh
  have hp : ∀ q, ((l.goto p .truncating).role q).pending = true → q = p := fun q hq' => by
    by_contra hne
    rw [goto_role_ne hne, hq q] at hq'
    cases hq'
  refine ⟨fun q r h₁ h2 => (hp q h₁).trans (hp r h2).symm, fun q _ => ?_, fun hno => ?_, fun q hl => ?_,
    fun q hil => ?_, fun q hl => ?_, fun q huse => absurd huse (hu h1 q)⟩
  · show l.x.ref = l.held - 1 + 1
    omega
  · have : ((l.goto p .truncating).role p).pending = false := hno p
    rw [goto_role_self] at this
    cases this
  · by_cases hqp : q = p
    · rw [hqp]
    · have hl : ((l.goto p .truncating).role q).locks = true := hl
      rw [goto_role_ne hqp] at hl
      have := h.locks q hl
      rw [h.lock_free hone hh hu] at this
      cases this
  · have hil : ((l.goto p .truncating).role q).ilocks = true := hil
    by_cases hqp : q = p
    · rw [hqp, goto_role_self] at hil
      cases hil
    · rw [goto_role_ne hqp] at hil
      exact absurd (h.ilocks q hil) (hu h1 q)
  · obtain rfl : p = q := some_inj.mp hl
    exact .inl (by rw [show _ = Role.truncating from goto_role_self ..]; rfl)

/-- The reference of a process that has freed the inode is dropped. -/
theorem Control.drop (h : l.Control) (hr : l.role p = .dropping) :
    Control { l.goto p .away with x := { l.x with ref := l.x.ref - 1 } } := by
  have hcount := h.pending p (by rw [hr]; rfl)
  have hother : ∀ q, ((l.goto p .away).role q).pending = false := fun q => by
    by_cases hqp : q = p
    · rw [hqp, goto_role_self]
      rfl
    · rw [goto_role_ne hqp, ← Bool.not_eq_true]
      exact fun hq => hqp (h.one q p hq (by rw [hr]; rfl))
  -- neither of the two roles has to do with the lock
  have hsame : ∀ q, ((l.goto p .away).role q).locks = (l.role q).locks ∧
      ((l.goto p .away).role q).ilocks = (l.role q).ilocks ∧
      ((l.goto p .away).role q).frees = (l.role q).frees := fun q => by
    by_cases hqp : q = p
    · rw [hqp, goto_role_self, hr]
      exact ⟨rfl, rfl, rfl⟩
    · rw [goto_role_ne hqp]
      exact ⟨rfl, rfl, rfl⟩
  refine ⟨fun q _ hq => ?_, fun q hq => ?_, fun _ => ?_, fun q hq => ?_, fun q hq => ?_, fun q hq => ?_, h.use⟩
  · rw [show _ = false from hother q] at hq
    cases hq
  · rw [show _ = false from hother q] at hq
    cases hq
  · show l.x.ref - 1 = l.held
    omega
  · exact h.locks q ((hsame q).1.symm.trans hq)
  · exact h.ilocks q ((hsame q).2.1.symm.trans hq)
  · rcases h.holder q hq with hf | hu
    · exact .inl ((hsame q).2.2.trans hf)
    · exact .inr hu

/-- The holder of the lock goes on. -/
theorem Control.turn (h : l.Control) (x : Entry) (d : Dinode) (hr : l.role p = r)
    (hx : x.ref = l.x.ref) (hlocks : r.locks = true) (hpend : r'.pending = r.pending)
    (hfrees : r'.frees = r.frees) (hilocks : r'.ilocks = true → r.ilocks = true) :
    Control { l.goto p r' with x, d } := by
  have hl : l.lock = some p := h.locks p (by rw [hr, hlocks])
  have hself : (l.goto p r').role p = r' := goto_role_self ..
  refine h.move (p := p) (fun q hq => goto_role_ne hq _) ?_ hx rfl (fun q _ => Iff.rfl) (h.use p)
    (fun q _ => Iff.rfl) (fun _ => hl) (fun hil => ?_) fun _ => ?_
  · show ((l.goto p r').role p).pending = _
    rw [hself, hpend, hr]
  · have hil : ((l.goto p r').role p).ilocks = true := hil
    rw [hself] at hil
    exact h.ilocks p (by rw [hr]; exact hilocks hil)
  · show ((l.goto p r').role p).frees = true ∨ l.uses p
    rw [hself, hfrees, ← hr]
    exact h.holder p hl

/-- The control of an entry over one step. -/
theorem Control.step (h : l.Control) (hs : l.Step l') : l'.Control := by
  cases hs with
  | same => exact h
  | other d h0 | alloc | write | update => exact h.count rfl rfl rfl rfl h.use
  | get hpos => exact h.count rfl rfl rfl (add_right_comm ..) fun p _ => succ_pos _
  | recycle x d h0 h1 hv =>
    refine h.count rfl rfl rfl ?_ fun p _ => succ_pos _
    show x.ref + l.held = l.x.ref + (l.held + 1)
    omega
  | enter p hr hh =>
    refine h.move (p := p) (fun q hq => goto_role_ne hq _) ?_ rfl rfl (fun q hq => ?_) (fun _ => hh)
      (fun q _ => Iff.rfl) ?_ (fun _ => .inl rfl) fun _ => .inr (.inl rfl)
    · rw [show _ = Role.waits from goto_role_self .., hr]
      rfl
    · exact or_iff_right hq
    · rw [show _ = Role.waits from goto_role_self ..]
      exact fun hn => nomatch hn
  | acquire p hr hl =>
    have hu : l.uses p := h.ilocks p (by rw [hr]; rfl)
    refine h.move (p := p) (fun q hq => goto_role_ne hq _) ?_ rfl rfl (fun q _ => Iff.rfl) (h.use p)
      (fun q hq => ?_) (fun _ => rfl) (fun _ => hu) fun _ => .inr hu
    · rw [show _ = Role.checks from goto_role_self .., hr]
      rfl
    · rw [hl]
      exact ⟨fun he => absurd (some_inj.mp he).symm hq, fun he => nomatch he⟩
  | hit p hr hv => exact h.turn l.x l.d hr rfl rfl rfl rfl fun hn => nomatch hn
  | load p hr hv => exact h.turn _ _ hr rfl rfl rfl rfl fun _ => rfl
  | ready p hr ht | trunc _ hr | truncated _ hr | clear _ hr | freed _ hr | invalidate _ hr =>
    exact h.turn _ _ hr rfl rfl rfl rfl fun hn => nomatch hn
  | unlock p uses hr hl hd hu hup =>
    refine h.move (p := p) (fun q _ => rfl) rfl rfl rfl hu (fun hp => h.use p (hup hp)) (fun q hq => ?_)
      (fun hn => ?_) (fun hn => ?_) fun hn => nomatch hn
    · rw [hl]
      exact ⟨fun he => (nomatch he), fun he => absurd (some_inj.mp he).symm hq⟩
    · rw [hr] at hn
      cases hn
    · rw [hr] at hn
      cases hn
  | put hh hu =>
    have hle := h.held_le
    refine h.count rfl rfl rfl ?_ fun p hp => ?_
    · show l.x.ref - 1 + l.held = l.x.ref + (l.held - 1)
      omega
    · show 0 < l.held - 1
      have : l.held ≠ 1 := fun h1 => hu h1 p hp
      omega
  | free p hr hh hu hone hv => exact h.free hh hone p hu
  | release p hr =>
    have hl : l.lock = some p := h.locks p (by rw [hr]; rfl)
    have hself : (l.goto p .dropping).role p = .dropping := goto_role_self ..
    refine h.move (p := p) (fun q hq => goto_role_ne hq _) ?_ rfl rfl (fun q _ => Iff.rfl) (h.use p)
      (fun q hq => ?_) (fun hn => ?_) (fun hn => ?_) fun hn => nomatch hn
    · rw [show _ = Role.dropping from hself, hr]
      rfl
    · rw [hl]
      exact ⟨fun he => (nomatch he), fun he => absurd (some_inj.mp he).symm hq⟩
    · rw [show _ = Role.dropping from hself] at hn
      cases hn
    · rw [show _ = Role.dropping from hself] at hn
      cases hn
  | drop p hr => exact h.drop hr

theorem holderRole_goto_ne (h : l.lock ≠ some p) (r : Role) : (l.goto p r).holderRole = l.holderRole := by
  have hlock : (l.goto p r).lock = l.lock := rfl
  cases hl : l.lock with
  | none => rw [holderRole_none hl, holderRole_none (hlock.trans hl)]
  | some q =>
    have hqp : q ≠ p := fun he => h (he ▸ hl)
    rw [holderRole_some hl, holderRole_some (hlock.trans hl), goto_role_ne hqp]

/-- A process goes to or from a role in which it does not look at the entry. -/
theorem Ok.content_goto (h : l.Ok) (hr : l.role p = r)
    (hsame : r'.Ok l.x.toDinode l.x.valid l.d l.dirty = r.Ok l.x.toDinode l.x.valid l.d l.dirty)
    (hpos : 0 < l.x.ref) : (l.goto p r').holderRole.Ok l.x.toDinode l.x.valid l.d l.dirty := by
  by_cases hl : l.lock = some p
  · rw [holderRole_some (l := l.goto p r') hl, goto_role_self, hsame]
    exact h.content_of_role hr hl
  · rw [holderRole_goto_ne hl]
    exact h.content hpos

/-- **One step keeps the invariant of an entry.** -/
theorem Ok.step (h : l.Ok) (hs : l.Step l') : l'.Ok := by
  refine ⟨h.toControl.step hs, ?_⟩
  -- a process with one of these roles holds the lock, before and after
  have locked : ∀ {p r}, l.role p = r → r.locks = true → l.lock = some p := fun hr hlocks =>
    h.locks _ (by rw [hr, hlocks])
  have now : ∀ {p r} {k : Loc P}, k.lock = some p → k.role p = r →
      r.Ok k.x.toDinode k.x.valid k.d k.dirty → k.holderRole.Ok k.x.toDinode k.x.valid k.d k.dirty :=
    fun hl hr hok => by rwa [holderRole_some hl, hr]
  cases hs with
  | same => exact h.content
  | other d h0 => exact fun hpos => absurd hpos (by rw [h0]; exact lt_irrefl 0)
  | alloc d h0 => exact fun hpos => (h.content hpos).alloc h0 d
  | get hpos => exact fun _ => h.content hpos
  | recycle x d h0 h1 hv =>
    intro _
    have hl : l.lock = none := by
      cases hl : l.lock with
      | none => rfl
      | some p => exact absurd (h.ref_pos hl) (by rw [h0]; exact lt_irrefl 0)
    rw [holderRole_none (l := { l with x, d, held := l.held + 1 }) hl]
    exact fun hvalid => absurd (hv.symm.trans hvalid) Bool.false_ne_true
  | enter p hr hh => exact fun hpos => h.content_goto hr rfl hpos
  | acquire p hr hl =>
    intro hpos
    have hok := h.content hpos
    rw [holderRole_none hl] at hok
    exact now (p := p) rfl (goto_role_self ..) hok
  | hit p hr hv =>
    have hl := locked hr rfl
    obtain ⟨hn, ht⟩ := h.content_of_role hr hl hv
    exact fun _ => now hl (goto_role_self ..) ⟨hv, ht, congrArg Dinode.type hn, fun _ => hn⟩
  | load p hr hv => exact fun _ => now (locked hr rfl) (goto_role_self ..) fun _ => rfl
  | ready p hr ht =>
    have hl := locked hr rfl
    have hn : l.x.toDinode = l.d := h.content_of_role hr hl ht
    exact fun _ => now (p := p) hl (goto_role_self ..) ⟨rfl, hn ▸ ht, congrArg Dinode.type hn, fun _ => hn⟩
  | write p n hr hl =>
    obtain ⟨hv, ht, heq, -⟩ := h.content_of_role hr hl
    exact fun _ => now (p := p) hl hr ⟨hv, ht, heq, fun hn => nomatch hn⟩
  | update p hr hl =>
    obtain ⟨hv, ht, heq, -⟩ := h.content_of_role hr hl
    exact fun _ => now (p := p) hl hr ⟨hv, heq ▸ ht, rfl, fun _ => rfl⟩
  | unlock p uses hr hl hd hu hup =>
    obtain ⟨hv, ht, -, hn⟩ := h.content_of_role hr hl
    exact fun _ _ => ⟨hn hd, ht⟩
  | put hh hu =>
    intro hpos
    have hpos : 0 < l.x.ref - 1 := hpos
    exact h.content (by omega)
  | free p hr hh hu hone hv =>
    intro hpos
    have hok := h.content hpos
    rw [holderRole_none (h.lock_free hone hh hu)] at hok
    obtain ⟨hn, ht⟩ := hok hv
    exact now (p := p) rfl (goto_role_self ..) ⟨hn ▸ ht, ht⟩
  | trunc p hr | clear p hr =>
    have hl := locked hr rfl
    exact fun _ => now (p := p) hl (goto_role_self ..) (h.content_of_role hr hl)
  | truncated p hr =>
    have hl := locked hr rfl
    exact fun _ => now (p := p) hl (goto_role_self ..) (h.content_of_role hr hl).1
  | freed p hr => exact fun _ => now (p := p) (locked hr rfl) (goto_role_self ..) trivial
  | invalidate p hr => exact fun _ => now (p := p) (locked hr rfl) (goto_role_self ..) rfl
  | release p hr =>
    have hv : l.x.valid = false := h.content_of_role hr (locked hr rfl)
    exact fun _ hvalid => absurd (hv.symm.trans hvalid) Bool.false_ne_true
  | drop p hr =>
    intro hpos
    have hpos : 0 < l.x.ref - 1 := hpos
    exact h.content_goto hr rfl (by omega)

/-! ## An inode number that is taken again -/

/-- Nobody is about to free the inode. -/
def Kept (l : Loc P) : Prop := ∀ q, l.role q ≠ .truncating ∧ l.role q ≠ .clearing

omit [DecidableEq P] in
theorem Control.kept (h : l.Control) (hp : (l.role p).pending = true) (h₁ : l.role p ≠ .truncating)
    (h₂ : l.role p ≠ .clearing) : l.Kept := fun q => by
  constructor
  · intro hq
    exact h₁ (h.one q p (by rw [hq]; rfl) hp ▸ hq)
  · intro hq
    exact h₂ (h.one q p (by rw [hq]; rfl) hp ▸ hq)

theorem Step.id (hs : l.Step l') (hpos : 0 < l.x.ref) : l'.x.id = l.x.id := by
  cases hs with
  | recycle x d h0 h1 hv => exact absurd hpos (by rw [h0]; exact lt_irrefl 0)
  | _ => rfl

/-- The type of an inode that is allocated stays, unless somebody is about to free it. -/
theorem Ok.type_step (h : l.Ok) (hs : l.Step l') (hpos : 0 < l.x.ref) (hk : l.Kept) (h0 : l.d.type ≠ 0) :
    l'.d.type = l.d.type := by
  cases hs with
  | other d href | recycle _ _ href => exact absurd hpos (by rw [href]; exact lt_irrefl 0)
  | alloc d ht => exact absurd ht h0
  | update p hr hl => exact (h.content_of_role hr hl).2.2.1
  | truncated p hr => exact absurd hr (hk p).1
  | freed p hr => exact absurd hr (hk p).2
  | _ => rfl

/-- Nobody starts to free an inode to which there is another reference. -/
theorem Ok.kept_step (h : l.Ok) (hs : l.Step l') (hk : l.Kept)
    (hother : 0 < l'.held ∨ ∃ p, (l.role p).pending = true) : l'.Kept := by
  have hgoto : ∀ (p : P) {r : Role}, r ≠ .truncating → r ≠ .clearing → (l.goto p r).Kept :=
    fun p r h₁ h2 q => by
      by_cases hq : q = p
      · rw [hq, goto_role_self]
        exact ⟨h₁, h2⟩
      · rw [goto_role_ne hq]
        exact hk q
  cases hs with
  | free p hr hh hu hone hv =>
    obtain ⟨h1, hq⟩ := h.last hone hh
    rcases hother with hpos | ⟨p, hp⟩
    · have hpos : 0 < l.held - 1 := hpos
      omega
    · rw [hq p] at hp
      cases hp
  | trunc p hr | truncated p hr => exact absurd hr (hk p).1
  | clear p hr => exact absurd hr (hk p).2
  | enter p | acquire p | hit p | load p | ready p | freed p | invalidate p | release p | drop p =>
    exact hgoto p (by decide) (by decide)
  | _ => exact hk

/-- Nobody changes the copy that a process in `ilock` has just read. -/
theorem Control.copy_step (h : l.Control) (hs : l.Step l') (hr : l.role p = .loaded)
    (hr' : l'.role p = .loaded) : l'.x.toDinode = l.x.toDinode := by
  have hl : l.lock = some p := h.locks p (by rw [hr]; rfl)
  have hpos := h.ref_pos hl
  -- whoever has a role with the lock is the process itself, which has another role
  have hself : ∀ {q r}, l.role q = r → r.locks = true → r = .loaded := fun {q r} hq hlocks => by
    obtain rfl : p = q := some_inj.mp (hl.symm.trans (h.locks q (by rw [hq, hlocks])))
    exact hq.symm.trans hr
  cases hs with
  | recycle x d h0 h1 hv => exact absurd hpos (by rw [h0]; exact lt_irrefl 0)
  | load q hq hv | trunc _ hq | clear _ hq => exact absurd (hself hq rfl) (by decide)
  | write q n hq hlq =>
    obtain rfl : p = q := some_inj.mp (hl.symm.trans hlq)
    exact absurd (hr.symm.trans hq) (by decide)
  | _ => rfl

end Loc

end Xv6.Itable
