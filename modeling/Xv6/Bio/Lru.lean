/-
# Xv6.Bio.Lru — the list of buffers (`kernel/bio.c`).

`Xv6.Bio` leaves open which unused buffer `bget` recycles.  This module has the list by which that is
decided.  Each function below is one critical section of `bcache.lock`, so a run interleaves the calls
of any number of processes.

The state has, besides the buffers and their links, what the calls did so far: how many `bget`s and
`bpin`s of a buffer are outstanding, and when a `brelse` last took its count to zero.
-/
import Xv6.Lib.Dll
import Xv6.Lib.Trace
import Xv6.Param

namespace Xv6.Bio

open Lib Function List

/-! ## The code -/

/-- `struct buf`, less its lock, its data and the links. -/
structure Buf where
  dev : BitVec 32
  blockno : BitVec 32
  valid : Bool
  refcnt : Nat

/-- The buffers, their links, and what the calls did so far. -/
structure Bcache where
  buf : Fin NBUF → Buf
  links : Dll (Fin NBUF)
  /-- Outstanding `bget`s. -/
  gets : Fin NBUF → Nat
  /-- Outstanding `bpin`s. -/
  pins : Fin NBUF → Nat
  /-- How often a `brelse` took a count to zero. -/
  clock : Nat
  /-- When a `brelse` last took the count of this buffer to zero, 0 if none did. -/
  stamp : Fin NBUF → Nat

/-- `binit`: all buffers are linked behind the head, one after the other. -/
def binit : Bcache where
  buf _ := ⟨0, 0, false, 0⟩
  links := (List.finRange NBUF).foldl (fun d b => d.pushFront b) .empty
  gets _ := 0
  pins _ := 0
  clock := 0
  stamp _ := 0

/-- The first loop of `bget`. -/
def lookup (dev blockno : BitVec 32) (c : Bcache) : Option (Option (Fin NBUF)) :=
  Dll.find c.links.next (fun b => (c.buf b).dev == dev && (c.buf b).blockno == blockno) (NBUF + 1)
    (c.links.next none)

/-- The second loop of `bget`. -/
def victim (c : Bcache) : Option (Option (Fin NBUF)) :=
  Dll.find c.links.prev (fun b => (c.buf b).refcnt == 0) (NBUF + 1) (c.links.prev none)

/-- Write a buffer. -/
def Bcache.setBuf (c : Bcache) (b : Fin NBUF) (x : Buf) : Bcache :=
  { c with buf := update c.buf b x }

/-- `b->refcnt++` for a `bget`. -/
def Bcache.hit (c : Bcache) (b : Fin NBUF) : Bcache :=
  { c.setBuf b { c.buf b with refcnt := (c.buf b).refcnt + 1 } with
    gets := update c.gets b (c.gets b + 1) }

/-- The recycled buffer gets the block. -/
def Bcache.recycle (c : Bcache) (b : Fin NBUF) (dev blockno : BitVec 32) : Bcache :=
  { c.setBuf b ⟨dev, blockno, false, 1⟩ with gets := update c.gets b (c.gets b + 1) }

/-- `bget`, up to its `acquiresleep`. -/
def bget (dev blockno : BitVec 32) (c : Bcache) : Except String Bcache :=
  match lookup dev blockno c with
  | none => .error "does not return"
  | some (some b) => .ok (c.hit b)
  | some none =>
    match victim c with
    | none => .error "does not return"
    | some none => .error "bget: no buffers"
    | some (some b) => .ok (c.recycle b dev blockno)

/-- `brelse`, after its `releasesleep`. -/
def brelse (b : Fin NBUF) (c : Bcache) : Bcache :=
  let x := { c.buf b with refcnt := (c.buf b).refcnt - 1 }
  let c := { c.setBuf b x with gets := update c.gets b (c.gets b - 1) }
  if x.refcnt = 0 then
    { c with links := (c.links.unlink b).pushFront b, clock := c.clock + 1,
             stamp := update c.stamp b (c.clock + 1) }
  else
    c

def bpin (b : Fin NBUF) (c : Bcache) : Bcache :=
  { c.setBuf b { c.buf b with refcnt := (c.buf b).refcnt + 1 } with
    pins := update c.pins b (c.pins b + 1) }

def bunpin (b : Fin NBUF) (c : Bcache) : Bcache :=
  { c.setBuf b { c.buf b with refcnt := (c.buf b).refcnt - 1 } with
    pins := update c.pins b (c.pins b - 1) }

/-- A critical section of some process. -/
inductive Op where
  | bget (dev blockno : BitVec 32)
  | brelse (b : Fin NBUF)
  | bpin (b : Fin NBUF)
  | bunpin (b : Fin NBUF)

/-- One critical section.  A `brelse` or `bunpin` that matches no earlier call is refused. -/
def step (c : Bcache) : Op → Except String Bcache
  | .bget dev blockno => bget dev blockno c
  | .brelse b => if c.gets b = 0 then .error "not held" else .ok (brelse b c)
  | .bpin b => .ok (bpin b c)
  | .bunpin b => if c.pins b = 0 then .error "not pinned" else .ok (bunpin b c)

/-! ## The invariant -/

/-- The last `brelse` of `b` to zero is older than that of `b'`, or there was none. -/
def Bcache.Older (c : Bcache) (b b' : Fin NBUF) : Prop := c.stamp b = 0 ∨ c.stamp b < c.stamp b'

/-- **The structure of the cache**, with the list that the links spell. -/
structure Inv (c : Bcache) (l : List (Fin NBUF)) : Prop where
  spells : c.links.Spells l
  nodup : l.Nodup
  all : ∀ b, b ∈ l
  key : ∀ b b', (c.buf b).dev ≠ 0 → (c.buf b).dev = (c.buf b').dev →
    (c.buf b).blockno = (c.buf b').blockno → b = b'
  count : ∀ b, (c.buf b).refcnt = c.gets b + c.pins b
  clock : ∀ b, c.stamp b ≤ c.clock
  order : l.Pairwise fun b b' => c.Older b' b

theorem binit_inv : Inv binit (finRange NBUF).reverse where
  spells := by
    have hnd : ((finRange NBUF).reverse ++ []).Nodup := by
      simpa using nodup_finRange NBUF
    have h := Dll.spells_empty.pushAll hnd
    rwa [append_nil] at h
  nodup := nodup_reverse.mpr (nodup_finRange NBUF)
  all b := by simp
  key b b' h := absurd rfl h
  count _ := rfl
  clock _ := Nat.le_refl 0
  order := pairwise_of_forall fun _ _ => .inl rfl

section

variable {c c' : Bcache} {l : List (Fin NBUF)} {b : Fin NBUF} {dev blockno : BitVec 32}

namespace Inv

section

variable (h : Inv c l)

include h

theorem length_eq : l.length = NBUF := by
  have hperm : l.Perm (finRange NBUF) :=
    (perm_ext_iff_of_nodup h.nodup (nodup_finRange NBUF)).mpr fun b => by simp [h.all b]
  rw [hperm.length_eq, length_finRange]

theorem lookup_eq : lookup dev blockno c =
    some (l.find? fun b => (c.buf b).dev == dev && (c.buf b).blockno == blockno) := by
  have hfind := h.spells.find_next fun b => (c.buf b).dev == dev && (c.buf b).blockno == blockno
  rwa [h.length_eq] at hfind

theorem victim_eq : victim c = some (l.reverse.find? fun b => (c.buf b).refcnt == 0) := by
  have hfind := h.spells.find_prev fun b => (c.buf b).refcnt == 0
  rwa [h.length_eq] at hfind

/-- Only the counts of one buffer change. -/
theorem recount (b : Fin NBUF) (hr : r = g + p) :
    Inv { c.setBuf b { c.buf b with refcnt := r } with
      gets := update c.gets b g, pins := update c.pins b p } l := by
  have hsame : ∀ x, (update c.buf b { c.buf b with refcnt := r } x).dev = (c.buf x).dev ∧
      (update c.buf b { c.buf b with refcnt := r } x).blockno = (c.buf x).blockno := fun x => by
    by_cases hx : x = b
    · subst hx
      rw [update_self]
      exact ⟨rfl, rfl⟩
    · rw [update_of_ne hx]
      exact ⟨rfl, rfl⟩
  refine ⟨h.spells, h.nodup, h.all, fun x y h0 h1 h2 => ?_, fun x => ?_, h.clock, h.order⟩
  · simp only [Bcache.setBuf, (hsame x).1, (hsame y).1, (hsame x).2, (hsame y).2] at h0 h1 h2
    exact h.key x y h0 h1 h2
  · by_cases hx : x = b
    · subst hx
      simp only [Bcache.setBuf, update_self, hr]
    · simp only [Bcache.setBuf, update_of_ne hx, h.count x]

theorem hit (b : Fin NBUF) : Inv (c.hit b) l := by
  have hc := h.count b
  have := h.recount b (r := (c.buf b).refcnt + 1) (g := c.gets b + 1) (p := c.pins b) (by omega)
  rwa [update_eq_self] at this

theorem bpin (b : Fin NBUF) : Inv (bpin b c) l := by
  have hc := h.count b
  have := h.recount b (r := (c.buf b).refcnt + 1) (g := c.gets b) (p := c.pins b + 1) (by omega)
  rwa [update_eq_self] at this

theorem bunpin (hp : c.pins b ≠ 0) : Inv (bunpin b c) l := by
  have hc := h.count b
  have := h.recount b (r := (c.buf b).refcnt - 1) (g := c.gets b) (p := c.pins b - 1) (by omega)
  rwa [update_eq_self] at this

/-- The released buffer becomes the most recently used one if no reference is left. -/
theorem brelse (hg : c.gets b ≠ 0) : ∃ l', Inv (brelse b c) l' := by
  have hc := h.count b
  have hdrop := h.recount b (r := (c.buf b).refcnt - 1) (g := c.gets b - 1) (p := c.pins b) (by omega)
  rw [update_eq_self] at hdrop
  rw [Bio.brelse]
  split
  · obtain ⟨l1, l2, rfl⟩ := append_of_mem (h.all b)
    have hsub : (l1 ++ l2).Sublist (l1 ++ b :: l2) := (sublist_cons_self b l2).append_left l1
    have hnd := h.nodup.sublist hsub
    have hb : b ∉ l1 ++ l2 := (nodup_cons.mp (nodup_middle.mp h.nodup)).1
    have hne : ∀ x ∈ l1 ++ l2, x ≠ b := fun x hx he => hb (he ▸ hx)
    refine ⟨b :: (l1 ++ l2), (h.spells.unlink h.nodup).pushFront hnd hb, nodup_cons.mpr ⟨hb, hnd⟩,
      fun x => ?_, hdrop.key, hdrop.count, fun x => ?_, pairwise_cons.mpr ⟨fun x hx => ?_, ?_⟩⟩
    · have := h.all x
      simp only [mem_append, mem_cons] at this ⊢
      tauto
    · have := h.clock x
      by_cases hx : x = b
      · subst hx
        simp
      · simp only [Bcache.setBuf, update_of_ne hx]
        omega
    · have := h.clock x
      simp only [Bcache.Older, Bcache.setBuf, update_self, update_of_ne (hne x hx)]
      omega
    · refine (h.order.sublist hsub).imp_of_mem fun {x y} hx hy hold => ?_
      simp only [Bcache.Older, Bcache.setBuf, update_of_ne (hne x hx),
        update_of_ne (hne y hy)]
      exact hold
  · exact ⟨l, hdrop⟩

/-- A block that is in no buffer goes into an unused one. -/
theorem recycle (hfree : (c.buf b).refcnt = 0)
    (hnew : ∀ x, (c.buf x).dev = dev → (c.buf x).blockno ≠ blockno) :
    Inv (c.recycle b dev blockno) l := by
  have hc := h.count b
  refine ⟨h.spells, h.nodup, h.all, fun x y h0 h1 h2 => ?_, fun x => ?_, h.clock, h.order⟩
  · simp only [Bcache.recycle, Bcache.setBuf] at h0 h1 h2
    by_cases hx : x = b <;> by_cases hy : y = b
    · rw [hx, hy]
    · subst hx
      rw [update_self, update_of_ne hy] at h1 h2
      exact absurd h2.symm (hnew y h1.symm)
    · subst hy
      rw [update_self, update_of_ne hx] at h1 h2
      exact absurd h2 (hnew x h1)
    · rw [update_of_ne hx] at h0
      rw [update_of_ne hx, update_of_ne hy] at h1 h2
      exact h.key x y h0 h1 h2
  · by_cases hx : x = b
    · subst hx
      simp only [Bcache.recycle, Bcache.setBuf, update_self]
      omega
    · simp only [Bcache.recycle, Bcache.setBuf, update_of_ne hx, h.count x]

/-- What the second loop of `bget` finds. -/
theorem victim_spec (hv : victim c = some (some b)) :
    (c.buf b).refcnt = 0 ∧ ∀ b', (c.buf b').refcnt = 0 → b' ≠ b → c.Older b b' := by
  rw [h.victim_eq, Option.some_inj] at hv
  obtain ⟨hfree, l1, l2, hl, hused⟩ := find?_eq_some_iff_append.mp hv
  refine ⟨by simpa using hfree, fun b' hb' hne => ?_⟩
  -- behind `b` in the list, from the end, are the more recently released ones
  have hin : b' ∈ l.reverse := mem_reverse.mpr (h.all b')
  rw [hl] at hin
  rcases mem_append.mp hin with h1 | h2
  · have := hused b' h1
    simp [hb'] at this
  · have horder : l.reverse.Pairwise fun x y => c.Older x y := pairwise_reverse.mpr h.order
    rw [hl] at horder
    have hcons := pairwise_cons.mp (pairwise_append.mp horder).2.1
    exact hcons.1 b' ((mem_cons.mp h2).resolve_left hne)

/-- The block that the first loop of `bget` does not find is in no buffer. -/
theorem lookup_none (hl : lookup dev blockno c = some none) (x : Fin NBUF)
    (hdev : (c.buf x).dev = dev) : (c.buf x).blockno ≠ blockno := by
  rw [h.lookup_eq, Option.some_inj, find?_eq_none] at hl
  intro hblk
  exact hl x (h.all x) (by simp [hdev, hblk])

/-- What `bget` does. -/
theorem bget_cases (dev blockno : BitVec 32) :
    (∃ b, lookup dev blockno c = some (some b) ∧ bget dev blockno c = .ok (c.hit b)) ∨
    (lookup dev blockno c = some none ∧
      ((∃ b, bget dev blockno c = .ok (c.recycle b dev blockno) ∧ c.gets b = 0 ∧ c.pins b = 0 ∧
        ∀ b', (c.buf b').refcnt = 0 → b' ≠ b → c.Older b b') ∨
      (bget dev blockno c = .error "bget: no buffers" ∧ ∀ b, (c.buf b).refcnt ≠ 0))) := by
  have hlook : lookup dev blockno c = some _ := h.lookup_eq
  have hvict := h.victim_eq
  rw [bget, hlook]
  cases l.find? _ with
  | some b => exact .inl ⟨b, rfl, rfl⟩
  | none =>
    refine .inr ⟨rfl, ?_⟩
    cases hfind : l.reverse.find? fun b => (c.buf b).refcnt == 0 with
    | some b =>
      rw [hfind] at hvict
      obtain ⟨hfree, hold⟩ := h.victim_spec hvict
      have hc := h.count b
      simp only [hvict]
      exact .inl ⟨b, rfl, by omega, by omega, hold⟩
    | none =>
      rw [hfind] at hvict
      simp only [hvict]
      refine .inr ⟨trivial, fun b hb => ?_⟩
      exact find?_eq_none.mp hfind b (mem_reverse.mpr (h.all b)) (by simp [hb])

/-- **One critical section** keeps the structure. -/
theorem step (hs : step c op = .ok c') : ∃ l', Inv c' l' := by
  cases op with
  | bget dev blockno =>
    simp only [Bio.step, bget] at hs
    split at hs
    · cases hs
    · cases hs
      exact ⟨l, h.hit _⟩
    · rename_i hl
      split at hs
      · cases hs
      · cases hs
      · rename_i b hv
        cases hs
        exact ⟨l, h.recycle (h.victim_spec hv).1 (h.lookup_none hl)⟩
  | brelse b =>
    simp only [Bio.step] at hs
    split at hs
    · cases hs
    · rename_i hg
      cases hs
      exact h.brelse hg
  | bpin b =>
    cases hs
    exact ⟨l, h.bpin b⟩
  | bunpin b =>
    simp only [Bio.step] at hs
    split at hs
    · cases hs
    · rename_i hp
      cases hs
      exact ⟨l, h.bunpin hp⟩

end

end Inv

/-- Every run keeps the structure. -/
theorem run_inv (h : run step binit ops = .ok c) : ∃ l, Inv c l :=
  run_invariant (I := fun c => ∃ l, Inv c l) (fun _ _ _ ⟨_, hi⟩ hs => hi.step hs) h ⟨_, binit_inv⟩

/-- Two blocks are read, one of them is pinned and released, and read again. -/
def pinned : List Op :=
  [.bget 1 5, .bget 1 6, .bpin ⟨0, by decide⟩, .brelse ⟨0, by decide⟩, .bget 1 5]

end

end Xv6.Bio
