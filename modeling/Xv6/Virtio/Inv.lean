/-
# Xv6.Virtio.Inv — what holds between the driver and the device.

A request is live from the moment its descriptors are queued until its call returns.  Four groups of facts
are kept by every step: each descriptor in use belongs to one live request and says what that request asks
for (`Descs`); the rings hold the head indices that were queued and not taken, or completed and not yet
seen, and each number is taken once and completed once (`Queues`); the flag of a buffer is cleared by the
completion of its own request (`Flags`); and live requests are those that some process waits for (`Calls`).
-/
import Xv6.Lib.Owns
import Xv6.Virtio.Driver
import Mathlib.Data.Fintype.Card

namespace Xv6.Virtio

open Lib Function List Option

variable {P B : Type} {s s' : Sys P B} {r r' : Request B}

/-- The request is queued and its call has not returned. -/
def Sys.Live (s : Sys P B) (r : Request B) : Prop :=
  s.submitted[r.num]? = some r ∧ r.num ∉ s.returned

/-- The descriptor that a live request has in one of its three places. -/
def Sys.slot (s : Sys P B) (k : Nat × Fin 3) : Option (Fin NUM) :=
  if k.1 ∈ s.returned then none else s.submitted[k.1]?.map fun r => r.idx k.2

/-- Completions that the handler has not seen. -/
def Sys.pending (s : Sys P B) : List Token := s.completed.drop s.cleared.length

/-- Completions that the handler has seen. -/
def Sys.processed (s : Sys P B) : List Token := s.completed.take s.cleared.length

/-- Descriptors and the tables beside them. -/
structure Descs (s : Sys P B) : Prop where
  own : Owns (fun _ => True) (fun i => s.free i = false) s.slot
  desc : ∀ r, s.Live r → ∀ j, s.desc (r.idx j) = r.desc j
  op : ∀ r, s.Live r → s.ops (r.idx 0) = r.op
  buf : ∀ r, s.Live r → (s.info (r.idx 0)).b = some r.buf

/-- The two rings and the requests between them. -/
structure Queues (s : Sys P B) : Prop where
  num : ∀ (k : Nat) r, s.submitted[k]? = some r → r.num = k
  avail : RingHolds s.avail.ring s.seen s.avail.idx
    ((s.submitted.drop s.takes).map fun r => (r.idx 0).val)
  takes_le : s.takes ≤ s.submitted.length
  token : ∀ t ∈ s.taken ++ s.completed, ∃ r, s.submitted[t.num]? = some r ∧ (r.idx 0).val = t.head
  perm : ((s.taken ++ s.completed).map Token.num).Perm (List.range s.takes)
  used : RingHolds s.used.ring s.usedIdx s.used.idx (s.pending.map Token.head)
  cleared_le : s.cleared.length ≤ s.completed.length

/-- Flags and statuses. -/
structure Flags (s : Sys P B) : Prop where
  status : ∀ t ∈ s.pending, ∀ r, s.submitted[t.num]? = some r → (s.info (r.idx 0)).status = 0
  flag : ∀ r, s.Live r → (s.disk r.buf = false ↔ r.num ∈ s.processed.map Token.num)
  returned : ∀ k ∈ s.returned, k ∈ s.processed.map Token.num
  cleared : s.cleared.map some =
    s.processed.map fun t => s.submitted[t.num]?.map fun r => (r.buf, true)

/-- The calls of `virtio_disk_rw`. -/
structure Calls (s : Sys P B) : Prop where
  busy : ∀ p b, (s.pc p).buf = some b → s.busy b = true
  alone : ∀ p q b, (s.pc p).buf = some b → (s.pc q).buf = some b → p = q
  live : ∀ p r, (s.pc p).request = some r → s.Live r
  waits : ∀ r, s.Live r → ∃ p, (s.pc p).request = some r

structure Inv (s : Sys P B) : Prop where
  descs : Descs s
  queues : Queues s
  flags : Flags s
  calls : Calls s

/-! ## Small facts -/

theorem Pc.buf_wakeFree (pc : Pc B) : pc.wakeFree.buf = pc.buf := by cases pc <;> rfl

theorem Pc.request_wakeFree (pc : Pc B) : pc.wakeFree.request = pc.request := by cases pc <;> rfl

theorem Pc.buf_wakeBuf [DecidableEq B] (b : B) (pc : Pc B) : (pc.wakeBuf b).buf = pc.buf := by
  cases pc with
  | sleepBuf r =>
    rw [Pc.wakeBuf]
    split <;> rfl
  | _ => rfl

theorem Pc.request_wakeBuf [DecidableEq B] (b : B) (pc : Pc B) :
    (pc.wakeBuf b).request = pc.request := by
  cases pc with
  | sleepBuf r =>
    rw [Pc.wakeBuf]
    split <;> rfl
  | _ => rfl

theorem Pc.buf_of_request {pc : Pc B} (h : pc.request = some r) : pc.buf = some r.buf := by
  cases pc with
  | check r' | sleepBuf r' =>
    cases h
    rfl
  | _ => cases h

theorem Sys.Live.slot (h : s.Live r) (j : Fin 3) : s.slot (r.num, j) = some (r.idx j) := by
  rw [Sys.slot, if_neg h.2, h.1]
  rfl

theorem Queues.live_of_slot (h : Queues s) (hk : s.slot k = some i) :
    ∃ r, s.Live r ∧ r.num = k.1 ∧ r.idx k.2 = i := by
  rw [Sys.slot] at hk
  split at hk
  · cases hk
  · rename_i hret
    obtain ⟨r, hr, hi⟩ := map_eq_some_iff.mp hk
    have hnum := h.num _ r hr
    rw [← hnum] at hr hret
    exact ⟨r, ⟨hr, hret⟩, hnum, hi⟩

/-- Nothing changes but who sleeps. -/
theorem Calls.congr (h : Calls s)
    (hpc : ∀ p, (s'.pc p).buf = (s.pc p).buf ∧ (s'.pc p).request = (s.pc p).request)
    (hbusy : s'.busy = s.busy) (hlive : ∀ r, s'.Live r ↔ s.Live r) : Calls s' where
  busy p b hb := hbusy ▸ h.busy p b ((hpc p).1 ▸ hb)
  alone p q b hp hq := h.alone p q b ((hpc p).1 ▸ hp) ((hpc q).1 ▸ hq)
  live p r hr := (hlive r).mpr (h.live p r ((hpc p).2 ▸ hr))
  waits r hr := (h.waits r ((hlive r).mp hr)).imp fun p hp => (hpc p).2.trans hp

namespace Queues

theorem nodup (h : Queues s) : ((s.taken ++ s.completed).map Token.num).Nodup :=
  h.perm.nodup_iff.mpr nodup_range

theorem num_lt (h : Queues s) (ht : t ∈ s.taken ++ s.completed) : t.num < s.takes :=
  mem_range.mp (h.perm.subset (mem_map_of_mem ht))

theorem processed_append_pending (s : Sys P B) : s.processed ++ s.pending = s.completed :=
  take_append_drop _ _

/-- A number that was seen by the handler is not pending and not with the device. -/
theorem not_processed (h : Queues s) (ht : t ∈ s.taken ∨ t ∈ s.pending) :
    t.num ∉ s.processed.map Token.num := by
  have hnd := h.nodup
  rw [← processed_append_pending s, map_append, map_append] at hnd
  intro hp
  rcases ht with ht | ht
  · exact (nodup_append.mp hnd).2.2 _ (mem_map_of_mem ht) _
      (mem_append_left _ hp) rfl
  · exact (nodup_append.mp (nodup_append.mp hnd).2.1).2.2 _ hp _ (mem_map_of_mem ht) rfl

theorem processed_lt (h : Queues s) (hk : k ∈ s.processed.map Token.num) : k < s.takes := by
  obtain ⟨t, ht, rfl⟩ := mem_map.mp hk
  exact h.num_lt (mem_append_right _ (mem_of_mem_take ht))

end Queues

namespace Inv

/-- A returned request was taken. -/
theorem returned_lt (h : Inv s) (hk : k ∈ s.returned) : k < s.takes :=
  h.queues.processed_lt (h.flags.returned k hk)

/-- What is with the device, or completed and not yet seen, is live. -/
theorem live_of_token (h : Inv s) (ht : t ∈ s.taken ∨ t ∈ s.pending) :
    ∃ r, s.Live r ∧ r.num = t.num ∧ (r.idx 0).val = t.head := by
  have hmem : t ∈ s.taken ++ s.completed :=
    mem_append.mpr (ht.imp id fun hp => mem_of_mem_drop hp)
  obtain ⟨r, hr, hhead⟩ := h.queues.token t hmem
  have hnum := h.queues.num _ r hr
  refine ⟨r, ⟨hnum ▸ hr, fun hret => ?_⟩, hnum, hhead⟩
  rw [hnum] at hret
  exact h.queues.not_processed ht (h.flags.returned _ hret)

theorem live_inj (hr : s.Live r) (hr' : s.Live r') (hnum : r.num = r'.num) : r = r' := by
  have hs := hr.1
  rw [hnum, hr'.1] at hs
  exact (some_inj.mp hs).symm

/-- Two live requests are not for the same buffer. -/
theorem buf_inj (h : Inv s) (hr : s.Live r) (hr' : s.Live r') (hbuf : r.buf = r'.buf) : r = r' := by
  obtain ⟨p, hp⟩ := h.calls.waits r hr
  obtain ⟨q, hq⟩ := h.calls.waits r' hr'
  have hpq := h.calls.alone p q r.buf (Pc.buf_of_request hp) (hbuf ▸ Pc.buf_of_request hq)
  rw [hpq, hq] at hp
  exact (some_inj.mp hp).symm

/-- A descriptor is in one place of one live request. -/
theorem idx_inj (h : Inv s) (hr : s.Live r) (hr' : s.Live r')
    (he : r.idx j = r'.idx j') : r.num = r'.num ∧ j = j' := by
  have hs' : s.slot (r'.num, j') = some (r.idx j) := he ▸ hr'.slot j'
  exact Prod.mk.inj (h.descs.own.inj (hr.slot j) hs')

theorem not_free (h : Inv s) (hr : s.Live r) (j : Fin 3) : s.free (r.idx j) = false :=
  h.descs.own.used_of_own (hr.slot j)

/-- Only the processes, their locks and the handler change. -/
theorem setCalls (h : Inv s) {pc : P → Pc B} {busy : B → Bool}
    (hc : Calls { s with pc := pc, busy := busy, intr := intr }) :
    Inv { s with pc := pc, busy := busy, intr := intr } where
  descs := ⟨h.descs.own, h.descs.desc, h.descs.op, h.descs.buf⟩
  queues := ⟨h.queues.num, h.queues.avail, h.queues.takes_le, h.queues.token, h.queues.perm,
    h.queues.used, h.queues.cleared_le⟩
  flags := ⟨h.flags.status, h.flags.flag, h.flags.returned, h.flags.cleared⟩
  calls := hc

theorem setIntr (h : Inv s) (intr : Bool) : Inv { s with intr := intr } :=
  h.setCalls ⟨h.calls.busy, h.calls.alone, h.calls.live, h.calls.waits⟩

/-- There are at most `NUM` live requests, and fewer while a descriptor is free. -/
theorem live_length (h : Inv s) {l : List Nat} (hl : ∀ k ∈ l, ∃ r, s.Live r ∧ r.num = k)
    (hnd : l.Nodup) : l.length ≤ NUM ∧ ((∃ i, s.free i = true) → l.length < NUM) := by
  let f : Nat → Fin NUM := fun k => (s.slot (k, 0)).getD 0
  have hf : ∀ k ∈ l, s.slot (k, 0) = some (f k) := by
    intro k hk
    obtain ⟨r, hr, rfl⟩ := hl k hk
    simp only [f, hr.slot 0, getD_some]
  have hmap : (l.map f).Nodup := by
    refine List.Nodup.map_on (fun k hk k' hk' he => ?_) hnd
    exact congrArg Prod.fst (h.descs.own.inj (hf k hk) (he ▸ hf k' hk'))
  have hcard : ∀ l' : List (Fin NUM), l'.Nodup → l'.length ≤ NUM := fun l' hl' => by
    have := hl'.length_le_card
    rwa [Fintype.card_fin] at this
  constructor
  · have := hcard _ hmap
    rwa [length_map] at this
  · rintro ⟨i, hi⟩
    have hcons : (i :: l.map f).Nodup := by
      refine nodup_cons.mpr ⟨fun hmem => ?_, hmap⟩
      obtain ⟨k, hk, rfl⟩ := mem_map.mp hmem
      have := h.descs.own.used_of_own (hf k hk)
      rw [hi] at this
      cases this
    have := hcard _ hcons
    rwa [length_cons, length_map] at this

/-! ## The device -/

theorem take (h : Inv s) (ht : s.take = .ok s') : Inv s' := by
  rw [Sys.take] at ht
  split at ht
  · rename_i hne
    cases ht
    have havail := h.queues.avail
    -- there is something to take, so the requests that wait in the ring are not none
    have hlt : s.takes < s.submitted.length := by
      by_contra hge
      rw [drop_eq_nil_of_le (not_lt.mp hge)] at havail
      exact hne ((havail.eq_iff (by decide)).mpr rfl)
    rw [drop_eq_getElem_cons hlt, map_cons] at havail
    obtain ⟨hhead, htail⟩ := havail.pop
    refine ⟨⟨h.descs.own, h.descs.desc, h.descs.op, h.descs.buf⟩, ?_,
      ⟨h.flags.status, h.flags.flag, h.flags.returned, h.flags.cleared⟩,
      ⟨h.calls.busy, h.calls.alone, h.calls.live, h.calls.waits⟩⟩
    refine ⟨h.queues.num, htail, hlt, fun t ht => ?_, ?_, h.queues.used, h.queues.cleared_le⟩
    · rw [append_assoc, mem_append, mem_append, mem_singleton] at ht
      rcases ht with ht | rfl | ht
      · exact h.queues.token t (mem_append_left _ ht)
      · exact ⟨s.submitted[s.takes], getElem?_eq_getElem hlt, hhead.symm⟩
      · exact h.queues.token t (mem_append_right _ ht)
    · show ((s.taken ++ [Token.mk _ s.takes] ++ s.completed).map Token.num).Perm
        (range (s.takes + 1))
      rw [range_succ, append_assoc, singleton_append]
      refine (perm_middle.map Token.num).trans ?_
      exact (h.queues.perm.cons s.takes).trans (perm_append_singleton _ _).symm
  · cases ht

/-- The chain at a head index that the device took leads to the status of that request. -/
theorem statusAddr (h : Inv s) (hr : s.Live r) (hn : (r.idx 0).val = n) :
    s.statusAddr n = some (.status (r.idx 0)) := by
  subst hn
  have hat : ∀ j, s.descAt (r.idx j) = some (r.desc j) := fun j => by
    rw [Sys.descAt, dif_pos (r.idx j).isLt]
    exact congrArg some (h.descs.desc r hr j)
  rw [Sys.statusAddr, hat 0]
  show (s.descAt (r.idx 1) >>= fun d1 => s.descAt d1.next >>= fun d2 => some d2.addr) = _
  rw [hat 1]
  show (s.descAt (r.idx 2) >>= fun d2 => some d2.addr) = _
  rw [hat 2]
  rfl

/-- What is pending and a token that the device completes now fit into the used ring. -/
theorem pending_length (h : Inv s) {t : Token} (ht : t ∈ s.taken) : s.pending.length < NUM := by
  have hnd : ((s.pending ++ [t]).map Token.num).Nodup := by
    have hsub : (t :: s.pending).Sublist (t :: s.completed) := (drop_sublist _ _).cons_cons t
    have hall := h.queues.nodup
    rw [map_append, nodup_append] at hall
    have hcons : ((t :: s.completed).map Token.num).Nodup := by
      refine nodup_cons.mpr ⟨fun hmem => ?_, hall.2.1⟩
      exact hall.2.2 _ (mem_map_of_mem ht) _ hmem rfl
    exact ((perm_append_singleton t s.pending).map Token.num).nodup_iff.mpr
      ((hsub.map Token.num).nodup hcons)
  have hlen := (h.live_length (fun k hk => ?_) hnd).1
  · rw [length_map, length_append, length_singleton] at hlen
    exact hlen
  · obtain ⟨u, hu, rfl⟩ := mem_map.mp hk
    rw [mem_append, mem_singleton] at hu
    have hmem : u ∈ s.taken ∨ u ∈ s.pending := by
      rcases hu with hu | rfl
      · exact .inr hu
      · exact .inl ht
    obtain ⟨r, hr, hnum, -⟩ := h.live_of_token hmem
    exact ⟨r, hr, hnum⟩

theorem complete (h : Inv s) (hc : s.complete i = .ok s') : Inv s' := by
  rw [Sys.complete] at hc
  split at hc
  · cases hc
  · rename_i t hi
    have ht : t ∈ s.taken := mem_of_getElem? hi
    obtain ⟨r, hr, hnum, hhead⟩ := h.live_of_token (.inl ht)
    rw [h.statusAddr hr hhead] at hc
    cases hc
    have hpend : (s.completed ++ [t]).drop s.cleared.length = s.pending ++ [t] :=
      drop_append_of_le_length h.queues.cleared_le
    have hproc : (s.completed ++ [t]).take s.cleared.length = s.processed :=
      take_append_of_le_length h.queues.cleared_le
    have hperm : (s.taken.eraseIdx i ++ (s.completed ++ [t])).Perm (s.taken ++ s.completed) := by
      obtain ⟨hlt, rfl⟩ := List.getElem?_eq_some_iff.mp hi
      have hmove : (s.taken[i] :: (s.taken.eraseIdx i ++ s.completed)).Perm (s.taken ++ s.completed) :=
        (getElem_cons_eraseIdx_perm hlt).append_right s.completed
      rw [← append_assoc]
      exact (perm_append_singleton _ _).trans hmove
    refine ⟨⟨h.descs.own, h.descs.desc, h.descs.op, fun r' hr' => ?_⟩, ?_, ?_,
      ⟨h.calls.busy, h.calls.alone, h.calls.live, h.calls.waits⟩⟩
    · show (update s.info (r.idx 0) _ (r'.idx 0)).b = some r'.buf
      rw [← h.descs.buf r' hr']
      by_cases he : r'.idx 0 = r.idx 0
      · rw [he, update_self]
      · rw [update_of_ne he]
    · refine ⟨h.queues.num, h.queues.avail, h.queues.takes_le,
        fun u hu => h.queues.token u (hperm.subset hu), (hperm.map _).trans h.queues.perm, ?_, ?_⟩
      · have hpush := h.queues.used.push (x := t.head) ⟨2 ^ 13, by decide⟩
          (by rw [length_map]; exact h.pending_length ht)
        show RingHolds _ _ _ (map Token.head ((s.completed ++ [t]).drop s.cleared.length))
        rw [hpend, map_append]
        exact hpush
      · show s.cleared.length ≤ (s.completed ++ [t]).length
        rw [length_append]
        exact Nat.le_add_right_of_le h.queues.cleared_le
    · refine ⟨fun u hu r' hr' => ?_, ?_, ?_, ?_⟩
      · show (update s.info (r.idx 0) _ (r'.idx 0)).status = 0
        by_cases he : r'.idx 0 = r.idx 0
        · rw [he, update_self]
        · rw [update_of_ne he]
          have hu' : u ∈ s.pending ++ [t] := hpend ▸ hu
          rw [mem_append, mem_singleton] at hu'
          rcases hu' with hu' | rfl
          · exact h.flags.status u hu' r' hr'
          · rw [← hnum, hr.1] at hr'
            exact absurd (congrArg (fun r => r.idx 0) (some_inj.mp hr').symm) he
      · intro r' hr'
        show s.disk r'.buf = false ↔ r'.num ∈ ((s.completed ++ [t]).take s.cleared.length).map Token.num
        rw [hproc]
        exact h.flags.flag r' hr'
      · intro k hk
        show k ∈ ((s.completed ++ [t]).take s.cleared.length).map Token.num
        rw [hproc]
        exact h.flags.returned k hk
      · show _ = ((s.completed ++ [t]).take s.cleared.length).map _
        rw [hproc]
        exact h.flags.cleared

/-! ## The handler -/

variable [DecidableEq B]

/-- The handler finds a completion with status 0 and the buffer of its request, or is done. -/
theorem turn_eq (h : Inv s) : (s.pending = [] ∧ s.turn = .ok { s with intr := false }) ∨
    ∃ t rest r, s.pending = t :: rest ∧ s.Live r ∧ r.num = t.num ∧
      RingHolds s.used.ring (s.usedIdx + 1) s.used.idx (rest.map Token.head) ∧
      s.turn = .ok { s.wakeBuf r.buf with
        disk := update s.disk r.buf false
        usedIdx := s.usedIdx + 1
        cleared := s.cleared ++ [(r.buf, true)] } := by
  have hused := h.queues.used
  cases hp : s.pending with
  | nil =>
    rw [hp] at hused
    refine .inl ⟨rfl, ?_⟩
    rw [Sys.turn, if_neg (not_not.mpr ((hused.eq_iff (by decide)).mpr rfl))]
  | cons t rest =>
    have ht : t ∈ s.pending := hp ▸ mem_cons_self
    obtain ⟨r, hr, hnum, hhead⟩ := h.live_of_token (.inr ht)
    rw [hp, map_cons] at hused
    obtain ⟨hid, hrest⟩ := hused.pop
    have hne : s.usedIdx ≠ s.used.idx := fun he => by
      cases (hused.eq_iff (by decide)).mp he
    have hflag : s.disk r.buf = true := by
      refine Bool.eq_true_of_not_eq_false fun hf => ?_
      exact h.queues.not_processed (.inr ht) (hnum ▸ (h.flags.flag r hr).mp hf)
    have hstatus := h.flags.status t ht r (hnum ▸ hr.1)
    have hbuf := h.descs.buf r hr
    refine .inr ⟨t, rest, r, rfl, hr, hnum, hrest, ?_⟩
    have hlt : s.used.ring (cell NUM s.usedIdx) < NUM := by
      rw [hid, ← hhead]
      exact (r.idx 0).isLt
    have hfin : (⟨s.used.ring (cell NUM s.usedIdx), hlt⟩ : Fin NUM) = r.idx 0 :=
      Fin.ext (hid.trans hhead.symm)
    rw [Sys.turn, if_pos hne]
    simp only [dif_pos hlt, hfin, hstatus, hbuf, hflag, ne_eq, not_true_eq_false, if_false]

theorem turn (h : Inv s) (ht : s.turn = .ok s') : Inv s' := by
  rcases h.turn_eq with ⟨-, heq⟩ | ⟨t, rest, r, hp, hr, hnum, hrest, heq⟩
  · rw [heq] at ht
    cases ht
    exact h.setIntr false
  · rw [heq] at ht
    cases ht
    have hlt : s.cleared.length < s.completed.length := by
      by_contra hge
      rw [Sys.pending, drop_eq_nil_of_le (not_lt.mp hge)] at hp
      cases hp
    have hlen : (s.cleared ++ [(r.buf, true)]).length = s.cleared.length + 1 := length_append
    have hcons := drop_eq_getElem_cons hlt
    rw [← Sys.pending, hp] at hcons
    obtain ⟨htok, hdrop⟩ := cons.inj hcons
    have hpend : s.completed.drop (s.cleared ++ [(r.buf, true)]).length = rest := by
      rw [hlen, ← hdrop]
    have hproc : s.completed.take (s.cleared ++ [(r.buf, true)]).length = s.processed ++ [t] := by
      rw [hlen, take_succ_eq_append_getElem hlt, ← htok]
      rfl
    refine ⟨⟨h.descs.own, h.descs.desc, h.descs.op, h.descs.buf⟩, ?_, ?_, ?_⟩
    · refine ⟨h.queues.num, h.queues.avail, h.queues.takes_le, h.queues.token, h.queues.perm, ?_, ?_⟩
      · show RingHolds _ _ _ (map Token.head (s.completed.drop _))
        rw [hpend]
        exact hrest
      · show (s.cleared ++ [(r.buf, true)]).length ≤ _
        rw [hlen]
        exact hlt
    · refine ⟨fun u hu r' hr' => ?_, fun r' hr' => ?_, fun k hk => ?_, ?_⟩
      · refine h.flags.status u ?_ r' hr'
        rw [hp]
        exact mem_cons_of_mem t (hpend ▸ hu)
      · show update s.disk r.buf false r'.buf = false ↔ r'.num ∈ (s.completed.take _).map _
        rw [hproc, map_append, mem_append, map_singleton, mem_singleton]
        by_cases hbuf : r'.buf = r.buf
        · obtain rfl := h.buf_inj hr' hr hbuf
          rw [update_self]
          exact iff_of_true rfl (.inr hnum)
        · rw [update_of_ne hbuf, h.flags.flag r' hr']
          refine (or_iff_left fun he => hbuf ?_).symm
          rw [live_inj hr' hr (he.trans hnum.symm)]
      · show k ∈ (s.completed.take _).map _
        rw [hproc, map_append]
        exact mem_append_left _ (h.flags.returned k hk)
      · show (s.cleared ++ [(r.buf, true)]).map some =
          (s.completed.take _).map fun t => s.submitted[t.num]?.map fun r => (r.buf, true)
        rw [hproc, map_append, map_append, h.flags.cleared, map_singleton,
          map_singleton, ← hnum, hr.1]
        rfl
    · exact h.calls.congr (fun p => ⟨Pc.buf_wakeBuf _ _, Pc.request_wakeBuf _ _⟩) rfl fun _ => Iff.rfl

end Inv

end Xv6.Virtio
