/-
# Xv6.Virtio.Protocol — the calls of the driver, and whole runs.

The search for descriptors, the start of a request and its end keep what `Xv6.Virtio.Inv` says, and so does
every run.  That nothing panics comes with it: each step is shown to end in a state with the invariant, or
not to be possible.
-/
import Xv6.Virtio.Inv

namespace Xv6.Virtio

open Lib Function List

variable {P B : Type} {s s' : Sys P B} {r r' : Request B}

/-! ## Allocation -/

/-- Three marks are set. -/
theorem update_three (idx : Fin 3 → Fin NUM) (f : Fin NUM → Bool) (v : Bool) (i : Fin NUM) :
    update (update (update f (idx 0) v) (idx 1) v) (idx 2) v i =
      if ∃ j, idx j = i then v else f i := by
  simp only [update_apply]
  by_cases h : ∃ j, idx j = i
  · rw [if_pos h]
    obtain ⟨j, rfl⟩ := h
    match j with
    | 0 => rw [if_pos rfl, ite_self, ite_self]
    | 1 => rw [if_pos rfl, ite_self]
    | 2 => rw [if_pos rfl]
  · have hne : ∀ j, ¬i = idx j := fun j hj => h ⟨j, hj.symm⟩
    rw [if_neg h, if_neg (hne 2), if_neg (hne 1), if_neg (hne 0)]

/-- The state with other marks. -/
def Sys.setFree (s : Sys P B) (f : Fin NUM → Bool) : Sys P B := { s with free := f }

/-- The state after `free_desc`, but for the mark. -/
def Sys.clear (s : Sys P B) (i : Fin NUM) : Sys P B :=
  { s.wakeFree with desc := update s.desc i ⟨.null, 0, 0, 0⟩ }

theorem allocDesc_cases (s : Sys P B) (f : Fin NUM → Bool) : (s.setFree f).allocDesc = none ∨
    ∃ i, f i = true ∧ (s.setFree f).allocDesc = some (i, s.setFree (update f i false)) := by
  have hfree : (s.setFree f).free = f := rfl
  rw [Sys.allocDesc, hfree]
  cases hfind : (finRange NUM).find? f with
  | none => exact .inl rfl
  | some i => exact .inr ⟨i, find?_some hfind, rfl⟩

theorem freeDesc_eq {f : Fin NUM → Bool} (hi : f i = false) :
    (s.setFree f).freeDesc i = .ok ((s.clear i).setFree (update f i true)) := by
  rw [Sys.freeDesc, dif_pos i.isLt, if_neg]
  · rfl
  · show ¬f i = true
    rw [hi]
    nofun

/-- A search for descriptors that fails leaves the marks as they were, and the descriptors in use. -/
structure Undone (s s' : Sys P B) : Prop where
  eq : s' = { s with desc := s'.desc, pc := s'.pc }
  desc : ∀ i, s.free i = false → s'.desc i = s.desc i
  pc : ∀ p, (s'.pc p).buf = (s.pc p).buf ∧ (s'.pc p).request = (s.pc p).request

theorem Undone.refl (s : Sys P B) : Undone s s := ⟨rfl, fun _ _ => rfl, fun _ => ⟨rfl, rfl⟩⟩

theorem Undone.clear (h : Undone s s') (hi : s.free i = true) : Undone s (s'.clear i) where
  eq := by
    rw [Sys.clear, Sys.wakeFree, h.eq]
  desc k hk := by
    refine (update_of_ne ?_ _ _).trans (h.desc k hk)
    rintro rfl
    rw [hi] at hk
    cases hk
  pc p := ⟨(Pc.buf_wakeFree _).trans (h.pc p).1, (Pc.request_wakeFree _).trans (h.pc p).2⟩

/-- A descriptor that is free after another one was taken. -/
theorem ne_of_taken {f : Fin NUM → Bool} (h : update f i false k = true) :
    k ≠ i ∧ f k = true := by
  have hne : k ≠ i := by
    rintro rfl
    rw [update_self] at h
    cases h
  exact ⟨hne, update_of_ne hne false f ▸ h⟩

/-- **The search for three descriptors** finds three free ones, no two the same, or undoes what it
did. -/
theorem alloc3Desc_cases (s : Sys P B) : (∃ s', s.alloc3Desc = .ok (none, s') ∧ Undone s s') ∨
    ∃ i₀ i₁ i₂, i₁ ≠ i₀ ∧ i₂ ≠ i₀ ∧ i₂ ≠ i₁ ∧ s.free i₀ = true ∧ s.free i₁ = true ∧ s.free i₂ = true ∧
      s.alloc3Desc = .ok (some ![i₀, i₁, i₂], s.setFree (update (update
        (update s.free i₀ false) i₁ false) i₂ false)) := by
  rw [Sys.alloc3Desc]
  rcases allocDesc_cases s s.free with h0 | ⟨i₀, hi0, h0⟩
  · rw [show s.allocDesc = none from h0]
    exact .inl ⟨s, rfl, .refl s⟩
  rw [show s.allocDesc = _ from h0]
  simp only []
  rcases allocDesc_cases s (update s.free i₀ false) with h1 | ⟨i₁, hi1, h1⟩
  · rw [h1]
    rw [freeDesc_eq (update_self _ _ _), update_idem, ← hi0, update_eq_self]
    exact .inl ⟨_, rfl, (Undone.refl s).clear hi0⟩
  obtain ⟨hne1, hi1⟩ := ne_of_taken hi1
  rw [h1]
  simp only []
  rcases allocDesc_cases s (update (update s.free i₀ false) i₁ false)
    with h2 | ⟨i₂, hi2, h2⟩
  · rw [h2]
    have hfree : update (update (update (update s.free
        i₀ false) i₁ false) i₀ true) i₁ true = s.free := by
      funext k
      by_cases hk1 : k = i₁
      · rw [hk1, update_self, hi1]
      · rw [update_of_ne hk1]
        by_cases hk0 : k = i₀
        · rw [hk0, update_self, hi0]
        · rw [update_of_ne hk0, update_of_ne hk1, update_of_ne hk0]
    refine .inl ⟨(s.clear i₀).clear i₁, ?_, ((Undone.refl s).clear hi0).clear hi1⟩
    rw [freeDesc_eq (by rw [update_of_ne hne1.symm, update_self])]
    show (((s.clear i₀).setFree _).freeDesc i₁ >>= fun s => Except.ok (none, s)) = _
    rw [freeDesc_eq (by rw [update_of_ne hne1, update_self]), hfree]
    rfl
  obtain ⟨hne2, hi2⟩ := ne_of_taken hi2
  obtain ⟨hne3, hi2⟩ := ne_of_taken hi2
  rw [h2]
  exact .inr ⟨i₀, i₁, i₂, hne1, hne3, hne2, hi0, hi1, hi2, rfl⟩

/-! ## A new request -/

/-- What `virtio_disk_rw` has at hand when it formats a request: three descriptors that were free, the
number of requests so far, and a buffer that no live request is for. -/
structure Fresh (s : Sys P B) (f : Fin NUM → Bool) (r : Request B) : Prop where
  num : r.num = s.submitted.length
  inj : Injective r.idx
  free : ∀ j, s.free (r.idx j) = true
  marks : ∀ i, f i = false ↔ (∃ j, r.idx j = i) ∨ s.free i = false
  buf : ∀ r', s.Live r' → r'.buf ≠ r.buf

namespace Fresh

variable {f : Fin NUM → Bool}

theorem not_returned (hr : Fresh s f r) (h : Inv s) : r.num ∉ s.returned := fun hret =>
  absurd (h.returned_lt hret) (by rw [hr.num]; exact not_lt.mpr h.queues.takes_le)

theorem lookup (hr : Fresh s f r) (k : Nat) : (s.submitted ++ [r])[k]? =
    if k = r.num then some r else s.submitted[k]? := by
  rw [hr.num]
  split
  · rename_i hk
    rw [hk, getElem?_concat_length]
  · rename_i hk
    rcases Nat.lt_or_gt_of_ne hk with hlt | hgt
    · rw [getElem?_append_left hlt]
    · rw [getElem?_eq_none, getElem?_eq_none hgt.le]
      rw [length_append]
      exact hgt

/-- The requests before are the ones with other numbers. -/
theorem lookup_of_some (hr : Fresh s f r) {k : Nat} (hk : s.submitted[k]? = some r') :
    (s.submitted ++ [r])[k]? = some r' := by
  rw [hr.lookup, if_neg, hk]
  rintro rfl
  rw [hr.num, getElem?_eq_none le_rfl] at hk
  cases hk

/-- A live request has none of the new descriptors. -/
theorem idx_ne (hr : Fresh s f r) (h : Inv s) (hl : s.Live r') (j j' : Fin 3) :
    r'.idx j' ≠ r.idx j := fun he => by
  have hin := h.not_free hl j'
  rw [he, hr.free j] at hin
  cases hin

variable [DecidableEq B]

theorem submit_desc (hinj : Injective r.idx) (j : Fin 3) :
    (s.submit r).desc (r.idx j) = r.desc j := by
  have hne : ∀ {a b : Fin 3}, a ≠ b → r.idx a ≠ r.idx b := fun hab he => hab (hinj he)
  match j with
  | 0 =>
    exact (update_of_ne (hne (by decide)) _ _).trans
      ((update_of_ne (hne (by decide)) _ _).trans (update_self _ _ _))
  | 1 => exact (update_of_ne (hne (by decide)) _ _).trans (update_self _ _ _)
  | 2 => exact update_self _ _ _

theorem submit_desc_of_ne (hi : ∀ j, i ≠ r.idx j) : (s.submit r).desc i = s.desc i := by
  simp only [Sys.submit, update_of_ne (hi _)]

theorem live_iff (hr : Fresh s f r) (h : Inv s) :
    ((s.setFree f).submit r).Live r' ↔ r' = r ∨ s.Live r' := by
  show (s.submitted ++ [r])[r'.num]? = some r' ∧ r'.num ∉ s.returned ↔ _
  rw [hr.lookup]
  by_cases hnum : r'.num = r.num
  · rw [if_pos hnum]
    constructor
    · rintro ⟨he, -⟩
      exact .inl (Option.some_inj.mp he).symm
    · rintro (rfl | hl)
      · exact ⟨rfl, hr.not_returned h⟩
      · have hsome := hl.1
        rw [hnum, hr.num, getElem?_eq_none le_rfl] at hsome
        cases hsome
  · rw [if_neg hnum]
    constructor
    · exact .inr
    · rintro (rfl | hl)
      · exact absurd rfl hnum
      · exact hl

theorem descs (hr : Fresh s f r) (h : Inv s) : Descs ((s.setFree f).submit r) := by
  refine ⟨?_, fun r' hl j => ?_, fun r' hl => ?_, fun r' hl => ?_⟩
  · refine h.descs.own.allocAll (g := fun j => (r.num, j)) hr.inj (fun j => ?_) (fun _ => trivial)
      (fun j => ?_) (fun i _ => hr.marks i) (fun j => ?_) fun t ht => ?_
    · rw [Sys.slot, if_neg (hr.not_returned h), hr.num, getElem?_eq_none le_rfl]
      rfl
    · rw [hr.free j]
      rintro ⟨⟩
    · exact ((hr.live_iff h).mpr (.inl rfl)).slot j
    · show (if t.1 ∈ s.returned then none else ((s.submitted ++ [r])[t.1]?).map fun r => r.idx t.2) = _
      rw [hr.lookup, if_neg fun he => ht t.2 (Prod.ext he rfl)]
      rfl
  · rcases (hr.live_iff h).mp hl with rfl | hl
    · exact submit_desc hr.inj j
    · rw [submit_desc_of_ne fun j' => hr.idx_ne h hl j' j]
      exact h.descs.desc r' hl j
  · rcases (hr.live_iff h).mp hl with rfl | hl
    · exact update_self _ _ _
    · exact (update_of_ne (hr.idx_ne h hl 0 0) _ _).trans (h.descs.op r' hl)
  · show (update s.info (r.idx 0) ⟨some r.buf, 0xff⟩ (r'.idx 0)).b = _
    rcases (hr.live_iff h).mp hl with rfl | hl
    · rw [update_self]
    · rw [update_of_ne (hr.idx_ne h hl 0 0)]
      exact h.descs.buf r' hl

theorem queues (hr : Fresh s f r) (h : Inv s) : Queues ((s.setFree f).submit r) := by
  have hle := h.queues.takes_le
  refine ⟨fun k r' hk => ?_, ?_, ?_, fun t ht => ?_, h.queues.perm, h.queues.used, h.queues.cleared_le⟩
  · have hk' : (s.submitted ++ [r])[k]? = some r' := hk
    rw [hr.lookup] at hk'
    split at hk'
    · rename_i he
      obtain rfl := Option.some_inj.mp hk'
      exact he.symm
    · exact h.queues.num k r' hk'
  · show RingHolds _ _ _ (((s.submitted ++ [r]).drop s.takes).map fun r => (r.idx 0).val)
    rw [drop_append_of_le_length hle, map_append]
    refine h.queues.avail.push ⟨2 ^ 13, by decide⟩ ?_ _
    -- the requests that wait in the ring are live, and a descriptor was free
    have hlive : ∀ k ∈ range' s.takes (s.submitted.length - s.takes),
        ∃ r', s.Live r' ∧ r'.num = k := by
      intro k hk
      obtain ⟨hge, hlt⟩ := mem_range'_1.mp hk
      rw [Nat.add_sub_cancel' hle] at hlt
      have hsome := getElem?_eq_getElem hlt
      have hnum := h.queues.num k _ hsome
      refine ⟨s.submitted[k], ⟨(congrArg (s.submitted[·]?) hnum).trans hsome, fun hret => ?_⟩, hnum⟩
      exact absurd (h.returned_lt hret) (by rw [hnum]; exact not_lt.mpr hge)
    have hlen := (h.live_length hlive nodup_range').2 ⟨r.idx 0, hr.free 0⟩
    rw [length_range'] at hlen
    rw [length_map, length_drop]
    exact hlen
  · show s.takes ≤ (s.submitted ++ [r]).length
    rw [length_append]
    exact Nat.le_add_right_of_le hle
  · obtain ⟨r', hk, hhead⟩ := h.queues.token t ht
    exact ⟨r', hr.lookup_of_some hk, hhead⟩

theorem flags (hr : Fresh s f r) (h : Inv s) : Flags ((s.setFree f).submit r) := by
  refine ⟨fun t ht r' hk => ?_, fun r' hl => ?_, h.flags.returned, ?_⟩
  · obtain ⟨r'', hl, hnum, -⟩ := h.live_of_token (.inr ht)
    have hsome := hr.lookup_of_some (hnum ▸ hl.1)
    obtain rfl : r' = r'' := Option.some_inj.mp (hk.symm.trans hsome)
    show (update s.info (r.idx 0) _ (r'.idx 0)).status = 0
    rw [update_of_ne (hr.idx_ne h hl 0 0)]
    exact h.flags.status t ht r' (hnum ▸ hl.1)
  · show update s.disk r.buf true r'.buf = false ↔ r'.num ∈ s.processed.map Token.num
    rcases (hr.live_iff h).mp hl with rfl | hl
    · rw [update_self]
      refine iff_of_false nofun fun hp => ?_
      exact absurd (h.queues.processed_lt hp) (by rw [hr.num]; exact not_lt.mpr h.queues.takes_le)
    · rw [update_of_ne (hr.buf r' hl)]
      exact h.flags.flag r' hl
  · show s.cleared.map some =
      s.processed.map fun t => (s.submitted ++ [r])[t.num]?.map fun r => (r.buf, true)
    rw [h.flags.cleared]
    refine map_congr_left fun t ht => ?_
    obtain ⟨r', hk, -⟩ := h.queues.token t (mem_append_right _ (mem_of_mem_take ht))
    rw [hk, hr.lookup_of_some hk]

variable [DecidableEq P] {p : P}

section

variable (hr : Fresh s f r) (h : Inv s) (hbuf : (s.pc p).buf = some r.buf)
  (hreq : (s.pc p).request = none)

include hr h hbuf hreq

/-- The call waits for its new request. -/
theorem calls : Calls (((s.setFree f).submit r).goto p (.sleepBuf r)) := by
  have hpc : ∀ q, (update s.pc p (Pc.sleepBuf r) q).buf = (s.pc q).buf := fun q => by
    by_cases hq : q = p
    · rw [hq, update_self, hbuf]
      rfl
    · rw [update_of_ne hq]
  refine ⟨fun q b hb => h.calls.busy q b ((hpc q).symm.trans hb),
    fun q q' b hb hb' => h.calls.alone q q' b ((hpc q).symm.trans hb) ((hpc q').symm.trans hb'),
    fun q r' hq => ?_, fun r' hl => ?_⟩
  · have hq' : (update s.pc p (Pc.sleepBuf r) q).request = some r' := hq
    refine (hr.live_iff h).mpr ?_
    by_cases hqp : q = p
    · rw [hqp, update_self] at hq'
      exact .inl (Option.some_inj.mp hq').symm
    · rw [update_of_ne hqp] at hq'
      exact .inr (h.calls.live q r' hq')
  · rcases (hr.live_iff h).mp hl with rfl | hl
    · refine ⟨p, ?_⟩
      show (update s.pc p _ p).request = _
      rw [update_self]
      rfl
    · obtain ⟨q, hq⟩ := h.calls.waits r' hl
      refine ⟨q, ?_⟩
      show (update s.pc p _ q).request = _
      rw [update_of_ne, hq]
      rintro rfl
      rw [hreq] at hq
      cases hq

theorem inv : Inv (((s.setFree f).submit r).goto p (.sleepBuf r)) := by
  have hd := hr.descs h
  have hq := hr.queues h
  have hf := hr.flags h
  exact ⟨⟨hd.own, hd.desc, hd.op, hd.buf⟩,
    ⟨hq.num, hq.avail, hq.takes_le, hq.token, hq.perm, hq.used, hq.cleared_le⟩,
    ⟨hf.status, hf.flag, hf.returned, hf.cleared⟩, hr.calls h hbuf hreq⟩

end

end Fresh

/-! ## The end of a request -/

/-- The last descriptor of a request is the one without `VRING_DESC_F_NEXT`. -/
theorem Request.flags_next (r : Request B) (j : Fin 3) :
    (r.desc j).flags &&& VRING_DESC_F_NEXT ≠ 0 ↔ j ≠ 2 := by
  match j with
  | 0 =>
    show VRING_DESC_F_NEXT &&& VRING_DESC_F_NEXT ≠ 0 ↔ _
    decide
  | 1 =>
    show ((if r.write then 0 else VRING_DESC_F_WRITE) ||| VRING_DESC_F_NEXT) &&&
      VRING_DESC_F_NEXT ≠ 0 ↔ _
    cases r.write <;> decide
  | 2 =>
    show VRING_DESC_F_WRITE &&& VRING_DESC_F_NEXT ≠ 0 ↔ _
    decide

/-- `free_chain` frees the three descriptors of a request. -/
theorem freeChain_eq {f : Fin NUM → Bool} (hinj : Injective r.idx)
    (hdesc : ∀ j, s.desc (r.idx j) = r.desc j) (hf : ∀ j, f (r.idx j) = false) :
    Sys.freeChain (NUM + 1) (s.setFree f) (r.idx 0) =
      .ok ((((s.clear (r.idx 0)).clear (r.idx 1)).clear (r.idx 2)).setFree
        (update (update (update f (r.idx 0) true) (r.idx 1) true)
          (r.idx 2) true)) := by
  have hne : ∀ {a b : Fin 3}, a ≠ b → r.idx a ≠ r.idx b := fun hab he => hab (hinj he)
  have h1 : update f (r.idx 0) true (r.idx 1) = false := by
    rw [update_of_ne (hne (by decide)), hf]
  have h2 : update (update f (r.idx 0) true) (r.idx 1) true (r.idx 2) = false := by
    rw [update_of_ne (hne (by decide)), update_of_ne (hne (by decide)), hf]
  have hd1 : (s.clear (r.idx 0)).desc (r.idx 1) = r.desc 1 :=
    (update_of_ne (hne (by decide)) _ _).trans (hdesc 1)
  have hd2 : ((s.clear (r.idx 0)).clear (r.idx 1)).desc (r.idx 2) = r.desc 2 :=
    (update_of_ne (hne (by decide)) _ _).trans
      ((update_of_ne (hne (by decide)) _ _).trans (hdesc 2))
  have hturn : ∀ (t : Sys P B) (g : Fin NUM → Bool) (n : Nat) (j : Fin 3), t.desc (r.idx j) = r.desc j →
      g (r.idx j) = false → Sys.freeChain (n + 1) (t.setFree g) (r.idx j) =
        if (r.desc j).flags &&& VRING_DESC_F_NEXT ≠ 0 then
          Sys.freeChain n ((t.clear (r.idx j)).setFree (update g (r.idx j) true)) (r.desc j).next
        else .ok ((t.clear (r.idx j)).setFree (update g (r.idx j) true)) := by
    intro t g n j hd hg
    rw [Sys.freeChain, dif_pos (r.idx j).isLt, freeDesc_eq hg]
    show (if (t.desc (r.idx j)).flags &&& VRING_DESC_F_NEXT ≠ 0 then
      Sys.freeChain n _ (t.desc (r.idx j)).next else _) = _
    rw [hd]
  rw [hturn s f NUM 0 (hdesc 0) (hf 0), if_pos ((r.flags_next 0).mpr (by decide))]
  show Sys.freeChain (7 + 1) _ (r.idx 1) = _
  rw [hturn _ _ 7 1 hd1 h1, if_pos ((r.flags_next 1).mpr (by decide))]
  show Sys.freeChain (6 + 1) _ (r.idx 2) = _
  rw [hturn _ _ 6 2 hd2 h2, if_neg fun hn => (r.flags_next 2).mp hn rfl]

section Finish

variable [DecidableEq B] {p : P}

/-- The state after the return of the call for `r`. -/
structure Finished (s s' : Sys P B) (p : P) (r : Request B) : Prop where
  eq : s' = { s with
    desc := s'.desc
    free := s'.free
    info := s'.info
    pc := s'.pc
    busy := update s.busy r.buf false
    returned := s.returned ++ [r.num] }
  desc : ∀ i, (∀ j, i ≠ r.idx j) → s'.desc i = s.desc i
  free : ∀ i, s'.free i = false ↔ (∀ j, i ≠ r.idx j) ∧ s.free i = false
  info : ∀ i, i ≠ r.idx 0 → (s'.info i).b = (s.info i).b
  status : ∀ i, (s'.info i).status = (s.info i).status
  idle : s'.pc p = .idle
  pc : ∀ q, q ≠ p → (s'.pc q).buf = (s.pc q).buf ∧ (s'.pc q).request = (s.pc q).request

namespace Finished

section

variable (hf : Finished s s' p r)

include hf

theorem live_iff : s'.Live r' ↔ s.Live r' ∧ r'.num ≠ r.num := by
  rw [Sys.Live, Sys.Live, hf.eq, mem_append, mem_singleton, not_or, and_assoc]

theorem descs (h : Inv s) (hl : s.Live r) : Descs s' := by
  have hne : ∀ {r'}, s.Live r' → r'.num ≠ r.num → ∀ j' j, r'.idx j' ≠ r.idx j :=
    fun hl' hnum _ _ he => hnum (h.idx_inj hl' hl he).1
  refine ⟨?_, fun r' hl' j => ?_, fun r' hl' => ?_, fun r' hl' => ?_⟩
  · refine h.descs.own.freeAll (g := fun j => (r.num, j)) (f := r.idx) (fun j => hl.slot j)
      (fun i _ => hf.free i) (fun j => ?_) fun t ht => ?_
    · rw [Sys.slot, if_pos]
      rw [hf.eq]
      exact mem_append_right _ (mem_singleton_self _)
    · have hnum : t.1 ≠ r.num := fun he => ht t.2 (Prod.ext he rfl)
      rw [Sys.slot, Sys.slot, hf.eq]
      simp only [mem_append, mem_singleton, hnum, or_false]
  · obtain ⟨hl', hnum⟩ := hf.live_iff.mp hl'
    rw [hf.desc _ (hne hl' hnum j)]
    exact h.descs.desc r' hl' j
  · obtain ⟨hl', hnum⟩ := hf.live_iff.mp hl'
    rw [hf.eq]
    exact h.descs.op r' hl'
  · obtain ⟨hl', hnum⟩ := hf.live_iff.mp hl'
    rw [hf.info _ (hne hl' hnum 0 0)]
    exact h.descs.buf r' hl'

theorem queues (h : Inv s) : Queues s' := by
  rw [hf.eq]
  exact ⟨h.queues.num, h.queues.avail, h.queues.takes_le, h.queues.token, h.queues.perm,
    h.queues.used, h.queues.cleared_le⟩

theorem flags (h : Inv s) (hproc : r.num ∈ s.processed.map Token.num) :
    Flags s' := by
  have hcompleted : s'.completed = s.completed := by rw [hf.eq]
  have hcleared : s'.cleared = s.cleared := by rw [hf.eq]
  have hsub : s'.submitted = s.submitted := by rw [hf.eq]
  have hpend : s'.pending = s.pending := by rw [Sys.pending, Sys.pending, hcompleted, hcleared]
  have hprocd : s'.processed = s.processed := by rw [Sys.processed, Sys.processed, hcompleted, hcleared]
  refine ⟨fun t ht r' hk => ?_, fun r' hl' => ?_, fun k hk => ?_, ?_⟩
  · rw [hpend] at ht
    rw [hsub] at hk
    rw [hf.status]
    exact h.flags.status t ht r' hk
  · rw [hprocd, hf.eq]
    exact h.flags.flag r' (hf.live_iff.mp hl').1
  · rw [hf.eq, mem_append, mem_singleton] at hk
    rw [hprocd]
    rcases hk with hk | rfl
    · exact h.flags.returned k hk
    · exact hproc
  · rw [hprocd, hcleared, hsub]
    exact h.flags.cleared

theorem calls (h : Inv s) (hp : (s.pc p).request = some r) : Calls s' := by
  have hbuf := Pc.buf_of_request hp
  have hother : ∀ {q b}, (s'.pc q).buf = some b → q ≠ p := by
    rintro q b hb rfl
    rw [hf.idle] at hb
    cases hb
  have hold : ∀ {q b}, (s'.pc q).buf = some b → (s.pc q).buf = some b := fun hb =>
    (hf.pc _ (hother hb)).1 ▸ hb
  refine ⟨fun q b hb => ?_, fun q q' b hq hq' => ?_, fun q r' hq => ?_, fun r' hl' => ?_⟩
  · rw [hf.eq]
    show update s.busy r.buf false b = true
    rw [update_of_ne]
    · exact h.calls.busy q b (hold hb)
    · rintro rfl
      exact hother hb (h.calls.alone q p _ (hold hb) hbuf)
  · exact h.calls.alone q q' b (hold hq) (hold hq')
  · have hqp := hother (Pc.buf_of_request hq)
    have hq' := (hf.pc q hqp).2 ▸ hq
    have hl' := h.calls.live q r' hq'
    refine hf.live_iff.mpr ⟨hl', fun hnum => hqp ?_⟩
    obtain rfl := Inv.live_inj hl' (h.calls.live p r hp) hnum
    exact h.calls.alone q p _ (Pc.buf_of_request hq') hbuf
  · obtain ⟨hl', hnum⟩ := hf.live_iff.mp hl'
    obtain ⟨q, hq⟩ := h.calls.waits r' hl'
    have hqp : q ≠ p := by
      rintro rfl
      rw [hp] at hq
      exact hnum (congrArg Request.num (Option.some_inj.mp hq).symm)
    exact ⟨q, (hf.pc q hqp).2.trans hq⟩

theorem inv (h : Inv s) (hp : (s.pc p).request = some r)
    (hproc : r.num ∈ s.processed.map Token.num) : Inv s' :=
  ⟨hf.descs h (h.calls.live p r hp), hf.queues h, hf.flags h hproc, hf.calls h hp⟩

end

end Finished

end Finish

/-! ## Runs -/

namespace Inv

variable [DecidableEq P] {p : P}

/-- A process changes its point, and neither its buffer nor its request. -/
theorem goto (h : Inv s) (hbuf : pc.buf = (s.pc p).buf)
    (hreq : pc.request = (s.pc p).request) : Inv (s.goto p pc) := by
  refine h.setCalls (h.calls.congr (fun q => ?_) rfl fun _ => Iff.rfl)
  show (update s.pc p pc q).buf = _ ∧ (update s.pc p pc q).request = _
  by_cases hq : q = p
  · rw [hq, update_self]
    exact ⟨hbuf, hreq⟩
  · rw [update_of_ne hq]
    exact ⟨rfl, rfl⟩

variable [DecidableEq B]

/-- A call of `virtio_disk_rw` on a buffer that no other call has. -/
theorem start (h : Inv s) (hidle : s.pc p = .idle) (hb : s.busy b = false) (sector : BitVec 64)
    (write : Bool) :
    Inv { s.goto p (.start b sector write) with busy := update s.busy b true } := by
  have hfree : ∀ q, (s.pc q).buf ≠ some b := fun q hq => by
    have := h.calls.busy q b hq
    rw [hb] at this
    cases this
  have hbuf : ∀ {q c}, (update s.pc p (Pc.start b sector write) q).buf = some c →
      q = p ∧ c = b ∨ (s.pc q).buf = some c := by
    intro q c hc
    by_cases hq : q = p
    · rw [hq, update_self] at hc
      exact .inl ⟨hq, (Option.some_inj.mp hc).symm⟩
    · rw [update_of_ne hq] at hc
      exact .inr hc
  have hreq : ∀ q, (update s.pc p (Pc.start b sector write) q).request = (s.pc q).request := by
    intro q
    by_cases hq : q = p
    · rw [hq, update_self, hidle]
      rfl
    · rw [update_of_ne hq]
  refine h.setCalls ⟨fun q c hc => ?_, fun q q' c hc hc' => ?_,
    fun q r hr => h.calls.live q r ((hreq q).symm.trans hr),
    fun r hr => (h.calls.waits r hr).imp fun q hq => (hreq q).trans hq⟩
  · show update s.busy b true c = true
    rcases hbuf hc with ⟨-, rfl⟩ | hq
    · exact update_self ..
    · rw [update_of_ne fun he : c = b => hfree q (he ▸ hq)]
      exact h.calls.busy q c hq
  · rcases hbuf hc with ⟨rfl, rfl⟩ | hq <;> rcases hbuf hc' with ⟨rfl, he⟩ | hq'
    · rfl
    · exact absurd hq' (hfree q')
    · exact absurd (he ▸ hq) (hfree q)
    · exact h.calls.alone q q' c hq hq'

/-- A process that waits for its request sleeps on, or frees its descriptors and returns. -/
theorem await (h : Inv s) (hp : (s.pc p).request = some r) : ∃ s', s.await p r = .ok s' ∧ Inv s' := by
  have hl := h.calls.live p r hp
  rw [Sys.await]
  split
  · refine ⟨_, rfl, h.goto ?_ hp.symm⟩
    exact (Pc.buf_of_request hp).symm
  · rename_i hdisk
    have hproc := (h.flags.flag r hl).mp (Bool.eq_false_of_not_eq_true hdisk)
    have hinj : Injective r.idx := fun j j' he => (h.idx_inj hl hl he).2
    let s0 : Sys P B := { s with
      info := update s.info (r.idx 0) { s.info (r.idx 0) with b := none } }
    have hchain : Sys.freeChain (NUM + 1) s0 (r.idx 0) = _ :=
      freeChain_eq (s := s0) hinj (h.descs.desc r hl) (h.not_free hl)
    rw [hchain]
    refine ⟨_, rfl, Finished.inv (s := s) (p := p) (r := r)
      ⟨rfl, fun i hi => ?_, fun i => ?_, fun i hi => ?_, fun i => ?_, ?_, fun q hq => ?_⟩ h hp hproc⟩
    · exact (update_of_ne (hi 2) _ _).trans ((update_of_ne (hi 1) _ _).trans
        (update_of_ne (hi 0) _ _))
    · show update (update (update s.free _ true) _ true) _ true i = false ↔ _
      rw [update_three]
      split
      · rename_i hj
        obtain ⟨j, hj⟩ := hj
        exact iff_of_false nofun fun hne => hne.1 j hj.symm
      · rename_i hj
        exact (and_iff_right fun j he => hj ⟨j, he.symm⟩).symm
    · show (update s.info _ _ i).b = _
      rw [update_of_ne hi]
    · show (update s.info _ _ i).status = _
      by_cases hi : i = r.idx 0
      · rw [hi, update_self]
      · rw [update_of_ne hi]
    · exact update_self _ _ _
    · have hw : update (fun q => (s.pc q).wakeFree.wakeFree.wakeFree) p Pc.idle q =
          (s.pc q).wakeFree.wakeFree.wakeFree := update_of_ne hq _ _
      refine ⟨(congrArg Pc.buf hw).trans ?_, (congrArg Pc.request hw).trans ?_⟩
      · rw [Pc.buf_wakeFree, Pc.buf_wakeFree, Pc.buf_wakeFree]
      · rw [Pc.request_wakeFree, Pc.request_wakeFree, Pc.request_wakeFree]

/-- A process that looks for descriptors goes to sleep, or queues its request and waits for it. -/
theorem request (h : Inv s)
    (hp : s.pc p = .start b sector write) : ∃ s', s.request p b sector write = .ok s' ∧ Inv s' := by
  have hbuf : (s.pc p).buf = some b := congrArg Pc.buf hp
  have hreq : (s.pc p).request = none := congrArg Pc.request hp
  rw [Sys.request]
  rcases alloc3Desc_cases s with ⟨t, ht, hundo⟩ | ⟨i0, i1, i2, h10, h20, h21, hi0, hi1, hi2, ht⟩
  · rw [ht]
    refine ⟨_, rfl, goto ?_ ((hundo.pc p).1.trans hbuf).symm ((hundo.pc p).2.trans hreq).symm⟩
    have hdesc : ∀ r, s.Live r → ∀ j, t.desc (r.idx j) = r.desc j := fun r hl j =>
      (hundo.desc _ (h.not_free hl j)).trans (h.descs.desc r hl j)
    have hcalls : Calls { s with desc := t.desc, pc := t.pc } :=
      h.calls.congr hundo.pc rfl fun _ => Iff.rfl
    rw [hundo.eq]
    exact ⟨⟨h.descs.own, hdesc, h.descs.op, h.descs.buf⟩,
      ⟨h.queues.num, h.queues.avail, h.queues.takes_le, h.queues.token, h.queues.perm, h.queues.used,
        h.queues.cleared_le⟩,
      ⟨h.flags.status, h.flags.flag, h.flags.returned, h.flags.cleared⟩, hcalls⟩
  · let f := update (update (update s.free i0 false) i1 false) i2 false
    let r : Request B := ⟨s.submitted.length, ![i0, i1, i2], b, sector, write⟩
    have hfresh : Fresh s f r := by
      refine ⟨rfl, ?_, ?_, fun i => ?_, fun r' hl he => ?_⟩
      · rw [← nodup_ofFn]
        simp [r, h10.symm, h20.symm, h21.symm]
      · intro j
        match j with
        | 0 => exact hi0
        | 1 => exact hi1
        | 2 => exact hi2
      · rw [show f i = if ∃ j, r.idx j = i then false else s.free i from update_three r.idx s.free false i]
        split
        · rename_i hj
          exact iff_of_true rfl (.inl hj)
        · rename_i hj
          exact (or_iff_right hj).symm
      · obtain ⟨q, hq⟩ := h.calls.waits r' hl
        obtain rfl := h.calls.alone q p b ((Pc.buf_of_request hq).trans (congrArg some he)) hbuf
        rw [hreq] at hq
        cases hq
    rw [ht]
    show ∃ s', ((s.setFree f).submit r).await p r = .ok s' ∧ Inv s'
    have hset : ((s.setFree f).submit r).disk r.buf = true := update_self _ _ _
    rw [Sys.await, if_pos hset]
    exact ⟨_, rfl, hfresh.inv h hbuf hreq⟩

/-- **One step.** Whatever happens keeps the invariant, or is not possible; nothing panics. -/
theorem step (h : Inv s) (a : Act P B) : (∃ s', s.step a = .ok s' ∧ Inv s') ∨ s.step a = .error .refused := by
  cases a with
  | virtioDiskRw p b blockno write =>
    simp only [Sys.step]
    split
    · rename_i hidle
      split
      · exact .inr rfl
      · rename_i hbusy
        exact .inl ⟨_, rfl, h.start hidle (Bool.eq_false_of_not_eq_true hbusy) _ _⟩
    · exact .inr rfl
  | enter p =>
    simp only [Sys.step]
    split
    · exact .inr rfl
    · split
      · rename_i hpc
        exact .inl (h.request hpc)
      · rename_i r hpc
        exact .inl (h.await (congrArg Pc.request hpc))
      · exact .inr rfl
  | virtioDiskIntr =>
    simp only [Sys.step]
    split
    · exact .inr rfl
    · exact .inl ⟨_, rfl, h.setIntr true⟩
  | turn =>
    simp only [Sys.step]
    split
    · obtain ⟨s', hs⟩ : ∃ s', s.turn = .ok s' := by
        rcases h.turn_eq with ⟨-, heq⟩ | ⟨t, rest, r, -, -, -, -, heq⟩
        · exact ⟨_, heq⟩
        · exact ⟨_, heq⟩
      exact .inl ⟨s', hs, h.turn hs⟩
    · exact .inr rfl
  | take =>
    simp only [Sys.step]
    cases hs : s.take with
    | ok s' => exact .inl ⟨s', rfl, h.take hs⟩
    | error e =>
      rw [Sys.take] at hs
      split at hs
      · cases hs
      · cases hs
        exact .inr rfl
  | complete i =>
    simp only [Sys.step]
    cases hs : s.complete i with
    | ok s' => exact .inl ⟨s', rfl, h.complete hs⟩
    | error e =>
      rw [Sys.complete] at hs
      split at hs
      · cases hs
        exact .inr rfl
      · rename_i t hi
        obtain ⟨r, hr, -, hhead⟩ := h.live_of_token (.inl (mem_of_getElem? hi))
        rw [h.statusAddr hr hhead] at hs
        cases hs

end Inv

theorem init_inv : Inv (Sys.init : Sys P B) where
  descs := by
    refine ⟨⟨fun _ => trivial, fun hs => ?_, fun {i} _ => ?_⟩, fun r hr => ?_, fun r hr => ?_, fun r hr => ?_⟩
    · cases hs
    · refine iff_of_false nofun ?_
      rintro ⟨k, hk⟩
      cases hk
    all_goals cases hr.1
  queues := by
    refine ⟨fun k r hk => ?_, .nil _ 0, le_rfl, fun t ht => ?_, .refl _, .nil _ 0, le_rfl⟩
    · cases hk
    · cases ht
  flags := by
    refine ⟨fun t ht => ?_, fun r hr => ?_, fun k hk => ?_, rfl⟩
    · cases ht
    · cases hr.1
    · cases hk
  calls := by
    refine ⟨fun p b hb => ?_, fun p q b hb => ?_, fun p r hr => ?_, fun r hr => ?_⟩
    · cases hb
    · cases hb
    · cases hr
    · cases hr.1

/-! ## Counting descriptors -/

/-- The requests in flight. -/
def Sys.inflight (s : Sys P B) : List (Request B) :=
  s.submitted.filter fun r => r.num ∉ s.returned

/-- The descriptors of the requests in flight. -/
def Sys.inUse (s : Sys P B) : List (Fin NUM) :=
  s.inflight.flatMap fun r => (List.finRange 3).map r.idx

theorem Queues.mem_inflight (h : Queues s) : r ∈ s.inflight ↔ s.Live r := by
  rw [Sys.inflight, mem_filter, decide_eq_true_iff, Sys.Live]
  refine and_congr_left fun _ => ?_
  constructor
  · intro hr
    obtain ⟨k, hk⟩ := mem_iff_getElem?.mp hr
    rw [h.num k r hk]
    exact hk
  · exact mem_of_getElem?

theorem Queues.nodup_submitted (h : Queues s) : s.submitted.Nodup := by
  refine List.Nodup.of_map Request.num ?_
  have hmap : s.submitted.map Request.num = range s.submitted.length := by
    refine ext_getElem (by simp) fun k h1 h2 => ?_
    rw [length_map] at h1
    rw [getElem_map, getElem_range]
    exact h.num k _ (getElem?_eq_getElem h1)
  rw [hmap]
  exact nodup_range

namespace Inv

theorem nodup_inUse (h : Inv s) : s.inUse.Nodup := by
  refine nodup_flatMap.mpr ⟨fun r hr => ?_, ?_⟩
  · have hl := h.queues.mem_inflight.mp hr
    exact (nodup_finRange 3).map fun j j' he => (h.idx_inj hl hl he).2
  · refine (h.queues.nodup_submitted.filter _).pairwise_of_forall_ne fun r hr r' hr' hne => ?_
    have hl := h.queues.mem_inflight.mp hr
    have hl' := h.queues.mem_inflight.mp hr'
    intro i hi hi'
    obtain ⟨j, -, rfl⟩ := mem_map.mp hi
    obtain ⟨j', -, he⟩ := mem_map.mp hi'
    exact hne (live_inj hl hl' (h.idx_inj hl hl' he.symm).1)

theorem mem_inUse (h : Inv s) (i : Fin NUM) : i ∈ s.inUse ↔ s.free i = false := by
  rw [h.descs.own.used_iff trivial, Sys.inUse, mem_flatMap]
  constructor
  · rintro ⟨r, hr, hi⟩
    obtain ⟨j, -, rfl⟩ := mem_map.mp hi
    exact ⟨_, (h.queues.mem_inflight.mp hr).slot j⟩
  · rintro ⟨k, hk⟩
    obtain ⟨r, hl, -, hi⟩ := h.queues.live_of_slot hk
    exact ⟨r, h.queues.mem_inflight.mpr hl, mem_map.mpr ⟨k.2, mem_finRange _, hi⟩⟩

/-- The free descriptors and three for each request in flight are all there are. -/
theorem count (h : Inv s) :
    (Finset.univ.filter fun i => s.free i = true).card + 3 * s.inflight.length = NUM := by
  have hlen : s.inUse.length = 3 * s.inflight.length := by
    rw [Sys.inUse, length_flatMap]
    simp [Nat.mul_comm]
  have huse : s.inUse.toFinset = Finset.univ.filter fun i => ¬s.free i = true := by
    ext i
    rw [mem_toFinset, h.mem_inUse, Finset.mem_filter, Bool.not_eq_true]
    exact (and_iff_right (Finset.mem_univ i)).symm
  rw [← hlen, ← toFinset_card_of_nodup h.nodup_inUse, huse, Finset.card_filter_add_card_filter_not,
    Finset.card_univ, Fintype.card_fin]

end Inv

section Run

variable [DecidableEq P] [DecidableEq B] {as : List (Act P B)}

/-- Every run keeps the invariant. -/
theorem run_inv (h : run Sys.step Sys.init as = .ok s) : Inv s := by
  refine run_invariant (I := Inv) (fun s a s' hi hs => ?_) h init_inv
  rcases hi.step a with ⟨t, ht, hinv⟩ | hno
  · rw [hs] at ht
    cases ht
    exact hinv
  · rw [hs] at hno
    cases hno

/-- **The disk driver and its device.**  After any interleaving, over runs of any length:

* the requests in flight are those that a process in `virtio_disk_rw` waits for; the three descriptors of
  each are distinct, belong to no other, and are not free; free descriptors and three for each request in
  flight make `NUM`;
* a call has returned only if the device has completed its very request;
* every request is completed at most once, the `n`-th flag that the handler clears is the one of the buffer
  of the `n`-th completed request, and it was set; when the handler has looked through the used ring, all
  completions are cleared;
* no step panics, leaves an array or runs for ever. -/
theorem virtio_disk_protocol (h : run Sys.step Sys.init as = .ok s) :
    (∀ r, r ∈ s.inflight ↔ ∃ p, (s.pc p).request = some r) ∧
    (∀ r ∈ s.inflight, Injective r.idx ∧ (∀ j, s.free (r.idx j) = false) ∧
      ∀ r' ∈ s.inflight, r' ≠ r → ∀ j j', r'.idx j' ≠ r.idx j) ∧
    (Finset.univ.filter fun i => s.free i = true).card + 3 * s.inflight.length = NUM ∧
    (∀ k ∈ s.returned, ∃ t ∈ s.completed, t.num = k ∧
      ∃ r, s.submitted[k]? = some r ∧ (r.idx 0).val = t.head) ∧
    ((s.completed.map Token.num).Nodup ∧
      s.cleared.map some = (s.completed.take s.cleared.length).map
        (fun t => s.submitted[t.num]?.map fun r => (r.buf, true)) ∧
      (s.usedIdx = s.used.idx → s.cleared.length = s.completed.length)) ∧
    ∀ a e, s.step a = .error e → e = .refused := by
  have hi := run_inv h
  refine ⟨fun r => ?_, fun r hr => ?_, hi.count, fun k hk => ?_, ⟨?_, hi.flags.cleared, fun he => ?_⟩,
    fun a e he => ?_⟩
  · rw [hi.queues.mem_inflight]
    constructor
    · exact hi.calls.waits r
    · rintro ⟨p, hp⟩
      exact hi.calls.live p r hp
  · have hl := hi.queues.mem_inflight.mp hr
    refine ⟨fun j j' he => (hi.idx_inj hl hl he).2, hi.not_free hl, fun r' hr' hne j j' he => hne ?_⟩
    have hl' := hi.queues.mem_inflight.mp hr'
    exact Inv.live_inj hl' hl (hi.idx_inj hl' hl he).1
  · obtain ⟨t, ht, rfl⟩ := mem_map.mp (hi.flags.returned k hk)
    have hmem : t ∈ s.completed := mem_of_mem_take ht
    exact ⟨t, hmem, rfl, hi.queues.token t (mem_append_right _ hmem)⟩
  · have hnd := hi.queues.nodup
    rw [map_append] at hnd
    exact (nodup_append.mp hnd).2.1
  · have hpend : s.pending.map Token.head = [] := (hi.queues.used.eq_iff (by decide)).mp he
    have hnil : s.completed.drop s.cleared.length = [] := map_eq_nil_iff.mp hpend
    exact le_antisymm hi.queues.cleared_le (drop_eq_nil_iff.mp hnil)
  · rcases hi.step a with ⟨s', hs, -⟩ | hs
    · rw [hs] at he
      cases he
    · rw [hs] at he
      cases he
      rfl

local instance neZero_three : NeZero 3 := ⟨by decide⟩

/-- Three processes use the disk.  The third finds no descriptors; the second request is completed before
the first one, and its call returns. -/
def outOfOrder : List (Act (Fin 3) (Fin 3)) :=
  [.virtioDiskRw 0 0 10 false, .virtioDiskRw 1 1 11 true, .virtioDiskRw 2 2 12 false, .enter 0, .enter 1,
    .enter 2, .take, .take, .complete 1, .virtioDiskIntr, .turn, .complete 0, .turn, .turn, .enter 1,
    .enter 2]

theorem virtio_disk_protocol_out_of_order :
    ∃ s, run Sys.step Sys.init outOfOrder = .ok s ∧ s.returned = [1] ∧ s.inflight.length = 2 ∧
      (Finset.univ.filter fun i => s.free i = true).card = 2 := by
  have hok : ((run Sys.step Sys.init outOfOrder).toOption.map fun s =>
    (s.returned, s.inflight.length)) = some ([1], 2) := by decide +kernel
  obtain ⟨s, hc, hs⟩ := ok_of_map hok
  obtain ⟨hret, hlen⟩ := Prod.mk.inj hs
  have hcount := (virtio_disk_protocol hc).2.2.1
  rw [hlen] at hcount
  exact ⟨s, hc, hret, hlen, Nat.add_right_cancel hcount⟩

end Run

end Xv6.Virtio
