/-
# Xv6.Fs.Update — the functions that change the disk, inside a call.

Each specification says which inode changes and how.  Blocks are not mentioned above this module, except
that a write may find no free one.
-/
import Xv6.Fs.Inside

namespace Xv6.Fs

open Lib Lib.Prog Function Finset View

variable {fs fs' fs'' fs₀ : State} {v : View} {ip : Ptr} {i j : Nat} {held : Multiset (Ptr × Nat)}
  {lk : Finset Ptr} {E : String → Prop}

/-! ## Changes of the disk -/

/-- The functions that change an inode change its copy and its dinode. -/
structure Changed (ip : Ptr) (i : Nat) (fs : State) (v : View) (fs' : State) : Prop where
  frame : Frame (some ip) fs fs'
  after : Shows fs' none v
  good : Good fs.sb v
  copy : (fs'.itable ip).toDinode = v.dinode i
  node : ∀ j, j ≠ i → v.dinode j = fs.dinode j
  type : (v.dinode i).type ≠ 0

namespace Changed

variable (c : Changed ip i fs v fs')

include c

theorem entry_ne (hp : p ≠ ip) : fs'.itable p = fs.itable p :=
  c.frame.others p fun he => hp (Option.some_inj.mp he).symm

theorem fields (p : Ptr) : (fs'.itable p).ref = (fs.itable p).ref ∧ (fs'.itable p).inum = (fs.itable p).inum ∧
    (fs'.itable p).valid = (fs.itable p).valid ∧ (fs'.itable p).locked = (fs.itable p).locked := by
  obtain ⟨n, hn⟩ := c.frame.entry p
  rw [hn]
  exact ⟨rfl, rfl, rfl, rfl⟩

theorem ino_eq (hj : j < fs.sb.ninodes) : fs'.ino j = v.ino j :=
  c.after.ino_view (c.frame.sb ▸ c.good) (c.frame.sb ▸ hj)

theorem dinode_eq (hj : j < fs.sb.ninodes) : fs'.dinode j = v.dinode j :=
  c.after.node j (c.frame.sb ▸ hj)

theorem settled (h : Settled fs) (hr : fs.Refers ip i) : Settled fs' := by
  have hsb := c.frame.sb
  have hne : ∀ {p}, p ≠ ip → 0 < (fs.itable p).ref → (fs.itable p).inum ≠ i := fun hp hpos he =>
    hp (h.uniq hpos hr.1 (he.trans hr.2.symm))
  refine ⟨c.after.good_view (hsb ▸ c.good), fun {p q} hp hq he => ?_, fun {p} hp => ?_, fun {p} hp hv => ?_,
    fun {p} hp hv => ?_⟩
  · rw [(c.fields p).1] at hp
    rw [(c.fields q).1] at hq
    rw [(c.fields p).2.1, (c.fields q).2.1] at he
    exact h.uniq hp hq he
  · rw [(c.fields p).1] at hp
    rw [(c.fields p).2.1, hsb]
    exact h.inum hp
  · rw [(c.fields p).1] at hp
    rw [(c.fields p).2.2.1] at hv
    have hlt := h.inum hp
    rw [(c.fields p).2.1, c.dinode_eq hlt]
    by_cases hpi : p = ip
    · rw [hpi, hr.2]
      exact c.copy
    · rw [c.entry_ne hpi, c.node _ (hne hpi hp)]
      exact h.copy hp hv
  · rw [(c.fields p).1] at hp
    rw [(c.fields p).2.2.1] at hv
    have hlt := h.inum hp
    rw [(c.fields p).2.1, ino_type_eq (hsb ▸ hlt), c.dinode_eq hlt]
    by_cases hpi : p = ip
    · rw [hpi, hr.2]
      exact c.type
    · rw [c.node _ (hne hpi hp), ← ino_type_eq hlt]
      exact h.alive hp hv

theorem inside (h : Inside fs₀ held lk fs) (hr : fs.Refers ip i) : Inside fs₀ held lk fs' where
  toSettled := c.settled h.toSettled hr
  sb := c.frame.sb.trans h.sb
  ref p := (c.fields p).1.trans (h.ref p)
  held x hx := (c.fields x.1).2.1.trans (h.held x hx)
  kept p hp := by
    obtain ⟨h1, h2⟩ := h.kept p hp
    rw [(c.fields p).2.1, (c.fields p).2.2.1]
    exact ⟨h1, h2⟩
  locked p := by rw [(c.fields p).2.2.2, h.locked]
  valid p hp := by
    rw [(c.fields p).1, (c.fields p).2.2.1]
    exact h.valid p hp

end Changed

/-- A valid entry shows the view of the state. -/
theorem Settled.shows (h : Settled fs) (hpos : 0 < (fs.itable ip).ref) (hv : (fs.itable ip).valid = true) :
    Shows fs (some ip) fs.view :=
  (shows_view fs).enter (h.copy hpos hv)

/-- What a lock guarantees. -/
theorem Inside.entry (h : Inside fs₀ held lk fs) (hlk : ip ∈ lk) (hi : (fs.itable ip).inum = i) :
    0 < (fs.itable ip).ref ∧ (fs.itable ip).valid = true ∧ (fs.ino i).type ≠ 0 ∧
      (fs.itable ip).toDinode = fs.dinode i ∧ i < fs.sb.ninodes := by
  subst hi
  obtain ⟨hpos, hv⟩ := h.valid ip hlk
  exact ⟨hpos, hv, h.alive hpos hv, h.copy hpos hv, h.inum hpos⟩

/-- An inode in the table, written anew. -/
theorem ino_ext (hsb : fs'.sb = fs.sb) (hself : fs'.ino i = y)
    (hother : ∀ j < fs.sb.ninodes, j ≠ i → fs'.ino j = fs.ino j) :
    fs'.ino = update fs.ino i y := by
  funext j
  by_cases hj : j = i
  · rw [hj, hself, update_self]
  · rw [update_of_ne hj]
    by_cases hlt : j < fs.sb.ninodes
    · exact hother j hlt hj
    · rw [State.ino, if_neg (by rwa [hsb]), State.ino, if_neg hlt]

/-! ## Contents -/

/-- **`readi`** delivers the bytes from `off` on, up to `n` of them, and stops at the first that is not mapped. -/
theorem Inside.wpe_readi (h : Inside fs₀ held lk fs) (hlk : ip ∈ lk) (hi : (fs.itable ip).inum = i)
    (dst : Nat → Bool) (off n : Nat) :
    wpe E (readi ip dst off n) (fun r fs' => fs' = fs ∧
      ((¬(off ≤ (fs.ino i).data.length ∧ off ≤ (off + n) % 2 ^ 32) ∧ r = (some 0, [])) ∨
        ((off ≤ (fs.ino i).data.length ∧ off ≤ (off + n) % 2 ^ 32) ∧ ∃ m, m = min n ((fs.ino i).data.length - off) ∧
          r = (if mapped dst 0 m = m then some m else none,
            ((fs.ino i).data.drop off).take (mapped dst 0 m))))) fs := by
  obtain ⟨hpos, hv, halive, hcopy, hlt⟩ := h.entry hlk hi
  have ha := allocated_iff.mpr halive
  have hdata : (fs.ino i).data = fs.view.content i := by
    rw [ino_eq hlt, ino_of_ne_zero ha.2]
  have hsize : (fs.itable ip).size.toNat = (fs.ino i).data.length := by rw [hcopy, ino_size halive]
  have hlen : (fs.ino i).data.length = fs.view.size i := by rw [hdata, length_content]
  by_cases hok : off ≤ (fs.ino i).data.length ∧ off ≤ (off + n) % 2 ^ 32
  swap
  · rw [readi]
    refine wpe_bind (wpe_get ?_)
    rw [hsize, if_pos (by omega)]
    exact wpe_pure ⟨rfl, .inl ⟨hok, rfl⟩⟩
  have hat : ∀ {x}, x < fs.view.size i → _ := fun hx =>
    (h.toSettled.shows hpos hv).byteAt_eq h.good hi ha (h.good.has ha hx)
  refine (wp_mono (wp_readi_clip_stop (by rw [hsize]) (hsize ▸ hok.1) hok.2 fun x _ hx => (hat (by omega)).1)
    ?_).wpe
  rintro r fs' ⟨rfl, rfl⟩
  refine ⟨rfl, .inr ⟨hok, _, rfl, congrArg (Prod.mk _) ?_⟩⟩
  have hle := mapped_le dst (min n ((fs'.ino i).data.length - off)) (i := 0)
  refine List.ext_getElem (by simp; omega) fun x h1 h2 => ?_
  simp only [List.length_map, List.length_range] at h1
  rw [List.getElem_map, List.getElem_range, (hat (by omega)).2]
  simp [hdata, content]

/-- What `writei` leaves if it accepts the range: `tot` bytes are reported, and `k` more were copied before
one that is not mapped. -/
structure Writes (fs₀ : State) (held : Multiset (Ptr × Nat)) (lk : Finset Ptr) (i : Nat)
    (src : Nat → Option Byte) (off n : Nat) (fs : State) (tot k : Nat) (fs' : State) : Prop where
  le : tot ≤ n
  mapped : ∀ j < tot + k, (src j).isSome
  inside : Inside fs₀ held lk fs'
  ino : fs'.ino = update fs.ino i { fs.ino i with
    data := (splice (fs.ino i).data off (sourceBytes src (tot + k))).take
      (max (fs.ino i).data.length (off + tot)) }
  all : tot = n → k = 0
  short : tot < n → (k = 0 ∧ (∀ b < fs.sb.size, fs'.used b = true) ∧
    fs'.view.slot i (slotOf ((off + tot) / BSIZE)) = 0) ∨ (src (tot + k) = none ∧ tot + k < n)
  filled : Filled fs.sb i (spanSlots off n) fs.view fs'.view

/-- The state shows the slots of the view. -/
theorem Shows.filled (h : Shows fs' none v') (g : Good fs'.sb v')
    (hf : Filled fs'.sb i K v v') (ha : v.Allocated fs'.sb i) : Filled fs'.sb i K v fs'.view := by
  have hslot : ∀ {j}, v.Allocated fs'.sb j → ∀ k, fs'.view.slot j k = v'.slot j k := fun hal k =>
    h.slot_view g (hf.allocated.mpr hal) k
  refine ⟨fun j hj => ?_, fun j hj hal k => (hslot hal k).trans (hf.others j hj hal k),
    fun k hk hs => (hslot ha k).trans (hf.keep k hk hs), fun k hk hK => (hslot ha k).trans (hf.rest k hk hK)⟩
  rw [← hf.type j hj]
  exact congrArg Dinode.type (h.node j hj)

/-- **`writei`** replaces part of the contents of an inode. -/
theorem Inside.wpe_writei (h : Inside fs₀ held lk fs) (hlk : ip ∈ lk) (hi : (fs.itable ip).inum = i)
    (src : Nat → Option Byte) (off n : Nat) :
    wpe E (writei ip src off n) (fun r fs' => (BadRange fs.view i off n ∧ r = none ∧ fs' = fs) ∨
      (¬BadRange fs.view i off n ∧ ∃ tot k, r = some tot ∧ Writes fs₀ held lk i src off n fs tot k fs')) fs := by
  obtain ⟨hpos, hv, halive, hcopy, hlt⟩ := h.entry hlk hi
  have ha := allocated_iff.mpr halive
  have hdata : (fs.ino i).data = fs.view.content i := by
    rw [ino_eq hlt, ino_of_ne_zero ha.2]
  refine wpe_mono (Fs.wp_writei (h.toSettled.shows hpos hv) h.good hi ha src).wpe fun r fs' hr => ?_
  refine hr.imp_right ?_
  rintro ⟨hok, tot, k, v', rfl, w, hend⟩
  have hall := w.allocated ha
  have c : Changed ip i fs v' fs' := ⟨w.frame, w.after, w.good, w.copy, w.node, hall.2⟩
  refine ⟨hok, tot, k, rfl, w.le, w.mapped, c.inside h ⟨hpos, hi⟩, ino_ext c.frame.sb ?_ fun j hj hji => ?_,
    fun hall' => ?_, fun hshort => ?_, ?_⟩
  · rw [c.ino_eq hlt, w.self, hdata, ← ino_eq hlt, length_content]
  · rw [c.ino_eq hj, w.others j hj hji, ino_eq hj]
  · cases hend with
    | all hk => exact hk
    | full hk => exact hk
    | fault _ _ _ hlt => omega
  · cases hend with
    | all _ _ he => omega
    | full hk _ hfull hslot =>
      refine .inl ⟨hk, fun b hb => ?_, ?_⟩
      · rw [w.after.used b (c.frame.sb ▸ hb), hfull b hb]
      · rw [w.after.slot_view (c.frame.sb ▸ w.good) (c.frame.sb ▸ hall), hslot]
    | fault _ _ hsrc hlt =>
      rw [Nat.zero_add] at hsrc hlt
      exact .inr ⟨hsrc, hlt⟩
  · have hsb := c.frame.sb
    have := w.after.filled (hsb ▸ w.good) (hsb ▸ w.filled) (hsb ▸ ha)
    rwa [hsb] at this

/-! ## Space -/

/-- The number of free blocks. -/
def State.free (fs : State) : Nat := fs.view.free fs.sb

section Space

variable {src : Nat → Option Byte} {off n tot k : Nat} {K : Finset Nat}

section

variable (w : Writes fs₀ held lk i src off n fs tot k fs') (h : Inside fs₀ held lk fs)
  (halive : (fs.ino i).type ≠ 0)

include w h halive

/-- A write takes a free block for each slot that it fills. -/
theorem Writes.free_add_lacks (hK : spanSlots off n ⊆ K) (hlt : K ⊆ range NSLOT) :
    fs'.free + fs.view.lacks i K = fs.free + fs'.view.lacks i K := by
  have hsb : fs'.sb = fs.sb := w.inside.sb.trans h.sb.symm
  have := (w.filled.mono hK).free_add_lacks hlt h.good (hsb ▸ w.inside.good) (allocated_iff.mpr halive)
  rwa [State.free, State.free, hsb]

/-- A write that stops short lacked a block when there was none. -/
theorem Writes.all_of_free (hsrc : ∀ j < n, (src j).isSome) (hK : spanSlots off n ⊆ K)
    (hlt : K ⊆ range NSLOT) (hfree : fs.view.lacks i K ≤ fs.free) : tot = n := by
  by_contra hne
  have hshort : tot < n := lt_of_le_of_ne w.le hne
  have hsb : fs'.sb = fs.sb := w.inside.sb.trans h.sb.symm
  rcases w.short hshort with ⟨-, hused, hslot⟩ | ⟨hnone, hend⟩
  · have hzero : fs'.free = 0 := by
      rw [State.free, free, card_eq_zero, filter_eq_empty_iff]
      intro b hb
      rw [mem_range, hsb] at hb
      rw [show fs'.view.used b = fs'.used b from rfl, hused b hb]
      exact Bool.noConfusion
    have hmem : slotOf ((off + tot) / BSIZE) ∈ K :=
      hK (slotsFor_subset_span (by omega) (by omega) (slotOf_mem _))
    have hpos : 0 < fs'.view.lacks i K :=
      card_pos.mpr ⟨_, mem_filter.mpr ⟨hmem, hslot⟩⟩
    have := w.free_add_lacks h halive hK hlt
    omega
  · have := hsrc (tot + k) hend
    rw [hnone] at this
    cases this

end

/-- A write that did not stop short lacks no block. -/
theorem Writes.lacks_eq_zero (w : Writes fs₀ held lk i src off n fs n k fs')
    (halive : (fs.ino i).type ≠ 0) (hoff : off ≤ (fs.ino i).data.length) :
    fs'.view.lacks i (spanSlots off n) = 0 := by
  have hself : fs'.ino i = _ := (congrFun w.ino i).trans (update_self ..)
  have halive' : (fs'.ino i).type ≠ 0 := by
    rw [hself]
    exact halive
  have ha := allocated_iff.mpr halive'
  have hsize : off + n ≤ fs'.view.size i := by
    have hlen : fs'.view.size i = (fs'.ino i).data.length := (ino_size halive').symm
    rw [hlen, hself, w.all rfl]
    rw [List.length_take, length_splice hoff, sourceBytes, List.length_map, List.length_range]
    omega
  exact w.inside.good.lacks_eq_zero ha hsize

end Space

end Xv6.Fs
