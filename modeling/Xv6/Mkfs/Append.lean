/-
# Xv6.Mkfs.Append — `iappend` appends bytes to the contents of an inode.

The loop takes at most one block of bytes in a turn.  It keeps that the inode has the blocks that its
bytes need and no others (`Exact`), so a block is allocated exactly when the offset is at the start of
one, and `freeblock` counts the blocks that are needed.  If one is not there the image is full, and then
`rsect` does not return.
-/
import Xv6.Mkfs.Sectors
import Xv6.Fs.Content
import Mathlib.Data.List.GetD

namespace Xv6.Mkfs

open Lib Lib.Prog List Nat
open Xv6.Fs hiding State ialloc balloc

/-! ## The blocks that an inode needs -/

/-- The number of blocks of an inode with `len` bytes, its indirect block included. -/
def need (len : Nat) : Nat := (len + BSIZE - 1) / BSIZE + if NDIRECT * BSIZE < len then 1 else 0

theorem need_mono (h : a ≤ b) : need a ≤ need b := by
  rw [need, need, NDIRECT_eq, BSIZE_eq]
  split <;> split <;> omega

/-- The byte at `off` needs a direct block. -/
theorem need_direct (h : off / BSIZE < NDIRECT) :
    need (off + 1) = need off + if off / BSIZE * BSIZE < off then 0 else 1 := by
  rw [BSIZE_eq, NDIRECT_eq] at h
  rw [need, need, BSIZE_eq, NDIRECT_eq]
  split <;> split <;> split <;> omega

/-- The byte at `off` needs the indirect block and an entry in it. -/
theorem need_indirect (h : ¬off / BSIZE < NDIRECT) :
    need (off + 1) = need off + (if NDIRECT * BSIZE < off then 0 else 1) +
      if off / BSIZE * BSIZE < off then 0 else 1 := by
  rw [BSIZE_eq, NDIRECT_eq] at h
  rw [need, need, BSIZE_eq, NDIRECT_eq]
  split <;> split <;> split <;> omega

theorem need_block (hpos : 0 < m) (h : off % BSIZE + m ≤ BSIZE) :
    need (off + m) = need (off + 1) := by
  rw [BSIZE_eq] at h
  rw [need, need, BSIZE_eq, NDIRECT_eq]
  split <;> split <;> omega

/-- Inode `i` has the blocks that `len` bytes need, and no others. -/
structure Exact (v : View) (i len : Nat) : Prop where
  block : ∀ bn < MAXFILE, (v.slot i (slotOf bn) ≠ 0 ↔ bn * BSIZE < len)
  indirect : v.slot i NDIRECT ≠ 0 ↔ NDIRECT * BSIZE < len

theorem Exact.of_slot (h : Exact v i len)
    (hs : ∀ k, v'.slot i k = v.slot i k) : Exact v' i len :=
  ⟨fun bn hbn => by rw [hs]; exact h.block bn hbn, by rw [hs]; exact h.indirect⟩

/-- Within a block it does not matter where the contents end. -/
theorem Exact.of_block (h : Exact v i (off + 1)) (hpos : 0 < m)
    (hm : off % BSIZE + m ≤ BSIZE) : Exact v i (off + m) := by
  refine ⟨fun bn hbn => (h.block bn hbn).trans ?_, h.indirect.trans ?_⟩
  · rw [BSIZE_eq] at hm ⊢
    omega
  · rw [BSIZE_eq] at hm ⊢
    rw [NDIRECT_eq]
    omega

/-! ## Finding a block -/

section

variable {n i : Nat} {s s' s'' : State} {v v' v'' : View} {E : String → Prop}

/-- From `s` to `s'` slot `k` of the inode in memory got a block, unless it had one. -/
structure Stage (n i k : Nat) (s : State) (v : View) (s' : State) (v' : View) : Prop where
  after : Shows n s' (some i) v'
  good : Good (sbOf n) v'
  grown : Grown (sbOf n) i v v'
  slot : v'.slot i k ≠ 0
  rest : ∀ t < NSLOT, t ≠ k → v'.slot i t = v.slot i t
  count : s'.freeblock.toNat = s.freeblock.toNat + if v.slot i k ≠ 0 then 0 else 1
  ids : s'.ids = s.ids

variable (h : Shows n s (some i) v) (g : Good (sbOf n) v) (ha : v.Allocated (sbOf n) i)

include h g in
theorem Stage.refl (hs : v.slot i k ≠ 0) : Stage n i k s v s v :=
  ⟨h, g, Grown.refl .., hs, fun _ _ _ => rfl, by rw [if_pos hs]; rfl, rfl⟩

include h in
theorem Shows.used_next : v.used s.freeblock.toNat = false := by
  rw [h.used]
  exact decide_eq_false (lt_irrefl _)

include h g in
/-- The next block is placed in slot `k`. -/
theorem Stage.of_placed (h0 : v.slot i k = 0) (hlt : s.freeblock.toNat < FSSIZE)
    (hp : Placed (sbOf n) i k s.freeblock v v') (hs : Shows n s' (some i) v')
    (hf : s'.freeblock = s.freeblock + 1) (hids : s'.ids = s.ids) : Stage n i k s v s' v' where
  after := hs
  good := hp.good
  grown := hp.grown
  slot := by
    rw [hp.slot]
    exact g.layout.ne_zero ((data_iff n _).mpr ⟨h.bound.1, hlt⟩)
  rest := hp.rest
  count := by
    rw [FSSIZE_eq] at hlt
    rw [if_neg (fun hne => hne h0), hf, BitVec.toNat_add]
    exact mod_eq_of_lt (by show _ + 1 < 2 ^ 32; omega)
  ids := hids

include h g ha

/-- A block number of the dinode is found or allocated, and the block is read. -/
theorem wpe_addr {α : Type} {Q : α → State → Prop} {f : Dinode → Block → Prog State α}
    (k : Fin (NDIRECT + 1)) (hE : v.slot i k = 0 → FSSIZE ≤ s.freeblock.toNat → ∀ msg, E msg)
    (hf : ∀ s' v', Stage n i k s v s' v' →
      wpe E (f (v'.dinode i) (v'.data (v'.slot i k).toNat)) Q s') :
    wpe E (do
      let din ← if (v.dinode i).addrs k = 0 then (v.dinode i).setAddr k <$> nextBlock
        else pure (v.dinode i)
      let buf ← rsect (din.addrs k)
      f din buf) Q s := by
  have hk : k.val < NSLOT := lt_of_lt_of_le k.isLt (by decide)
  rw [← View.slot_fin]
  by_cases h0 : v.slot i k = 0
  · rw [if_pos h0]
    refine wpe_bind (wpe_map (wpe_nextBlock ?_))
    have hx : ((v.dinode i).setAddr k s.freeblock).addrs k = s.freeblock := by
      rw [Dinode.addrs_setAddr, Function.update_self]
    beta_reduce
    rw [hx]
    by_cases hlt : s.freeblock.toNat < FSSIZE
    · have hp : Placed (sbOf n) i k s.freeblock v
          ((v.alloc s.freeblock.toNat).setAddr i k s.freeblock) := by
        by_cases hlast : k = Fin.last NDIRECT
        · subst hlast
          exact g.allocIndirect ha h0 hlt h.used_next
        · exact g.allocDirect ha hlast h0 hlt h.used_next
      have hs := (h.next hlt).setNode ((v.dinode i).setAddr k s.freeblock)
      have hstage := Stage.of_placed h g h0 hlt hp hs rfl rfl
      refine wpe_bind (wpe_rsect h.len hlt ?_)
      have hrun := hf _ _ hstage
      rw [hp.slot, ← hstage.after.data _ ((data_iff n _).mpr ⟨h.bound.1, hlt⟩), View.setAddr,
        View.dinode_setNode_self] at hrun
      exact hrun
    · have heq : s.freeblock.toNat = FSSIZE := by
        have := h.bound.2
        omega
      exact wpe_bind (wpe_rsect_end h.len heq (hE h0 heq.ge))
  · rw [if_neg h0]
    refine wpe_bind (wpe_pure ?_)
    have hd := g.slot_data ha hk h0
    beta_reduce
    rw [← View.slot_fin]
    refine wpe_bind (wpe_rsect h.len ((data_iff n _).mp hd).2 ?_)
    rw [h.data _ hd]
    exact hf s v (Stage.refl h g h0)

/-- An entry of the indirect block is found or allocated, and the block is read. -/
theorem wpe_entry {α : Type} {Q : α → State → Prop} {f : BitVec 32 → Block → Prog State α}
    (hn : n / IPB = 12) (he : e < NINDIRECT) (hind : v.slot i NDIRECT ≠ 0)
    (hE : v.slot i (NDIRECT + 1 + e) = 0 → FSSIZE ≤ s.freeblock.toNat → ∀ msg, E msg)
    (hf : ∀ s' v', Stage n i (NDIRECT + 1 + e) s v s' v' → v'.dinode i = v.dinode i →
      wpe E (f (v'.slot i (NDIRECT + 1 + e)) (v'.data (v'.slot i (NDIRECT + 1 + e)).toNat)) Q s') :
    wpe E (do
      let x ←
        if entry (v.data (v.slot i NDIRECT).toNat) e = 0 then do
          let b ← nextBlock
          wsect (v.slot i NDIRECT) (setEntry e b (v.data (v.slot i NDIRECT).toNat))
          pure b
        else pure (entry (v.data (v.slot i NDIRECT).toNat) e)
      let buf ← rsect x
      f x buf) Q s := by
  have hk : NDIRECT + 1 + e < NSLOT := by
    rw [NSLOT]
    omega
  have hc := g.slot_data ha (show NDIRECT < NSLOT by decide) hind
  have hentry : v.slot i (NDIRECT + 1 + e) = entry (v.data (v.slot i NDIRECT).toNat) e := by
    have hi : (v.dinode i).indirect = v.slot i NDIRECT := by rw [View.slot, Dinode.slot_NDIRECT]
    rw [View.slot, Dinode.slot, dif_neg (by omega), hi, if_neg hind, Nat.add_sub_cancel_left]
  rw [← hentry]
  by_cases h0 : v.slot i (NDIRECT + 1 + e) = 0
  · rw [if_pos h0]
    refine wpe_bind (wpe_nextBlock (wpe_bind (wpe_wsect ((data_iff n _).mp hc).2
      (wpe_bind (wpe_pure ?_)))))
    by_cases hlt : s.freeblock.toNat < FSSIZE
    · have hp := g.allocEntry ha hind he h0 hlt h.used_next
      have hnext := h.next hlt
      -- the indirect block is used, so it is not the block that is allocated
      have hne := g.slot_ne_free ha (show NDIRECT < NSLOT by decide) hind h.used_next
      have hused : (v.slot i NDIRECT).toNat < (s.freeblock + 1).toNat := by
        have hu := g.owns.used_of_own (View.own_of_slot ha (show NDIRECT < NSLOT by decide) hind)
        have hn := hnext.used (v.slot i NDIRECT).toNat
        rw [View.alloc, View.write, View.used_mark_ne hne, hu] at hn
        exact of_decide_eq_true hn.symm
      have hs := hnext.write hn hc hused (setEntry e s.freeblock)
      have himg : s.img (v.slot i NDIRECT).toNat = v.data (v.slot i NDIRECT).toNat := h.data _ hc
      have hstage := Stage.of_placed h g h0 hlt hp hs rfl rfl
      have hrun := hf _ _ hstage rfl
      have hfree : (sbOf n).Data s.freeblock.toNat := (data_iff n _).mpr ⟨h.bound.1, hlt⟩
      rw [hp.slot, ← hs.data _ hfree] at hrun
      rw [← himg]
      exact wpe_bind (wpe_rsect hs.len hlt hrun)
    · have heq : s.freeblock.toNat = FSSIZE := by
        have := h.bound.2
        omega
      exact wpe_bind (wpe_rsect_end (State.len_put h.len ((data_iff n _).mp hc).2) heq
        (hE h0 heq.ge))
  · rw [if_neg h0]
    refine wpe_bind (wpe_pure ?_)
    have hd := g.slot_data ha hk h0
    refine wpe_bind (wpe_rsect h.len ((data_iff n _).mp hd).2 ?_)
    rw [h.data _ hd]
    exact hf s v (Stage.refl h g h0) rfl

/-- **`iappendBlock`** finds the block for the byte at `off`, or makes the inode grow by it. -/
theorem wpe_iappendBlock (hn : n / IPB = 12) (hex : Exact v i off)
    (hoff : off / BSIZE < MAXFILE)
    (hE : FSSIZE < s.freeblock.toNat + (need (off + 1) - need off) → ∀ msg, E msg) :
    wpe E (iappendBlock (v.dinode i) (off / BSIZE)) (fun r s' => ∃ v',
      Shows n s' (some i) v' ∧ Good (sbOf n) v' ∧ Grown (sbOf n) i v v' ∧ Exact v' i (off + 1) ∧
      r = (v'.dinode i, v'.slot i (slotOf (off / BSIZE)),
        v'.data (v'.slot i (slotOf (off / BSIZE))).toNat) ∧
      s'.freeblock.toNat + need off = s.freeblock.toNat + need (off + 1) ∧ s'.ids = s.ids) s := by
  have hb := hex.block _ hoff
  -- the slots that the byte at `off` needs are those of the blocks that end at `off`, and its own
  have hexact : ∀ {v' : View}, (∀ bn < MAXFILE, bn ≠ off / BSIZE →
        v'.slot i (slotOf bn) = v.slot i (slotOf bn)) → v'.slot i (slotOf (off / BSIZE)) ≠ 0 →
      (v'.slot i NDIRECT ≠ 0 ↔ NDIRECT * BSIZE < off + 1) → Exact v' i (off + 1) :=
    fun hrest hself hind => ⟨fun bn hbn => by
      by_cases hbo : bn = off / BSIZE
      · subst hbo
        refine ⟨fun _ => ?_, fun _ => hself⟩
        rw [BSIZE_eq]
        omega
      · rw [hrest bn hbn hbo, hex.block bn hbn]
        rw [BSIZE_eq] at hbo ⊢
        omega, hind⟩
  rw [iappendBlock]
  by_cases hdir : off / BSIZE < NDIRECT
  · rw [dif_pos hdir]
    have hneed := need_direct hdir
    have hslot : slotOf (off / BSIZE) = off / BSIZE := if_pos hdir
    rw [hslot] at hb ⊢
    refine wpe_addr h g ha ⟨off / BSIZE, _⟩ (fun h0 hfull => hE ?_) fun s' v' st => wpe_pure ?_
    · rw [if_neg fun hlt => hb.mpr hlt h0] at hneed
      omega
    · have hcount := st.count
      simp only [hb] at hcount
      refine ⟨v', st.after, st.good, st.grown, hexact (fun bn hbn hne => ?_) ?_ ?_, ?_, by omega,
        st.ids⟩
      · exact st.rest _ (slotOf_lt hbn) fun e => hne (slotOf_inj (e.trans hslot.symm))
      · rw [hslot]
        exact st.slot
      · rw [st.rest NDIRECT (by decide) (ne_of_gt hdir), hex.indirect]
        rw [BSIZE_eq, NDIRECT_eq] at hdir ⊢
        omega
      · rw [← View.slot_fin]
  · rw [dif_neg hdir]
    have hneed := need_indirect hdir
    set e := off / BSIZE - NDIRECT with he
    have hlt : e < NINDIRECT := by
      rw [MAXFILE] at hoff
      omega
    have hslot : slotOf (off / BSIZE) = NDIRECT + 1 + e := by
      rw [slotOf, if_neg hdir]
      omega
    have hne : NDIRECT + 1 + e ≠ NDIRECT := by omega
    rw [hslot] at hb ⊢
    refine wpe_addr h g ha (Fin.last NDIRECT) (fun h0 hfull => hE ?_) fun s1 v₁ st1 => ?_
    · rw [if_neg fun hlt => hex.indirect.mpr hlt h0] at hneed
      omega
    rw [Fin.val_last] at st1 ⊢
    have hc1 := st1.count
    have hs1 : v₁.slot i (NDIRECT + 1 + e) = v.slot i (NDIRECT + 1 + e) :=
      st1.rest _ (hslot ▸ slotOf_lt hoff) hne
    have hk : (v₁.dinode i).addrs (Fin.last NDIRECT) = v₁.slot i NDIRECT := (View.slot_fin ..).symm
    refine wpe_entry st1.after st1.good (st1.grown.allocated.mpr ha) hn hlt st1.slot
      (fun h0 hfull => hE ?_) fun s2 v₂ st2 hd => wpe_pure ?_
    · rw [hs1] at h0
      simp only [hex.indirect] at hc1
      rw [if_neg fun hlt => hb.mpr hlt h0] at hneed
      omega
    · have hc2 := st2.count
      simp only [hs1, hb] at hc2
      simp only [hex.indirect] at hc1
      refine ⟨v₂, st2.after, st2.good, st1.grown.trans st2.grown, hexact (fun bn hbn hbo => ?_) ?_ ?_, ?_,
        by omega, st2.ids.trans st1.ids⟩
      · have hk : slotOf bn ≠ NDIRECT + 1 + e := fun e => hbo (slotOf_inj (e.trans hslot.symm))
        rw [st2.rest _ (slotOf_lt hbn) hk, st1.rest _ (slotOf_lt hbn) (slotOf_ne bn)]
      · rw [hslot]
        exact st2.slot
      · rw [st2.rest NDIRECT (by decide) hne.symm]
        refine ⟨fun _ => ?_, fun _ => st1.slot⟩
        rw [BSIZE_eq, NDIRECT_eq] at hdir ⊢
        omega
      · rw [hd]

end

/-! ## The loop -/

/-- Inode `j` is the same in two views. -/
structure Same (n j : Nat) (v v' : View) : Prop where
  node : v'.dinode j = v.dinode j
  ino : v'.ino j = v.ino j
  slot : v.Allocated (sbOf n) j → ∀ k, v'.slot j k = v.slot j k

theorem Same.refl (n j : Nat) (v : View) : Same n j v v := ⟨rfl, rfl, fun _ _ => rfl⟩

theorem Same.trans (h : Same n j v v') (h' : Same n j v' v'') :
    Same n j v v'' := by
  refine ⟨h'.node.trans h.node, h'.ino.trans h.ino, fun ha k => ?_⟩
  have ha' : v'.Allocated (sbOf n) j := ⟨ha.1, by rw [h.node]; exact ha.2⟩
  exact (h'.slot ha' k).trans (h.slot ha k)

/-- From `v` to `v'` the blocks of inode `i` were made to hold the bytes `c`; its size is not written
yet. -/
structure Appending (n i : Nat) (v : View) (c : List Byte) (v' : View) : Prop where
  good : Good (sbOf n) v'
  exact : Exact v' i c.length
  bytes : ∀ x < c.length, v'.byte i x = c.getD x 0
  fields : ∃ addrs, v'.dinode i = { v.dinode i with addrs := addrs }
  others : ∀ j < n, j ≠ i → Same n j v v'
  bound : c.length ≤ MAXFILE * BSIZE

namespace Appending

variable {n i : Nat} {v v₁ v₂ : View} {c q : List Byte}

theorem allocated (h : Appending n i v c v₁) (ha : v.Allocated (sbOf n) i) :
    v₁.Allocated (sbOf n) i := by
  obtain ⟨addrs, he⟩ := h.fields
  exact ⟨ha.1, by rw [he]; exact ha.2⟩

/-- The bytes that the blocks hold are in blocks. -/
theorem has (hex : Exact v i (c.length + 1)) (hc : c.length / BSIZE < MAXFILE)
    (hx : x / BSIZE ≤ c.length / BSIZE) : v.Has i x := by
  refine ⟨by omega, (hex.block _ (by omega)).mpr ?_⟩
  rw [BSIZE_eq] at hx ⊢
  omega

/-- A piece of at most the rest of a block is written to the block that has been found. -/
theorem piece (h : Appending n i v c v₁) (ha : v.Allocated (sbOf n) i)
    (hc : c.length / BSIZE < MAXFILE) (g : Good (sbOf n) v₂) (gr : Grown (sbOf n) i v₁ v₂)
    (hex : Exact v₂ i (c.length + 1)) (hpos : 0 < q.length) (hq : c.length % BSIZE + q.length ≤ BSIZE) :
    Appending n i v (c ++ q) (v₂.write (v₂.slot i (slotOf (c.length / BSIZE))).toNat
      (patch (c.length % BSIZE) q.length fun j => q.getD j 0)) := by
  have ha1 := h.allocated ha
  have ha2 := gr.allocated.mpr ha1
  have hhas : ∀ {x}, x / BSIZE ≤ c.length / BSIZE → v₂.Has i x := has hex hc
  have hs := (hhas (le_refl _)).2
  refine ⟨g.write ha2 (slotOf_lt hc) hs (slotOf_ne _) _, ?_, fun x hx => ?_, ?_, fun j hj hji => ?_,
    ?_⟩
  · rw [length_append]
    exact (hex.of_block hpos hq).of_slot fun k =>
      g.slot_write ha2 (slotOf_lt hc) hs (slotOf_ne _) ha2 _ k
  · rw [length_append] at hx
    have hblk : x / BSIZE ≤ c.length / BSIZE := by
      rw [BSIZE_eq] at hq ⊢
      omega
    rw [(g.byte_patch ha2 (hhas (le_refl _)) hq _ (hhas hblk)).2]
    by_cases hold : x < c.length
    · have hx1 : v₁.Has i x := by
        refine ⟨by omega, (h.exact.block _ (by omega)).mpr ?_⟩
        rw [BSIZE_eq]
        omega
      rw [if_neg (by omega), (gr.byte ha1 hx1).2, h.bytes x hold, getD_append _ _ _ _ hold]
    · rw [if_pos (by omega), getD_append_right _ _ _ _ (by omega)]
  · obtain ⟨addrs, he⟩ := h.fields
    obtain ⟨addrs', he'⟩ := gr.fields
    exact ⟨addrs', by show v₂.dinode i = _; rw [he', he]⟩
  · refine (h.others j hj hji).trans ⟨gr.node j hji, ?_, fun hal k => ?_⟩
    · rw [g.ino_write ha2 (slotOf_lt hc) hs (slotOf_ne _) hj hji, gr.ino h.good hj]
    · rw [g.slot_write ha2 (slotOf_lt hc) hs (slotOf_ne _) (gr.allocated.mpr hal), gr.slots j hji hal]
  · rw [MAXFILE_eq, BSIZE_eq] at hc ⊢
    rw [BSIZE_eq] at hq
    rw [length_append]
    omega

end Appending

section

variable {n i : Nat} {s : State} {v v₁ : View} {E : String → Prop}

/-- **The loop of `iappend`** puts the bytes behind those that the blocks hold. -/
theorem wpe_iappendLoop (hn : n / IPB = 12) (ha : v.Allocated (sbOf n) i)
    (hfuel : p.length ≤ fuel) (h : Shows n s (some i) v₁) (app : Appending n i v c v₁)
    (hE : MAXFILE * BSIZE < (c ++ p).length ∨
      FSSIZE < s.freeblock.toNat + (need (c ++ p).length - need c.length) → ∀ msg, E msg) :
    wpe E (iappendLoop fuel (v₁.dinode i) c.length p) (fun r s' => ∃ v₂, Shows n s' (some i) v₂ ∧
      Appending n i v (c ++ p) v₂ ∧ r = (v₂.dinode i, (c ++ p).length) ∧
      s'.freeblock.toNat + need c.length = s.freeblock.toNat + need (c ++ p).length ∧
      s'.ids = s.ids) s := by
  induction fuel generalizing s v₁ p c with
  | zero =>
    obtain rfl : p = [] := length_eq_zero_iff.mp (le_zero.mp hfuel)
    rw [iappendLoop, append_nil]
    exact wpe_pure ⟨v₁, h, app, rfl, rfl, rfl⟩
  | succ fuel ih =>
    rw [iappendLoop]
    by_cases hp : p.length = 0
    · obtain rfl : p = [] := length_eq_zero_iff.mp hp
      rw [if_pos hp, append_nil]
      exact wpe_pure ⟨v₁, h, app, rfl, rfl, rfl⟩
    rw [if_neg hp]
    rw [length_append] at hE
    by_cases hc : c.length / BSIZE < MAXFILE
    · rw [if_neg (not_not.mpr hc)]
      have hmono : need (c.length + 1) ≤ need (c.length + p.length) := need_mono (by omega)
      refine wpe_seq (wpe_iappendBlock h app.good (app.allocated ha) hn app.exact hc
        fun hfull => hE (.inr (by omega))) ?_
      rintro r s' ⟨v₂, h2, g2, gr, hex, rfl, hcount, hids⟩
      set m := min p.length ((c.length / BSIZE + 1) * BSIZE - c.length) with hm
      set x := v₂.slot i (slotOf (c.length / BSIZE)) with hx
      have hpos : 0 < m ∧ c.length % BSIZE + m ≤ BSIZE ∧ m ≤ p.length := by
        rw [BSIZE_eq] at hm ⊢
        omega
      have hq : (p.take m).length = m := length_take_of_le hpos.2.2
      have app2 := app.piece (q := p.take m) ha hc g2 gr hex (by omega) (by omega)
      have hxs := (Appending.has hex hc (le_refl _)).2
      have ha2 := gr.allocated.mpr (app.allocated ha)
      have hxd := g2.slot_data ha2 (slotOf_lt hc) hxs
      have hxu : x.toNat < s'.freeblock.toNat := by
        have hu := g2.owns.used_of_own (View.own_of_slot ha2 (slotOf_lt hc) hxs)
        rw [h2.used] at hu
        exact of_decide_eq_true hu
      -- the bytes that are copied are those of the piece
      have hpatch : patch (c.length - c.length / BSIZE * BSIZE) m (fun j => p.getD j 0)
            (v₂.data x.toNat) =
          patch (c.length % BSIZE) (p.take m).length (fun j => (p.take m).getD j 0) (s'.img x.toNat) := by
        rw [h2.data _ hxd, hq, ← mod_eq_sub_div_mul]
        refine funext fun y => ?_
        simp only [patch]
        split
        · rw [getD_eq_getElem?_getD, getD_eq_getElem?_getD, getElem?_take,
            if_pos (by omega)]
        · rfl
      refine wpe_bind (wpe_wsect ((data_iff n _).mp hxd).2 ?_)
      rw [hpatch]
      have h3 := h2.write hn hxd hxu (patch (c.length % BSIZE) (p.take m).length
        fun j => (p.take m).getD j 0)
      have hlen : c.length + m = (c ++ p.take m).length := by rw [length_append, hq]
      have hsplit : (c ++ p.take m) ++ p.drop m = c ++ p := by
        rw [append_assoc, take_append_drop]
      have hneed : need (c ++ p.take m).length = need (c.length + 1) := by
        rw [← hlen]
        exact need_block hpos.1 hpos.2.1
      rw [hlen]
      have hrest := ih (p := p.drop m) (by rw [length_drop]; omega) h3 app2 fun hfull => hE ?_
      · refine wpe_mono hrest ?_
        rw [hsplit]
        rintro r s3 ⟨v₃, h4, app3, rfl, hcount3, hids3⟩
        have hcount3 : s3.freeblock.toNat + need (c ++ p.take m).length =
          s'.freeblock.toNat + need (c ++ p).length := hcount3
        exact ⟨v₃, h4, app3, rfl, by omega, hids3.trans hids⟩
      · rw [hsplit, length_append, hneed] at hfull
        refine hfull.imp_right fun hfull => ?_
        have hfull : FSSIZE < s'.freeblock.toNat + (need (c.length + p.length) - need (c.length + 1)) :=
          hfull
        omega
    · rw [if_pos hc]
      refine wpe_stop (hE (.inl ?_) _)
      rw [MAXFILE_eq, BSIZE_eq] at hc ⊢
      omega

end

end Xv6.Mkfs
