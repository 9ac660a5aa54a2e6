/-
# Xv6.Fs.Bmap — `bmap` and `itrunc`.

`bmap` finds or allocates the block with a given index, in up to two steps each of which may run out of
blocks after the other succeeded; whatever it stops after, what it allocated is in a slot.  `itrunc`
frees the blocks in the slots of one inode and no others, so `bfree` never meets a block that is free.
-/
import Xv6.Fs.Disk
import Xv6.Fs.Space

namespace Xv6.Fs

open Lib Lib.Prog Dinode

variable {fs fs' fs'' : State} {v v' : View} {ip : Ptr} {i b bn : Nat}

/-! ## `bmap` -/

theorem Shows.addr (h : Shows fs (some ip) v) (hi : (fs.itable ip).inum = i)
    (hlt : i < fs.sb.ninodes) (k : Fin (NDIRECT + 1)) : (fs.itable ip).addrs k = v.slot i k := by
  rw [View.slot_fin, ← h.copy hi hlt]

/-- What `bmap` and its parts leave: the state shows a good view in which inode `i` has what it had, and
slot `s` has the address that is returned, unless that is 0 and every block is used. -/
structure Mapped (ip : Ptr) (i s : Nat) (fs : State) (v : View) (a : BitVec 32) (fs' : State)
    (v' : View) : Prop where
  evolves : Evolves (some ip) fs fs'
  after : Shows fs' (some ip) v'
  good : Good fs.sb v'
  grown : Grown fs.sb i v v'
  result : (a = 0 ∧ v'.slot i s = 0 ∧ ∀ b < fs.sb.size, v'.used b = true) ∨
    (a ≠ 0 ∧ v'.slot i s = a)
  same : v.slot i s ≠ 0 → fs' = fs ∧ v' = v
  rest : ∀ k < NSLOT, k ≠ s → ¬(k = NDIRECT ∧ NDIRECT < s) → v'.slot i k = v.slot i k

/-- The slots that `bmap` may fill. -/
theorem Mapped.filled (m : Mapped ip i (slotOf bn) fs v a fs' v') :
    Filled fs.sb i (slotsFor bn) v v' := by
  refine m.grown.filled fun k hk hn => m.rest k hk (fun he => hn (he ▸ slotOf_mem bn)) fun he => hn ?_
  have hbn : ¬bn < NDIRECT := fun hlt => by
    rw [slotOf, if_pos hlt] at he
    omega
  rw [slotsFor, if_neg hbn, he.1]
  exact Finset.mem_insert_self _ _

section bmap

variable (h : Shows fs (some ip) v) (g : Good fs.sb v) (hi : (fs.itable ip).inum = i)
  (ha : v.Allocated fs.sb i)

include h g hi ha

theorem wp_bmapAddr (k : Fin (NDIRECT + 1)) :
    wp (bmapAddr ip k) (fun a fs' => ∃ v', Mapped ip i k fs v a fs' v') fs := by
  rw [bmapAddr]
  refine wp_bind (wp_get ?_)
  have hk := h.addr hi ha.1 k
  rw [hk]
  by_cases h0 : v.slot i k = 0
  · rw [if_pos h0]
    refine wp_seq (wp_balloc h g) ?_
    rintro a fs1 ⟨e1, hcase⟩
    rcases hcase with ⟨rfl, rfl, hall⟩ | ⟨hlt, hfree, h1⟩
    · rw [if_pos rfl]
      exact wp_pure ⟨v, Evolves.refl _ _, h, g, Grown.refl .., .inl ⟨rfl, h0, hall⟩,
        fun hne => absurd h0 hne, fun _ _ _ _ => rfl⟩
    · have hnz := g.layout.ne_zero (g.data_of_free hlt hfree)
      rw [if_neg hnz]
      have hi1 : (fs1.itable ip).inum = i := by rw [e1.inum, hi]
      have hlt1 : i < fs1.sb.ninodes := by rw [e1.sb]; exact ha.1
      have hcopy : (fs1.itable ip).toDinode = (v.alloc a.toNat).dinode i := h1.copy hi1 hlt1
      refine wp_bind (wp_setInode (wp_pure ?_))
      refine ⟨(v.alloc a.toNat).setAddr i k a, ?_⟩
      have hshow := h1.setEntry hi1 (((v.alloc a.toNat).dinode i).setAddr k a)
      rw [← hcopy] at hshow
      have placed : Placed fs.sb i k a v ((v.alloc a.toNat).setAddr i k a) := by
        by_cases hlast : k = Fin.last NDIRECT
        · subst hlast
          exact g.allocIndirect ha h0 hlt hfree
        · exact g.allocDirect ha hlast h0 hlt hfree
      refine ⟨e1.of_none.trans (Evolves.setEntry ..), ?_, placed.good, placed.grown,
        .inr ⟨hnz, placed.slot⟩,
        fun hne => absurd h0 hne, fun s hs hne _ => placed.rest s hs hne⟩
      rw [hcopy] at hshow
      rw [hcopy]
      exact hshow
  · rw [if_neg h0]
    exact wp_pure ⟨v, Evolves.refl _ _, h, g, Grown.refl .., .inr ⟨h0, rfl⟩, fun _ => ⟨rfl, rfl⟩,
      fun _ _ _ _ => rfl⟩

/-- **`bmap`** finds or allocates the block, and never panics below `MAXFILE`. -/
theorem wp_bmap (hbn : bn < MAXFILE) :
    wp (bmap ip bn) (fun a fs' => ∃ v', Mapped ip i (slotOf bn) fs v a fs' v') fs := by
  rw [bmap]
  by_cases hdir : bn < NDIRECT
  · rw [dif_pos hdir, slotOf, if_pos hdir]
    exact wp_bmapAddr h g hi ha ⟨bn, _⟩
  rw [dif_neg hdir]
  have hlt : bn - NDIRECT < NINDIRECT := by
    rw [MAXFILE] at hbn
    omega
  have hslot : slotOf bn = NDIRECT + 1 + (bn - NDIRECT) := by
    rw [slotOf, if_neg hdir]
    omega
  have hsl : slotOf bn < NSLOT := slotOf_lt hbn
  rw [if_pos hlt, hslot]
  rw [hslot] at hsl
  refine wp_seq (wp_bmapAddr h g hi ha (Fin.last NDIRECT)) ?_
  rintro c fs1 ⟨v1, m1⟩
  rw [Fin.val_last] at m1
  have hold : v1.slot i (NDIRECT + 1 + (bn - NDIRECT)) = 0 →
      v.slot i (NDIRECT + 1 + (bn - NDIRECT)) = 0 := fun h0 => by
    by_contra hne
    rw [m1.grown.slot _ hsl hne] at h0
    exact hne h0
  have hrest : ∀ k < NSLOT, k ≠ NDIRECT + 1 + (bn - NDIRECT) →
      ¬(k = NDIRECT ∧ NDIRECT < NDIRECT + 1 + (bn - NDIRECT)) → v1.slot i k = v.slot i k :=
    fun k hk _ hn => m1.rest k hk (fun he => hn ⟨he, by omega⟩) fun he => absurd he.2 (by omega)
  rcases m1.result with ⟨rfl, h0, hall⟩ | ⟨hc, hself⟩
  · -- out of blocks for the indirect block
    rw [if_pos rfl]
    have hz := View.slot_of_indirect (k := NDIRECT + 1 + (bn - NDIRECT)) h0 (by omega)
    exact wp_pure ⟨v1, m1.evolves, m1.after, m1.good, m1.grown, .inl ⟨rfl, hz, hall⟩,
      fun hne => absurd (hold hz) hne, hrest⟩
  rw [if_neg hc]
  refine wp_bind (wp_get ?_)
  have ha1 : v1.Allocated fs.sb i := m1.grown.allocated.mpr ha
  have hind : (v1.dinode i).indirect = c := by rw [← hself, View.slot, slot_NDIRECT]
  have hcdata : fs.sb.Data c.toNat := hself ▸ m1.good.slot_data ha1 (by decide) (by rw [hself]; exact hc)
  have hread : entry (fs1.buf c.toNat) (bn - NDIRECT) = v1.slot i (NDIRECT + 1 + (bn - NDIRECT)) := by
    rw [m1.after.data _ (by rw [m1.evolves.sb]; exact hcdata), View.slot, slot,
      dif_neg (by omega), hind, if_neg hc, Nat.add_sub_cancel_left]
  rw [hread]
  by_cases h0 : v1.slot i (NDIRECT + 1 + (bn - NDIRECT)) = 0
  · rw [if_pos h0]
    refine wp_seq (wp_balloc m1.after (by rw [m1.evolves.sb]; exact m1.good)) ?_
    rintro a fs2 ⟨e2, hcase⟩
    rw [m1.evolves.sb] at hcase
    rcases hcase with ⟨rfl, rfl, hall⟩ | ⟨halt, hfree, h2⟩
    · rw [if_pos rfl]
      exact wp_pure ⟨v1, m1.evolves, m1.after, m1.good, m1.grown, .inl ⟨rfl, h0, hall⟩,
        fun hne => absurd (hold h0) hne, hrest⟩
    · have hnz := g.layout.ne_zero (m1.good.data_of_free halt hfree)
      rw [if_neg hnz]
      have hsb : fs2.sb = fs.sb := e2.sb.trans m1.evolves.sb
      obtain ⟨gr, gd, hs, hother⟩ := m1.good.allocEntry ha1 (by rw [hself]; exact hc) hlt h0 halt hfree
      rw [hself] at gr gd hs hother
      refine wp_bind (wp_logData (wp_pure ⟨_, (m1.evolves.trans e2.of_none).trans
        (Evolves.upd ..).of_none, h2.write (by rw [hsb]; exact g.layout) (by rw [hsb]; exact hcdata) _,
        gd, m1.grown.trans gr, .inr ⟨hnz, hs⟩, fun hne => absurd (hold h0) hne,
        fun k hk hne hn => (hother k hk hne).trans (hrest k hk hne hn)⟩))
  · rw [if_neg h0]
    refine wp_pure ⟨v1, m1.evolves, m1.after, m1.good, m1.grown, .inr ⟨h0, rfl⟩, fun hne => ?_, hrest⟩
    exact m1.same fun hz => hne (View.slot_of_indirect hz (by omega))

end bmap

/-- A block that is there is found, and nothing changes. -/
theorem wp_bmap_of_slot (hbn : bn < MAXFILE)
    (hs : (fs.itable ip).toDinode.slot fs.buf (slotOf bn) ≠ 0) :
    wp (bmap ip bn) (fun a fs' => fs' = fs ∧ a = (fs.itable ip).toDinode.slot fs.buf (slotOf bn)) fs := by
  set n := (fs.itable ip).toDinode with hn
  have haddr : ∀ k : Fin (NDIRECT + 1), n.addrs k ≠ 0 →
      wp (bmapAddr ip k) (fun a fs' => fs' = fs ∧ a = n.addrs k) fs := fun k hk => by
    rw [bmapAddr]
    refine wp_bind (wp_get ?_)
    rw [← hn, if_neg hk]
    exact wp_pure ⟨rfl, rfl⟩
  rw [bmap]
  by_cases hdir : bn < NDIRECT
  · rw [slotOf, if_pos hdir, slot, dif_pos (Nat.lt_succ_of_lt hdir)] at hs ⊢
    rw [dif_pos hdir]
    exact haddr _ hs
  · have hslot : n.slot fs.buf (slotOf bn) =
        if n.indirect = 0 then 0 else entry (fs.buf n.indirect.toNat) (bn - NDIRECT) := by
      rw [slotOf, if_neg hdir, slot, dif_neg (by omega), Nat.add_sub_add_right]
    rw [hslot] at hs ⊢
    have hind : n.indirect ≠ 0 := fun h0 => hs (if_pos h0)
    rw [if_neg hind] at hs ⊢
    have hlt : bn - NDIRECT < NINDIRECT := by
      rw [MAXFILE] at hbn
      omega
    rw [dif_neg hdir, if_pos hlt]
    refine wp_seq (haddr _ hind) ?_
    rintro _ _ ⟨rfl, rfl⟩
    rw [← indirect, if_neg hind]
    refine wp_bind (wp_get ?_)
    rw [if_neg hs]
    exact wp_pure ⟨rfl, rfl⟩

end Xv6.Fs
