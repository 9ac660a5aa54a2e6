/-
# Xv6.Mkfs.Build — what `mkfs` builds, call by call.

The image is described by a list of the inodes that have been made, each with its type and contents:
`ialloc` puts an empty inode at the end and `iappend` makes the contents of one longer.  `freeinode` is
one more than their number and `freeblock` counts the blocks that they need.
-/
import Xv6.Mkfs.Append

namespace Xv6.Mkfs

open Lib Lib.Prog List
open Xv6.Fs hiding State ialloc balloc

/-! ## Lists of inodes -/

/-- The types and the contents of the inodes from number 1 on. -/
abbrev Files := List (BitVec 16 × List Byte)

/-- The number of blocks that the inodes need. -/
def blocks (t : Files) : Nat := (t.map fun f => need f.2.length).sum

theorem blocks_append (t u : Files) : blocks (t ++ u) = blocks t + blocks u := by
  rw [blocks, map_append, sum_append]
  rfl

/-- An inode of a list with one more at the end. -/
theorem getElem?_snoc
    (h : (t ++ [g])[j]? = some f) : (j < t.length ∧ t[j]? = some f) ∨ (j = t.length ∧ f = g) := by
  rcases Nat.lt_or_ge j t.length with hlt | hge
  · rw [getElem?_append_left hlt] at h
    exact .inl ⟨hlt, h⟩
  · rw [getElem?_append_right hge, getElem?_singleton] at h
    split at h
    · exact .inr ⟨by omega, (Option.some_inj.mp h).symm⟩
    · cases h

/-- An inode of a list in which one has been changed. -/
theorem getElem?_set_cases {t : Files} {j k : Nat} {f g : BitVec 16 × List Byte}
    (h : (t.set j g)[k]? = some f) : (k = j ∧ f = g) ∨ (k ≠ j ∧ t[k]? = some f) := by
  by_cases hk : k = j
  · subst hk
    obtain ⟨hlt, hget⟩ := List.getElem?_eq_some_iff.mp h
    rw [getElem_set_self] at hget
    exact .inl ⟨rfl, hget.symm⟩
  · rw [getElem?_set_ne (Ne.symm hk)] at h
    exact .inr ⟨hk, h⟩

/-- The contents of one inode change. -/
theorem blocks_set (h : t[j]? = some f)
    (f' : BitVec 16 × List Byte) :
    blocks (t.set j f') + need f.2.length = blocks t + need f'.2.length := by
  induction t generalizing j with
  | nil => cases h
  | cons g t ih =>
    cases j with
    | zero =>
      cases h
      show need f'.2.length + blocks t + _ = need f.2.length + blocks t + _
      omega
    | succ j =>
      have := ih h
      show need g.2.length + blocks (t.set j f') + _ = need g.2.length + blocks t + _
      omega

/-- The image holds the inodes of `t` and no others. -/
structure Holds (n : Nat) (t : Files) (s : State) (v : View) : Prop where
  after : Shows n s none v
  good : Good (sbOf n) v
  ino : ∀ j f, t[j]? = some f → f.1 ≠ 0 ∧ v.ino (j + 1) = ⟨f.1, 0, 0, 1, f.2⟩
  exact : ∀ j f, t[j]? = some f → Exact v (j + 1) f.2.length
  free : ∀ j < n, j = 0 ∨ t.length < j → v.dinode j = .fresh 0
  fits : t.length < n
  freeinode : s.freeinode.toNat = t.length + 1
  inodes : s.inodes = List.range' 1 t.length
  freeblock : s.freeblock.toNat = nmeta + blocks t

namespace Holds

variable {n : Nat} {t : Files} {s : State} {v : View} {j : Nat} {f : BitVec 16 × List Byte}

section

variable (h : Holds n t s v) (hf : t[j]? = some f)

include h hf

theorem allocated : v.Allocated (sbOf n) (j + 1) := by
  obtain ⟨hlt, -⟩ := List.getElem?_eq_some_iff.mp hf
  obtain ⟨hne, hino⟩ := h.ino j f hf
  have := h.fits
  refine ⟨show j + 1 < n by omega, ?_⟩
  rw [← View.ino_type, hino]
  exact hne

theorem content : v.content (j + 1) = f.2 := by
  have hino := (h.ino j f hf).2
  rw [View.ino_of_ne_zero (h.allocated hf).2] at hino
  exact congrArg Ino.data hino

theorem size : v.size (j + 1) = f.2.length := by
  rw [← View.length_content, h.content hf]

/-- What `iappend` starts from. -/
theorem appending : Appending n (j + 1) v f.2 v where
  good := h.good
  exact := h.exact j f hf
  bytes x hx := by
    rw [← h.content hf, View.content, getD_eq_getElem?_getD, getElem?_map,
      getElem?_range (by rwa [h.size hf])]
    rfl
  fields := ⟨_, rfl⟩
  others j' _ _ := Same.refl n j' v
  bound := by
    rw [← h.size hf]
    exact h.good.size _ (h.allocated hf)

end

end Holds

/-! ## `ialloc` and `iappend` -/

section

variable {n : Nat} {t : Files} {s : State} {v : View} {E : String → Prop}

/-- **`ialloc`** makes an empty inode. -/
theorem wpe_ialloc (hn : n / IPB = 12) (h : Holds n t s v) (hfits : t.length + 1 < n)
    (ht : type ≠ 0) :
    wpe E (ialloc type) (fun inum s' => inum.toNat = t.length + 1 ∧
      ∃ v', Holds n (t ++ [(type, [])]) s' v') s := by
  set i := s.freeinode with hi
  have hnat : i.toNat = t.length + 1 := h.freeinode
  have hfree := h.free _ hfits (.inr (Nat.lt_succ_self _))
  refine wpe_bind (wpe_get (wpe_bind (wpe_modify ?_)))
  set d : Dinode := { Dinode.fresh type with nlink := 1 } with hd
  set s1 : State := { s with freeinode := i + 1, inodes := s.inodes ++ [i.toNat] } with hs1
  have hnone : ∀ k, v.own (sbOf n) (i.toNat, k) = none := fun k => by
    refine View.own_eq_none ?_
    rw [hnat, View.slot, hfree]
    exact Dinode.slot_zero rfl _ k
  have good : Good (sbOf n) (v.setNode i.toNat d) := h.good.setEmpty hnone rfl rfl
  have shows1 : Shows n s1 (some i.toNat) v :=
    let a := h.after.to_some i.toNat
    ⟨a.len, a.used, a.node, a.data, a.zero, a.low, a.bound, a.writes⟩
  have hilt : i.toNat < n := by omega
  refine wpe_seq (wpe_winode hn (shows1.setNode d) hilt (View.dinode_setNode_self ..)) ?_
  rintro _ s' ⟨hshow, hfb, hids⟩
  have hself : (v.setNode i.toNat d).content i.toNat = [] := by
    rw [View.content, View.size, View.dinode_setNode_self]
    rfl
  have hslot : ∀ k, (v.setNode i.toNat d).slot i.toNat k = 0 := fun k => by
    rw [View.slot, View.dinode_setNode_self]
    exact Dinode.slot_zero rfl _ k
  refine wpe_pure ⟨hnat, v.setNode i.toNat d, hshow, good, fun j f hf => ?_, fun j f hf => ?_,
    fun j hj hout => ?_, ?_, ?_, ?_, ?_⟩
  · rcases getElem?_snoc hf with ⟨hlt, hf⟩ | ⟨rfl, rfl⟩
    · rw [View.ino_setNode_ne (by omega)]
      exact h.ino j f hf
    · refine ⟨ht, ?_⟩
      rw [← hnat, View.ino_of_ne_zero (by rw [View.dinode_setNode_self]; exact ht), hself,
        View.dinode_setNode_self]
      rfl
  · rcases getElem?_snoc hf with ⟨hlt, hf⟩ | ⟨rfl, rfl⟩
    · exact (h.exact j f hf).of_slot fun k => View.slot_setNode_ne (by omega) k
    · rw [← hnat]
      exact ⟨fun bn _ => by rw [hslot]; simp, by rw [hslot]; simp⟩
  · rw [length_append, length_singleton] at hout
    rw [View.dinode_setNode_ne (by omega)]
    exact h.free j hj (by omega)
  · rw [length_append]
    exact hfits
  · have : s'.freeinode = i + 1 := congrArg Prod.snd hids
    rw [this, length_append, BitVec.toNat_add, hnat]
    rw [IPB_eq] at hn
    exact Nat.mod_eq_of_lt (by show t.length + 1 + 1 < 2 ^ 32; omega)
  · have : s'.inodes = s.inodes ++ [i.toNat] := congrArg Prod.fst hids
    rw [this, h.inodes, hnat, length_append, length_singleton, range'_1_concat,
      Nat.add_comm 1]
  · have hzero : blocks [(type, [])] = 0 := show need 0 + 0 = 0 by decide
    rw [hfb, blocks_append, hzero]
    exact h.freeblock

/-- **`iappend`** makes the contents of an inode longer. -/
theorem wpe_iappend (hn : n / IPB = 12) (h : Holds n t s v) {j : Nat} {f : BitVec 16 × List Byte}
    (hf : t[j]? = some f) {inum : BitVec 32} (hi : inum.toNat = j + 1) {p : List Byte}
    (hE : MAXFILE * BSIZE < (f.2 ++ p).length ∨
      FSSIZE < nmeta + blocks (t.set j (f.1, f.2 ++ p)) → ∀ msg, E msg) :
    wpe E (iappend inum p) (fun _ s' => ∃ v', Holds n (t.set j (f.1, f.2 ++ p)) s' v') s := by
  have ha := h.allocated hf
  have hlt : inum.toNat < n := hi.symm ▸ ha.1
  have hcost : blocks (t.set j (f.1, f.2 ++ p)) + need f.2.length =
    blocks t + need (f.2 ++ p).length := blocks_set hf (f.1, f.2 ++ p)
  have hmono : need f.2.length ≤ need (f.2 ++ p).length :=
    need_mono (by rw [length_append]; omega)
  have hfb := h.freeblock
  rw [iappend]
  refine wpe_seq (wpe_rinode hn h.after hlt) ?_
  rintro d s' ⟨rfl, rfl⟩
  have hsize : (v.dinode inum.toNat).size.toNat = f.2.length := hi.symm ▸ h.size hf
  rw [hsize, hi]
  refine wpe_seq (wpe_iappendLoop hn ha (Nat.le_refl _) (h.after.to_some _) (h.appending hf)
    fun hfull => hE (hfull.imp_right fun hfull => by omega)) ?_
  rintro r s1 ⟨v1, h1, app, rfl, hcount, hids⟩
  set d := { v1.dinode (j + 1) with size := BitVec.ofNat 32 (f.2 ++ p).length } with hd
  have ha1 := app.allocated ha
  have haddrs : d.addrs = (v1.dinode (j + 1)).addrs := rfl
  have hdsize : d.size.toNat = (f.2 ++ p).length := by
    have := app.bound
    rw [MAXFILE_eq, BSIZE_eq] at this
    exact Nat.mod_eq_of_lt (by omega)
  have good : Good (sbOf n) (v1.setNode (j + 1) d) := by
    refine app.good.setNode ha1 haddrs ha1.2 (by rw [hdsize]; exact app.bound) fun bn hbn => ?_
    rw [hdsize] at hbn
    refine (app.exact.block bn ?_).mpr hbn
    have := app.bound
    rw [MAXFILE_eq, BSIZE_eq] at this
    rw [BSIZE_eq] at hbn
    rw [MAXFILE_eq]
    omega
  rw [← hi] at h1
  refine wpe_mono (wpe_winode hn (h1.setNode d) hlt (View.dinode_setNode_self ..)) ?_
  rw [hi]
  rintro _ s2 ⟨hshow, hfb2, hids2⟩
  obtain ⟨addrs, hfields⟩ := app.fields
  have hcontent : (v1.setNode (j + 1) d).content (j + 1) = f.2 ++ p := by
    rw [View.content_setNode haddrs, hdsize]
    refine ext_getElem (by simp) fun x hx hx' => ?_
    rw [getElem_map, getElem_range, app.bytes x hx', getD_eq_getElem _ _ hx']
  have hold := (h.ino j f hf).2
  rw [View.ino_of_ne_zero ha.2] at hold
  have hother : ∀ {k g}, t[k]? = some g → k ≠ j → Same n (k + 1) v v1 := fun hg hk =>
    app.others _ (h.allocated hg).1 (by omega)
  refine ⟨v1.setNode (j + 1) d, hshow, good, fun k g hg => ?_, fun k g hg => ?_, fun k hk hout => ?_,
    ?_, ?_, ?_, ?_⟩
  · rcases getElem?_set_cases hg with ⟨rfl, rfl⟩ | ⟨hk, hg⟩
    · refine ⟨(h.ino k f hf).1, ?_⟩
      have ht : ((v1.setNode (k + 1) d).dinode (k + 1)).type ≠ 0 := by
        rw [View.dinode_setNode_self]
        exact ha1.2
      rw [View.ino_of_ne_zero ht, hcontent, View.dinode_setNode_self, hd, hfields]
      simp only [Ino.mk.injEq] at hold ⊢
      exact ⟨hold.1, hold.2.1, hold.2.2.1, hold.2.2.2.1, trivial⟩
    · rw [View.ino_setNode_ne (by omega), (hother hg hk).ino]
      exact h.ino k g hg
  · rcases getElem?_set_cases hg with ⟨rfl, rfl⟩ | ⟨hk, hg⟩
    · exact app.exact.of_slot fun s => View.slot_setNode haddrs s
    · refine (h.exact k g hg).of_slot fun s => ?_
      rw [View.slot_setNode_ne (by omega), (hother hg hk).slot (h.allocated hg)]
  · rw [length_set] at hout
    obtain ⟨hjt, -⟩ := List.getElem?_eq_some_iff.mp hf
    rw [View.dinode_setNode_ne (by omega), (app.others k hk (by omega)).node]
    exact h.free k hk hout
  · rw [length_set]
    exact h.fits
  · have : s2.freeinode = s'.freeinode := congrArg Prod.snd (hids2.trans hids)
    rw [this, length_set, h.freeinode]
  · have : s2.inodes = s'.inodes := congrArg Prod.fst (hids2.trans hids)
    rw [this, length_set, h.inodes]
  · rw [hfb2]
    omega

end

end Xv6.Mkfs
