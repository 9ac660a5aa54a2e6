/-
# Xv6.Mkfs.Main — `mkfs` builds the image of its files, or dies.

`main` is taken apart into what stands before the loop over the files, the loop, and what stands after
it: the size of the root directory is rounded up and the free map written.  The only limit that `mkfs`
does not check is the number of inodes.
-/
import Xv6.Mkfs.Files

namespace Xv6.Mkfs

open Lib Lib.Prog List Nat State
open Xv6.Fs hiding State ialloc balloc

section

variable {n : Nat} {s : State} {v : View} {E : String → Prop}

/-! ## Before the loop -/

theorem wpe_zeroSects (fuel i : Nat) (himg : s.img = fun _ => zeroBlock) (hlen : s.len = i)
    (hi : i + fuel ≤ FSSIZE) :
    wpe E (zeroSects fuel i) (fun _ s' => s' = { s with len := i + fuel }) s := by
  induction fuel generalizing s i with
  | zero =>
    rw [zeroSects_zero]
    refine wpe_pure ?_
    rw [add_zero, ← hlen]
  | succ fuel ih =>
    have hnat : (BitVec.ofNat 32 i).toNat = i := by
      rw [FSSIZE_eq] at hi
      exact mod_eq_of_lt (by omega)
    rw [zeroSects_succ]
    refine wpe_bind (wpe_wsect (by omega) ?_)
    rw [hnat]
    have hput : s.put i zeroBlock = { s with len := i + 1 } := by
      rw [put, himg, hlen, Function.update_eq_self (f := fun _ => zeroBlock) i,
        max_eq_right (le_succ i)]
    rw [hput]
    refine wpe_mono (ih (i + 1) himg rfl (by omega)) ?_
    rintro _ s' rfl
    rw [add_right_comm, add_assoc]

/-- The view of an image without inodes. -/
def blank : View := ⟨fun b => decide (b < nmeta), fun _ => .fresh 0, fun _ => zeroBlock⟩

/-- The image before the first inode. -/
theorem holds_nil (hn : n / IPB = 12) :
    Holds n [] (({ start with len := FSSIZE } : State).put 1 sbBlock) blank := by
  set s : State := ({ start with len := FSSIZE } : State).put 1 sbBlock with hs
  have hfb : s.freeblock.toNat = nmeta := rfl
  have himg : ∀ b, b ≠ 1 → s.img b = zeroBlock := fun b hb => img_put_ne hb
  have hnone : ∀ p, blank.own (sbOf n) p = none := fun p =>
    View.own_eq_none (Dinode.slot_zero rfl _ _)
  have hshow : Shows n s none blank := by
    refine ⟨rfl, fun b => rfl, fun i hi _ => ?_, fun b hb => ?_, fun b hb _ => ?_, fun b hb => ?_,
      ⟨hfb.ge, by rw [hfb]; decide⟩, fun b hb => nomatch hb⟩
    · have := (IBLOCK_range hn hi).1
      have h₁ : sb.inodestart = 32 := rfl
      rw [himg _ (by omega), Dinode.load_zeroBlock]
      rfl
    · have := ((data_iff n b).mp hb).1
      rw [nmeta_eq] at this
      exact himg b (by omega)
    · have := ((data_iff n b).mp hb).1
      rw [nmeta_eq] at this
      exact himg b (by omega)
    · by_cases hb1 : b = 1
      · subst hb1
        exact img_put_self ..
      · rw [if_neg hb1, himg b hb1]
  have hgood : Good (sbOf n) blank := by
    refine ⟨sbOf_layout hn, ⟨fun {p b} h => ?_, fun {p q b} h => ?_, fun {b} hb => ?_⟩, fun b hb => ?_,
      fun i hi => absurd rfl hi.2, fun i hi => absurd rfl hi.2⟩
    · rw [hnone] at h
      cases h
    · rw [hnone] at h
      cases h
    · have := ((data_iff n b).mp hb).1
      refine ⟨fun hu => ?_, fun ⟨p, hp⟩ => ?_⟩
      · have := of_decide_eq_true hu
        omega
      · rw [hnone] at hp
        cases hp
    · exact decide_eq_true (show b < sb.size - sb.nblocks from hb)
  refine ⟨hshow, hgood, fun j f hf => (nomatch hf), fun j f hf => (nomatch hf), fun j _ _ => rfl, ?_, rfl,
    rfl, rfl⟩
  rw [IPB_eq] at hn
  show 0 < n
  omega

/-! ## After the loop -/

/-- The size of the root directory after it was fixed. -/
def fixedSize (size : Nat) : Nat := (size / BSIZE + 1) * BSIZE

/-- What is left to do when the files are written: in `s` the size of the root directory is fixed and
the free map is written. -/
structure Finished (n : Nat) (s₀ : State) (v : View) (s : State) : Prop where
  node : ∀ i < n, Dinode.load (s.img (IBLOCK i sb)) (inodeOff i) =
    if i = ROOTINO then (v.dinode i).setSize (fixedSize (v.size i)) else v.dinode i
  data : ∀ b, (sbOf n).Data b → s.img b = v.data b
  low : ∀ b < sb.inodestart, s.img b = if b = 1 then sbBlock else zeroBlock
  map : s.img sb.bmapstart = usedMap s₀.freeblock.toNat
  inodes : s.inodes = s₀.inodes
  writes : ∀ b ∈ s.iwrites, sb.inodestart ≤ b ∧ b < sb.bmapstart

theorem wpe_finish (hn : n / IPB = 12) (h : Shows n s none v) :
    wpe E (do fixRoot 1; balloc (← get).freeblock.toNat) (fun _ s' => Finished n s v s') s := by
  have hroot : (1 : BitVec 32).toNat = ROOTINO := rfl
  have h1 : (1 : BitVec 32).toNat < n := by
    rw [IPB_eq] at hn
    rw [hroot, ROOTINO]
    omega
  set d := (v.dinode ROOTINO).setSize (fixedSize (v.size ROOTINO)) with hd
  have hfix : wpe E (fixRoot 1) (fun _ s' => Shows n s' none (v.setNode ROOTINO d) ∧
      s'.freeblock = s.freeblock ∧ s'.ids = s.ids) s := by
    refine wpe_seq (wpe_rinode hn h h1) ?_
    rintro _ _ ⟨rfl, rfl⟩
    exact wpe_winode hn ((h.to_some _).setNode d) h1 (View.dinode_setNode_self ..)
  refine wpe_seq hfix ?_
  rintro _ s1 ⟨h₁, hfb, hids⟩
  refine wpe_bind (wpe_get ?_)
  have hb := h₁.bound.2
  rw [FSSIZE_eq] at hb
  rw [balloc, if_neg (not_not.mpr (by rw [BSIZE_eq]; omega))]
  refine wpe_wsect (by decide) ?_
  have hmap : (BitVec.ofNat 32 sb.bmapstart).toNat = sb.bmapstart := by decide
  have hstart : sb.bmapstart = 45 := rfl
  rw [hmap]
  refine ⟨fun i hi => ?_, fun b hb => ?_, fun b hb => ?_, ?_, congrArg Prod.fst hids, h₁.writes⟩
  · have := (IBLOCK_range hn hi).2
    rw [img_put_ne (by omega), h₁.node i hi (nomatch ·)]
    by_cases hi1 : i = ROOTINO
    · rw [if_pos hi1, hi1, View.dinode_setNode_self]
    · rw [if_neg hi1, View.dinode_setNode_ne hi1]
  · have := ((data_iff n b).mp hb).1
    rw [nmeta_eq] at this
    rw [img_put_ne (by omega), h₁.data b hb]
    rfl
  · have : sb.inodestart = 32 := rfl
    rw [img_put_ne (by omega), h₁.low b hb]
  · rw [img_put_self, hfb]

/-! ## The program -/

/-- **`main`** builds the image of its files, if the inodes are enough. -/
theorem wpe_main (hn : n / IPB = 12) (hfits : args.length + 1 < n)
    (hE : ¬Fits args → ∀ msg, E msg) :
    wpe E (main args) (fun _ s => ∃ s₀ v, Holds n (filesOf args) s₀ v ∧ Finished n s₀ v s)
      start := by
  rw [main]
  have hzero := wpe_zeroSects (E := E) (s := start) FSSIZE 0 rfl rfl (zero_add FSSIZE).le
  rw [zero_add] at hzero
  refine wpe_seq hzero ?_
  rintro _ s rfl
  refine wpe_bind (wpe_wsect (by decide) ?_)
  refine wpe_seq (wpe_ialloc hn (holds_nil hn) (by rw [length_nil]; omega) (by decide)) ?_
  rintro inum s₁ ⟨hinum, v1, h₁⟩
  obtain rfl : inum = 1 := BitVec.eq_of_toNat_eq hinum
  rw [if_neg (by decide)]
  -- the first two entries fit into a block
  have hsmall : ∀ {p : List Byte}, p.length ≤ 2 * DIRENT →
      ¬(MAXFILE * BSIZE < p.length ∨ FSSIZE < nmeta + blocks [(T_DIR, p)]) := fun {p} hp => by
    have hone : blocks [(T_DIR, p)] = need p.length := rfl
    have hneed : need p.length ≤ need (2 * DIRENT) := need_mono hp
    have h32 : need (2 * DIRENT) = 1 := by decide
    rw [DIRENT] at hp
    rw [hone, MAXFILE_eq, BSIZE_eq, FSSIZE_eq, nmeta_eq]
    omega
  have hl1 := length_direntBytes 1 dot
  have hl2 := length_direntBytes 1 dotdot
  refine wpe_seq (wpe_iappend hn h₁ rfl hinum fun hfull => absurd hfull (hsmall ?_)) ?_
  · rw [nil_append, hl1]
    omega
  rintro _ s₂ ⟨v2, h2⟩
  refine wpe_seq (wpe_iappend hn h2 rfl hinum fun hfull => absurd hfull (hsmall ?_)) ?_
  · rw [nil_append, length_append, hl1, hl2]
    omega
  rintro _ s₃ ⟨v3, h3⟩
  have h3 : Holds n (filesOf []) s₃ v3 := by
    have hroot : rootBytes [] = direntBytes 1 dot ++ direntBytes 1 dotdot := append_nil _
    rw [filesOf, hroot]
    exact h3
  refine wpe_seq (wpe_addFiles hn h3 (by rw [length_nil]; omega) hE) ?_
  rintro _ s₄ ⟨v4, h4⟩
  exact wpe_mono (wpe_finish hn h4.after) fun _ s' hfin => ⟨s₄, v4, h4, hfin⟩

end

end Xv6.Mkfs
