/-
# Xv6.Fs.Unlink — what `sys_unlink` does to a directory (`kernel/sysfile.c`).

`dirlink` adds a binding to the map that a directory is.  `sys_unlink` takes one away: it writes zeros over
the entry that `dirlookup` found.  It takes a directory away only if `isdirempty` finds no name in it but
`.` and `..`.
-/
import Xv6.Fs.Dir

namespace Xv6.Fs

open Lib Lib.Prog List Option
open Function (update update_of_ne update_self)

variable {fs fs₀ : State} {dp : Ptr} {d : Nat} {held : Multiset (Ptr × Nat)} {lk : Finset Ptr}

/-! ## Taking a name away -/

/-- The entry that is written. -/
def noEntry : Dirent := ⟨0, replicate DIRSIZ 0⟩

/-- **The contents without an entry** have one binding less. -/
theorem DirOk.erase (h : DirOk data) (hf : dirFind data a = some k) :
    DirOk (putDirent data k noEntry) ∧ ∀ b, dirMap (putDirent data k noEntry) b =
      if cname b = cname a then none else dirMap data b := by
  obtain ⟨hlt, his⟩ := h.distinct.dirFind_eq_some.mp hf
  have hname : noEntry.name.length = DIRSIZ := length_replicate
  have hcount : entryCount (putDirent data k noEntry) = entryCount data := by
    rw [h.entryCount_put hlt.le hname]
    omega
  have hat := h.direntAt_put hlt.le hname
  have hin : ∀ j b, (direntAt (putDirent data k noEntry) j).Is b ↔ j ≠ k ∧ (direntAt data j).Is b := by
    intro j b
    rw [hat]
    by_cases hjk : j = k
    · simp [hjk, Dirent.Is, noEntry]
    · simp [hjk]
  have hdist : Distinct (putDirent data k noEntry) := by
    intro i hi j hj hui huj he
    rw [hcount] at hi hj
    have hii := ((hin i _).mp ⟨hui, rfl⟩).2
    have hjj := ((hin j _).mp ⟨huj, he⟩).2
    exact h.distinct i hi j hj hii.1 hjj.1 (hii.2.symm.trans hjj.2)
  refine ⟨⟨h.size_put hlt.le hname, hdist⟩, fun b => ?_⟩
  have hfind : ∀ j, dirFind (putDirent data k noEntry) b = some j ↔
      cname b ≠ cname a ∧ dirFind data b = some j := by
    intro j
    rw [hdist.dirFind_eq_some, h.distinct.dirFind_eq_some, hcount, hin]
    constructor
    · rintro ⟨hj, hjk, hb⟩
      refine ⟨fun he => hjk ?_, hj, hb⟩
      exact h.distinct j hj k hlt hb.1 his.1 (hb.2.symm.trans (he.trans his.2))
    · rintro ⟨hne, hj, hb⟩
      refine ⟨hj, ?_, hb⟩
      rintro rfl
      exact hne (hb.2.trans his.2.symm)
  rw [dirMap, dirMap]
  split_ifs with hb
  · rw [map_eq_none_iff, eq_none_iff_forall_ne_some]
    exact fun j hj => ((hfind j).mp hj).1 hb
  · have heq : dirFind (putDirent data k noEntry) b = dirFind data b :=
      Option.ext fun j => (hfind j).trans (and_iff_right hb)
    rw [heq]
    cases hm : dirFind data b with
    | none => rfl
    | some j =>
      have hjk := ((hin j b).mp (hdist.dirFind_eq_some.mp (heq.trans hm)).2).1
      rw [map_some, map_some, hat, if_neg hjk]

/-- No name but `.` and `..` is found. -/
def OnlyDots (data : List Byte) : Prop :=
  ∀ b, cname b ≠ cname dot → cname b ≠ cname dotdot → dirMap data b = none

/-- Where these are the first two entries, no other entry is in use then. -/
theorem DirOk.onlyDots_iff (h : DirOk data) (hdot : dirFind data dot = some 0)
    (hdotdot : dirFind data dotdot = some 1) :
    OnlyDots data ↔ ∀ j < entryCount data, 2 ≤ j → (direntAt data j).inum = 0 := by
  obtain ⟨h0, hin0⟩ := h.distinct.dirFind_eq_some.mp hdot
  obtain ⟨h1, hin1⟩ := h.distinct.dirFind_eq_some.mp hdotdot
  constructor
  · intro hall j hj hj2
    by_contra hused
    -- the name of entry `j` is found
    have hne : ∀ {k s}, k < entryCount data → (direntAt data k).Is s → j ≠ k →
        cname (direntAt data j).name ≠ cname s := fun hk hin hjk he =>
      hjk (h.distinct j hj _ hk hused hin.1 (he.trans hin.2))
    have hnone := hall _ (hne h0 hin0 (by omega)) (hne h1 hin1 (by omega))
    rw [dirMap, map_eq_none_iff, dirFind_eq_none] at hnone
    exact hnone j hj ⟨hused, rfl⟩
  · intro hall b hb0 hb1
    rw [dirMap, map_eq_none_iff, dirFind_eq_none]
    intro j hj hin
    have hj2 : ¬2 ≤ j := fun hj2 => hin.1 (hall j hj hj2)
    obtain rfl | rfl : j = 0 ∨ j = 1 := by omega
    · exact hb0 (hin.2.trans hin0.2.symm)
    · exact hb1 (hin.2.trans hin1.2.symm)

section

variable (h : Inside fs₀ held lk fs) (hlk : dp ∈ lk) (hheld : (dp, d) ∈ held)
  (hdata : (fs.ino d).data = data) (hok : DirOk data)

include h hlk hheld hdata hok

/-- **The loop of `isdirempty`**, from entry `k` on. -/
theorem Inside.wpe_isdiremptyLoop (fuel k : Nat) (hfuel : entryCount data ≤ k + fuel) :
    wpe E (isdiremptyLoop dp fuel (k * DIRENT)) (fun r fs' => fs' = fs ∧
      (r = true ↔ ∀ j < entryCount data, k ≤ j → (direntAt data j).inum = 0)) fs := by
  subst hdata
  have hd := (h.refers hheld).2
  induction fuel generalizing k with
  | zero => exact wpe_pure ⟨rfl, iff_of_true rfl fun j hj hkj => by omega⟩
  | succ fuel ih =>
    rw [isdiremptyLoop]
    refine wpe_bind (wpe_get ?_)
    rw [h.size_eq hlk hd]
    by_cases hlt : k < entryCount (fs.ino d).data
    · rw [if_pos ((mul_DIRENT_lt_iff hok.size).mpr hlt)]
      refine wpe_seq (h.wpe_readDirent hlk hd (succ_mul_DIRENT_le hok.size hlt)) ?_
      rintro de fs' ⟨rfl, rfl⟩
      split_ifs with hused
      · exact wpe_pure ⟨rfl, iff_of_false (by decide) fun hall => hused (hall k hlt le_rfl)⟩
      · rw [← Nat.succ_mul]
        refine wpe_mono (ih (k + 1) (by omega)) ?_
        rintro r fs'' ⟨he, hr⟩
        refine ⟨he, hr.trans ?_⟩
        refine forall₂_congr fun j _ => ⟨fun hall hkj => ?_, fun hall hkj => hall (by omega)⟩
        rcases hkj.eq_or_lt with rfl | hkj
        · exact not_not.mp hused
        · exact hall hkj
    · rw [if_neg fun hoff => hlt ((mul_DIRENT_lt_iff hok.size).mp hoff)]
      exact wpe_pure ⟨rfl, iff_of_true rfl fun j hj hkj => by omega⟩

/-- **`isdirempty`** of a consistent directory whose first entries are `.` and `..` returns true exactly if
no other name is found in it. -/
theorem isdirempty_iff (hdot : dirFind data dot = some 0) (hdotdot : dirFind data dotdot = some 1) :
    wp (isdirempty dp) (fun r fs' => fs' = fs ∧ (r = true ↔ OnlyDots data)) fs := by
  subst hdata
  have hd := (h.refers hheld).2
  refine wpe.wp ?_
  rw [isdirempty]
  refine wpe_bind (wpe_get ?_)
  have hfuel : entryCount (fs.ino d).data ≤ 2 + (fs.itable dp).size.toNat := by
    rw [h.size_eq hlk hd]
    exact (entryCount_le _).trans (Nat.le_add_left _ _)
  refine wpe_mono (h.wpe_isdiremptyLoop hlk hheld rfl hok _ 2 hfuel) ?_
  rintro r fs' ⟨he, hr⟩
  exact ⟨he, hr.trans (hok.onlyDots_iff hdot hdotdot).symm⟩

end

theorem isdirempty_iff_root : ∃ fs, TableOnly booted fs ∧
    wp (isdirempty rootPtr) (fun r fs' => fs' = fs ∧ (r = true ↔ OnlyDots rootData)) fs := by
  obtain ⟨fs, hin, ht⟩ := booted_locked
  exact ⟨fs, ht, isdirempty_iff hin (Finset.mem_singleton_self _) (Multiset.mem_singleton_self _)
    (ht.ino ▸ booted_root_data) rootData_ok (by decide +kernel) (by decide +kernel)⟩

end Xv6.Fs
