/-
# Xv6.Fs.Entries — the contents of a directory as a finite map.

The contents of a directory are entries of sixteen bytes, of which those with inode number 0 are free.
If no two entries in use have the same name, looking for a name is a map lookup, and writing an entry
with a new name into a free slot adds one binding.
-/
import Xv6.Fs.Lookup
import Xv6.Lib.Splice

namespace Xv6.Fs

open Lib List

variable {data : List Byte} {name a b : List Byte} {de : Dirent} {i j k : Nat}

/-! ## Entries -/

/-- Entry `k` of a directory with the contents `data`. -/
def direntAt (data : List Byte) (k : Nat) : Dirent := .ofBytes ((data.drop (k * DIRENT)).take DIRENT)

/-- The number of entries. -/
def entryCount (data : List Byte) : Nat := data.length / DIRENT

theorem entryCount_le (data : List Byte) : entryCount data ≤ data.length := Nat.div_le_self _ _

/-- The first entry that is in use and has the name. -/
def dirFind (data name : List Byte) : Option Nat :=
  (List.range (entryCount data)).find? fun k => decide ((direntAt data k).Is name)

/-- The first entry that is free, or the end of the directory. -/
def freeEntry (data : List Byte) : Nat :=
  ((List.range (entryCount data)).find? fun k => decide ((direntAt data k).inum = 0)).getD
    (entryCount data)

/-- No two entries in use have the same name. -/
def Distinct (data : List Byte) : Prop :=
  ∀ j < entryCount data, ∀ k < entryCount data, (direntAt data j).inum ≠ 0 →
    (direntAt data k).inum ≠ 0 → cname (direntAt data j).name = cname (direntAt data k).name → j = k

/-- A consistent directory. -/
structure DirOk (data : List Byte) : Prop where
  size : DIRENT ∣ data.length
  distinct : Distinct data

theorem DirOk.length_eq (h : DirOk data) : entryCount data * DIRENT = data.length :=
  Nat.div_mul_cancel h.size

theorem dirFind_eq_some : dirFind data name = some k ↔
    k < entryCount data ∧ (direntAt data k).Is name ∧ ∀ j < k, ¬(direntAt data j).Is name := by
  rw [dirFind, find?_range_eq_some]
  simp only [decide_eq_true_iff, mem_range, Bool.not_eq_true', decide_eq_false_iff_not]
  exact ⟨fun h => ⟨h.2.1, h.1, h.2.2⟩, fun h => ⟨h.2.1, h.1, h.2.2⟩⟩

theorem dirFind_eq_none : dirFind data name = none ↔
    ∀ k < entryCount data, ¬(direntAt data k).Is name := by
  simp [dirFind]

/-- In a consistent directory an entry that has the name is the one that is found. -/
theorem Distinct.dirFind_eq_some (h : Distinct data) : dirFind data name = some k ↔
    k < entryCount data ∧ (direntAt data k).Is name := by
  rw [Fs.dirFind_eq_some]
  refine ⟨fun hk => ⟨hk.1, hk.2.1⟩, fun hk => ⟨hk.1, hk.2, fun j hj hin => ?_⟩⟩
  exact hj.ne (h j (hj.trans hk.1) k hk.1 hin.1 hk.2.1 (hin.2.symm.trans hk.2.2))

/-- Whether `k` is the number of an entry, as the loops over a directory test it. -/
theorem mul_DIRENT_lt_iff (h : DIRENT ∣ data.length) :
    k * DIRENT < data.length ↔ k < entryCount data := by
  rw [← Nat.div_mul_cancel h]
  exact Nat.mul_lt_mul_right (by decide)

theorem succ_mul_DIRENT_le (h : DIRENT ∣ data.length) (hk : k < entryCount data) :
    (k + 1) * DIRENT ≤ data.length := by
  rw [← Nat.div_mul_cancel h]
  exact Nat.mul_le_mul_right _ hk

theorem freeEntry_le (data : List Byte) : freeEntry data ≤ entryCount data := by
  rw [freeEntry]
  cases h : (range (entryCount data)).find? fun k => decide ((direntAt data k).inum = 0) with
  | none => exact le_rfl
  | some k => exact (mem_range.mp (mem_of_find?_eq_some h)).le

theorem freeEntry_free (h : freeEntry data < entryCount data) :
    (direntAt data (freeEntry data)).inum = 0 := by
  rw [freeEntry] at h ⊢
  cases hf : (range (entryCount data)).find? fun k => decide ((direntAt data k).inum = 0) with
  | none =>
    rw [hf] at h
    exact absurd h (lt_irrefl _)
  | some k => simpa using find?_some hf

theorem freeEntry_first (h : j < freeEntry data) : (direntAt data j).inum ≠ 0 := by
  have hj := h.trans_le (freeEntry_le data)
  rw [freeEntry] at h
  cases hf : (range (entryCount data)).find? fun k => decide ((direntAt data k).inum = 0) with
  | none => simpa using find?_eq_none.mp hf j (mem_range.mpr hj)
  | some k =>
    rw [hf] at h
    have := (find?_range_eq_some.mp hf).2.2 j h
    simpa using this

/-! ## Writing an entry -/

theorem Dirent.ofBytes_toBytes (de : Dirent) : Dirent.ofBytes de.toBytes = de := by
  obtain ⟨inum, name⟩ := de
  show (⟨_, name⟩ : Dirent) = _
  congr 1
  apply BitVec.eq_of_getLsbD_eq
  intro x hx
  show (inum.extractLsb' 8 8 ++ inum.extractLsb' 0 8).getLsbD x = inum.getLsbD x
  rw [BitVec.getLsbD_append]
  by_cases h : x < 8
  · simp [h]
  · have hback : 8 + (x - 8) = x := by omega
    simp [h, hback]
    omega

theorem strncpy_length (s : List Byte) : (strncpy DIRSIZ s).length = DIRSIZ := by
  have : ((cstr s).take DIRSIZ).length ≤ DIRSIZ := by
    rw [length_take]
    omega
  rw [strncpy, length_append, length_replicate]
  omega

theorem Dirent.length_toBytes (hde : de.name.length = DIRSIZ) : de.toBytes.length = DIRENT := by
  rw [toBytes, length_cons, length_cons, hde]
  rfl

/-- The contents after entry `k` was written. -/
def putDirent (data : List Byte) (k : Nat) (de : Dirent) : List Byte :=
  splice data (k * DIRENT) de.toBytes

section Put

variable (h : DirOk data) (hk : k ≤ entryCount data) (hde : de.name.length = DIRSIZ)

include h hk

theorem DirOk.offset_le : k * DIRENT ≤ data.length := by
  rw [← h.length_eq]
  exact Nat.mul_le_mul_right _ hk

include hde

theorem DirOk.length_put : (putDirent data k de).length = max data.length ((k + 1) * DIRENT) := by
  rw [putDirent, length_splice (h.offset_le hk), Dirent.length_toBytes hde, Nat.succ_mul]

theorem DirOk.entryCount_put : entryCount (putDirent data k de) = max (entryCount data) (k + 1) := by
  rw [entryCount, h.length_put hk hde, ← h.length_eq, DIRENT]
  omega

theorem DirOk.direntAt_put (j : Nat) :
    direntAt (putDirent data k de) j = if j = k then de else direntAt data j := by
  have hlen := Dirent.length_toBytes hde
  have hbyte : ∀ x, (splice data (k * DIRENT) de.toBytes)[x]? = _ := getElem?_splice (h.offset_le hk)
  rw [hlen] at hbyte
  by_cases hj : j = k
  · have hbytes : ((putDirent data k de).drop (j * DIRENT)).take DIRENT = de.toBytes := by
      apply ext_getElem?
      intro x
      rw [getElem?_take, getElem?_drop, putDirent, hbyte, hj]
      by_cases hx : x < DIRENT
      · rw [if_pos hx, if_pos ⟨by omega, by omega⟩, Nat.add_sub_cancel_left]
      · rw [if_neg hx, getElem?_eq_none (by omega)]
    rw [if_pos hj, direntAt, hbytes, Dirent.ofBytes_toBytes]
  · rw [if_neg hj, direntAt, direntAt]
    congr 1
    apply ext_getElem?
    intro x
    rw [getElem?_take, getElem?_take, getElem?_drop, getElem?_drop, putDirent, hbyte]
    by_cases hx : x < DIRENT
    · rw [if_pos hx, if_pos hx, if_neg]
      rw [DIRENT] at hx ⊢
      omega
    · rw [if_neg hx, if_neg hx]

theorem DirOk.size_put : DIRENT ∣ (putDirent data k de).length := by
  rw [h.length_put hk hde, ← h.length_eq]
  rcases le_total (entryCount data * DIRENT) ((k + 1) * DIRENT) with hle | hle
  · rw [max_eq_right hle]
    exact Dvd.intro_left _ rfl
  · rw [max_eq_left hle]
    exact Dvd.intro_left _ rfl

end Put

section Link

variable {inum : BitVec 16} (h : DirOk data) (hk : k ≤ entryCount data)
  (hfree : k < entryCount data → (direntAt data k).inum = 0) (hi : inum ≠ 0)
  (hnew : dirFind data a = none)

include h hk hnew

/-- The entries in use after a new one was written, and where they come from. -/
theorem DirOk.used_put (hj : j < entryCount (putDirent data k ⟨inum, strncpy DIRSIZ a⟩))
    (hu : (direntAt (putDirent data k ⟨inum, strncpy DIRSIZ a⟩) j).inum ≠ 0) :
    (j = k ∧ cname (direntAt (putDirent data k ⟨inum, strncpy DIRSIZ a⟩) j).name = cname a) ∨
      (j ≠ k ∧ j < entryCount data ∧
        direntAt (putDirent data k ⟨inum, strncpy DIRSIZ a⟩) j = direntAt data j ∧
        cname (direntAt data j).name ≠ cname a) := by
  have hat := @DirOk.direntAt_put data ⟨inum, strncpy DIRSIZ a⟩ k h hk (strncpy_length a) j
  rw [h.entryCount_put hk (strncpy_length a)] at hj
  by_cases hjk : j = k
  · refine .inl ⟨hjk, ?_⟩
    rw [hat, if_pos hjk]
    exact cname_strncpy a
  · rw [if_neg hjk] at hat
    rw [hat] at hu
    have hlt : j < entryCount data := by omega
    refine .inr ⟨hjk, hlt, hat, fun he => ?_⟩
    exact dirFind_eq_none.mp hnew j hlt ⟨hu, he.symm⟩

/-- **A new name keeps the names distinct.** -/
theorem DirOk.put : DirOk (putDirent data k ⟨inum, strncpy DIRSIZ a⟩) := by
  refine ⟨h.size_put hk (strncpy_length a), fun j hj m hm huj hum he => ?_⟩
  rcases h.used_put hk hnew hj huj with ⟨hjk, hnj⟩ | ⟨hjk, hlj, hdj, hnj⟩ <;>
    rcases h.used_put hk hnew hm hum with ⟨hmk, hnm⟩ | ⟨hmk, hlm, hdm, hnm⟩
  · rw [hjk, hmk]
  · rw [hnj, hdm] at he
    exact absurd he.symm hnm
  · rw [hdj, hnm] at he
    exact absurd he hnj
  · rw [hdj] at huj he
    rw [hdm] at hum he
    exact h.distinct j hlj m hlm huj hum he

include hfree hi

/-- **A new name is one more binding.** -/
theorem DirOk.dirFind_put (b : List Byte) :
    dirFind (putDirent data k ⟨inum, strncpy DIRSIZ a⟩) b =
      if cname b = cname a then some k else dirFind data b := by
  have hok : DirOk (putDirent data k ⟨inum, strncpy DIRSIZ a⟩) := h.put hk hnew
  have hcount := @DirOk.entryCount_put data ⟨inum, strncpy DIRSIZ a⟩ k h hk (strncpy_length a)
  have hat := @DirOk.direntAt_put data ⟨inum, strncpy DIRSIZ a⟩ k h hk (strncpy_length a)
  split
  · next hb =>
    refine hok.distinct.dirFind_eq_some.mpr ⟨by omega, ?_⟩
    rw [hat, if_pos rfl]
    exact ⟨hi, hb.trans (cname_strncpy a).symm⟩
  · next hb =>
    apply Option.ext
    intro m
    rw [hok.distinct.dirFind_eq_some, h.distinct.dirFind_eq_some, hcount, hat]
    by_cases hm : m = k
    · rw [if_pos hm]
      constructor
      · rintro ⟨-, -, he⟩
        exact absurd (he.trans (cname_strncpy a)) hb
      · rintro ⟨hlt, hu, -⟩
        rw [hm] at hlt hu
        exact absurd (hfree hlt) hu
    · rw [if_neg hm]
      refine and_congr_left fun _ => ?_
      omega

end Link

end Xv6.Fs
