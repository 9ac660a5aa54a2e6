/-
# Xv6.Fs.Lookup — names, directory entries and `dirlookup`.

`namecmp` compares the first `DIRSIZ` bytes of two C strings (`cname`).  `dirlookup` reads one entry
after the other until one is in use and has the name; it needs blocks for the entries up to that one
only.  The functions here read the disk and change the inode table, and what they leave is stated
exactly.
-/
import Xv6.Fs.Content
import Xv6.Fs.Names
import Mathlib.Data.List.TakeWhile

namespace Xv6.Fs

open Lib Lib.Prog List

/-! ## Names -/

/-- The part of a C string that is a name in a directory. -/
def cname (s : List Byte) : List Byte := (cstr s).take DIRSIZ

theorem cstr_eq (s : List Byte) :
    cstr s = if s.headD 0 = 0 then [] else s.headD 0 :: cstr s.tail := by
  cases s with
  | nil => rfl
  | cons c s =>
    rw [cstr, takeWhile_cons]
    by_cases hc : c = 0 <;> simp [hc, cstr]

theorem strncmp_eq_zero_iff (n : Nat) (p q : List Byte) :
    strncmp n p q = 0 ↔ (cstr p).take n = (cstr q).take n := by
  induction n generalizing p q with
  | zero => simp [strncmp]
  | succ n ih =>
    rw [strncmp, cstr_eq p, cstr_eq q]
    generalize p.headD 0 = c
    generalize q.headD 0 = d
    by_cases h : c ≠ 0 ∧ c = d
    · obtain ⟨hc, rfl⟩ := h
      rw [if_pos ⟨hc, rfl⟩, ih, if_neg hc, if_neg hc, take_succ_cons, take_succ_cons,
        cons_inj_right]
    · have hsub : ((c.toNat : Int) - d.toNat = 0) ↔ c = d := by
        rw [← BitVec.toNat_inj]
        omega
      rw [if_neg h, hsub]
      by_cases hc : c = 0
      · by_cases hd : d = 0
        · rw [if_pos hc, if_pos hd, hc, hd]
          exact ⟨fun _ => rfl, fun _ => rfl⟩
        · rw [if_pos hc, if_neg hd, take_nil, take_succ_cons, hc]
          exact ⟨fun he => absurd he.symm hd, fun he => nomatch he⟩
      · have hne : c ≠ d := fun he => h ⟨hc, he⟩
        by_cases hd : d = 0
        · rw [if_neg hc, if_pos hd, take_nil, take_succ_cons]
          exact ⟨fun he => absurd he hne, fun he => nomatch he⟩
        · rw [if_neg hc, if_neg hd, take_succ_cons, take_succ_cons]
          exact ⟨fun he => absurd he hne, fun he => absurd (cons.inj he).1 hne⟩

theorem namecmp_eq_zero_iff (s t : List Byte) : namecmp s t = 0 ↔ cname s = cname t :=
  strncmp_eq_zero_iff DIRSIZ s t

theorem cstr_of_not_mem (h : 0 ∉ s) : cstr s = s :=
  takeWhile_eq_self_iff.mpr fun c hc => by
    rw [decide_eq_true_iff]
    rintro rfl
    exact h hc

theorem zero_not_mem_cstr (s : List Byte) : 0 ∉ cstr s := fun h => by
  have := mem_takeWhile_imp h
  simp at this

/-- The name in an entry is the name that was copied there. -/
theorem cname_strncpy (s : List Byte) : cname (strncpy DIRSIZ s) = cname s := by
  have hne : 0 ∉ (cstr s).take DIRSIZ := fun h => zero_not_mem_cstr s (mem_of_mem_take h)
  have hstr : ∀ m, cstr ((cstr s).take DIRSIZ ++ replicate m 0) = (cstr s).take DIRSIZ := fun m => by
    rw [cstr, takeWhile_append_of_pos fun c hc => ?_]
    · cases m <;> simp [replicate_succ]
    · rw [decide_eq_true_iff]
      rintro rfl
      exact hne hc
  rw [cname, strncpy, hstr, take_take, Nat.min_self, cname]

/-! ## The inode table -/

section Table

variable {fs fs' : State} {ip : Ptr} {i : Nat} {E : String → Prop}

/-- The entry of an inode that `iget` returns. -/
def Inode.got (x : Inode) (i : Nat) : Inode :=
  if x.ref = 0 then { x with inum := i, ref := 1, valid := false } else { x with ref := x.ref + 1 }

/-- `iget` of inode `i` found its entry `ip`, or took one that is not in use. -/
structure Got (fs : State) (i : Nat) (ip : Ptr) (fs' : State) : Prop where
  after : fs' = fs.setEntry ip ((fs.itable ip).got i)
  found : (0 < (fs.itable ip).ref ∧ (fs.itable ip).inum = i) ∨
    ((fs.itable ip).ref = 0 ∧ ∀ p, 0 < (fs.itable p).ref → (fs.itable p).inum ≠ i)

/-- **`iget`** panics only if the inode has no entry and every entry is in use. -/
theorem wpe_iget (hE : (∀ p, 0 < (fs.itable p).ref ∧ (fs.itable p).inum ≠ i) → E "iget: no inodes") :
    wpe E (iget i) (fun ip fs' => Got fs i ip fs') fs := by
  rw [iget]
  refine wpe_bind (wpe_get ?_)
  split
  · rename_i ip hfind
    have hp := find?_some hfind
    rw [Bool.and_eq_true, decide_eq_true_iff, decide_eq_true_iff] at hp
    refine wpe_bind (wpe_modify (wpe_pure ⟨?_, .inl hp⟩))
    rw [Inode.got, if_neg (by omega)]
    rfl
  · rename_i hnone
    have hother : ∀ p, 0 < (fs.itable p).ref → (fs.itable p).inum ≠ i := fun p hp he => by
      have := find?_eq_none.mp hnone p (mem_finRange p)
      rw [Bool.and_eq_true, decide_eq_true_iff, decide_eq_true_iff] at this
      exact this ⟨hp, he⟩
    split
    · rename_i hfull
      refine wpe_stop (hE fun p => ?_)
      have := find?_eq_none.mp hfull p (mem_finRange p)
      rw [decide_eq_true_iff] at this
      exact ⟨Nat.pos_of_ne_zero this, hother p (Nat.pos_of_ne_zero this)⟩
    · rename_i ip hfind
      have hp := find?_some hfind
      rw [decide_eq_true_iff] at hp
      refine wpe_bind (wpe_modify (wpe_pure ⟨?_, .inr ⟨hp, hother⟩⟩))
      rw [Inode.got, if_pos hp]
      rfl

/-- The entry of an inode after `ilock`. -/
def Inode.lock (x : Inode) (n : Dinode) : Inode :=
  { x with toDinode := if x.valid then x.toDinode else n, valid := true, locked := true }

/-- **`ilock`** of an entry that is in use and not locked reads the dinode unless it is there. -/
theorem wpe_ilock (href : 0 < (fs.itable ip).ref) (hun : (fs.itable ip).locked = false)
    (hE : (fs.itable ip).valid = false → (fs.dinode (fs.itable ip).inum).type = 0 →
      E "ilock: no type") :
    wpe E (ilock ip) (fun _ fs' =>
      fs' = fs.setEntry ip ((fs.itable ip).lock (fs.dinode (fs.itable ip).inum)) ∧
      ((fs.itable ip).valid = false → (fs.dinode (fs.itable ip).inum).type ≠ 0)) fs := by
  rw [ilock]
  refine wpe_bind (wpe_get ?_)
  rw [if_neg (by omega), acquiresleep]
  refine wpe_bind (wpe_bind (wpe_get ?_))
  rw [hun, if_neg Bool.false_ne_true]
  refine wpe_setInode (wpe_bind (wpe_get ?_))
  rw [setEntry_self]
  cases hv : (fs.itable ip).valid with
  | true =>
    rw [if_pos rfl]
    refine wpe_pure ⟨?_, nofun⟩
    rw [Inode.lock, hv, if_pos rfl]
  | false =>
    have hd : ∀ x, (fs.setEntry ip x).dinode (fs.itable ip).inum = fs.dinode (fs.itable ip).inum :=
      fun _ => rfl
    rw [if_neg Bool.false_ne_true, Dinode.copy_eq]
    refine wpe_bind (wpe_setInode ?_)
    rw [setEntry_self, setEntry_setEntry, hd]
    by_cases ht : (fs.dinode (fs.itable ip).inum).type = 0
    · rw [if_pos ht]
      exact wpe_stop (hE hv ht)
    · rw [if_neg ht]
      refine wpe_pure ⟨?_, fun _ => ht⟩
      rw [Inode.lock, hv, if_neg Bool.false_ne_true]

/-- **`iunlock`** of an entry that is locked. -/
theorem wpe_iunlock (href : 0 < (fs.itable ip).ref) (hl : (fs.itable ip).locked = true) :
    wpe E (iunlock ip) (fun _ fs' =>
      fs' = fs.setEntry ip { fs.itable ip with locked := false }) fs := by
  rw [iunlock]
  refine wpe_bind (wpe_get ?_)
  have hok : ¬((fs.itable ip).locked = false ∨ (fs.itable ip).ref < 1) := by
    rw [hl]
    exact fun h => h.elim (fun h => nomatch h) (by omega)
  rw [if_neg hok]
  exact wpe_setInode rfl

/-- **`iput`** of an entry whose inode is not to be freed. -/
theorem wpe_iput_keep (hkeep : ¬((fs.itable ip).ref = 1 ∧ (fs.itable ip).valid = true ∧
      (fs.itable ip).nlink = 0)) :
    wpe E (iput ip) (fun _ fs' =>
      fs' = fs.setEntry ip { fs.itable ip with ref := (fs.itable ip).ref - 1 }) fs := by
  rw [iput]
  refine wpe_bind (wpe_get ?_)
  dsimp only
  rw [if_neg hkeep]
  exact wpe_bind (wpe_pure (wpe_setInode rfl))

end Table

/-! ## Directory entries -/

/-- Entry `k` of a directory with the bytes `f`. -/
def entryAt (f : Nat → Byte) (k : Nat) : Dirent :=
  .ofBytes ((List.range DIRENT).map fun j => f (k * DIRENT + j))

/-- The entry is in use and has the name. -/
def Dirent.Is (de : Dirent) (name : List Byte) : Prop := de.inum ≠ 0 ∧ cname name = cname de.name

instance (de : Dirent) (name : List Byte) : Decidable (de.Is name) :=
  inferInstanceAs (Decidable (_ ∧ _))

theorem entryAt_congr {f g : Nat → Byte}
    (h : ∀ x, k * DIRENT ≤ x → x < (k + 1) * DIRENT → f x = g x) : entryAt f k = entryAt g k := by
  refine congrArg Dirent.ofBytes (map_congr_left fun j hj => h _ (Nat.le_add_right _ _) ?_)
  have := mem_range.mp hj
  rw [DIRENT] at this ⊢
  omega

section Dir

variable {fs : State} {dp : Ptr} {k : Nat} {E : String → Prop}

/-- An entry does not cross the end of a block. -/
theorem Dinode.Has.entry {n : Dinode} {data : Nat → Block} (h : n.Has data (k * DIRENT)) {x : Nat}
    (h₁ : k * DIRENT ≤ x) (h₂ : x < k * DIRENT + DIRENT) : n.Has data x := by
  have hblk : x / BSIZE = k * DIRENT / BSIZE := by
    rw [DIRENT] at h₁ h₂ ⊢
    rw [BSIZE_eq]
    omega
  rw [Dinode.Has, hblk]
  exact h

/-- **`readi` of an entry.** -/
theorem wpe_readDirent {msg : String} (hend : k * DIRENT + DIRENT ≤ (fs.itable dp).size.toNat)
    (hhas : (fs.itable dp).toDinode.Has fs.buf (k * DIRENT)) :
    wpe E (readDirent dp (k * DIRENT) msg) (fun de fs' => fs' = fs ∧
      de = entryAt ((fs.itable dp).toDinode.byteAt fs.buf) k) fs := by
  rw [readDirent]
  refine wpe_seq (wp_readi_range (fun _ _ => rfl) hend fun x h1 h2 => hhas.entry h1 h2).wpe ?_
  rintro r _ ⟨rfl, rfl⟩
  dsimp only
  rw [if_pos rfl]
  exact wpe_pure ⟨rfl, rfl⟩

/-- **`dirlookup` finds an entry** if it has a block, and so do those before it, none of which is in
use with the name. -/
theorem wpe_dirlookup_hit {name : List Byte} (htype : (fs.itable dp).type = T_DIR)
    (hend : k * DIRENT + DIRENT ≤ (fs.itable dp).size.toNat)
    (hhas : ∀ j ≤ k, (fs.itable dp).toDinode.Has fs.buf (j * DIRENT))
    (hpre : ∀ j < k, ¬(entryAt ((fs.itable dp).toDinode.byteAt fs.buf) j).Is name)
    (hit : (entryAt ((fs.itable dp).toDinode.byteAt fs.buf) k).Is name)
    (hE : (∀ p, 0 < (fs.itable p).ref ∧ (fs.itable p).inum ≠
      (entryAt ((fs.itable dp).toDinode.byteAt fs.buf) k).inum.toNat) → E "iget: no inodes") :
    wpe E (dirlookup dp name) (fun r fs' => ∃ ip, r = some (ip, k * DIRENT) ∧
      Got fs (entryAt ((fs.itable dp).toDinode.byteAt fs.buf) k).inum.toNat ip fs') fs := by
  set e := entryAt ((fs.itable dp).toDinode.byteAt fs.buf) with he
  have hloop : ∀ fuel j, j ≤ k → k < j + fuel → wpe E (dirlookupLoop dp name fuel (j * DIRENT))
      (fun r fs' => ∃ ip, r = some (ip, k * DIRENT) ∧ Got fs (e k).inum.toNat ip fs') fs := by
    intro fuel
    induction fuel with
    | zero =>
      intro j h1 h2
      omega
    | succ fuel ih =>
      intro j hjk hfuel
      have hj : j * DIRENT + DIRENT ≤ (fs.itable dp).size.toNat := by
        rw [DIRENT] at hend ⊢
        omega
      rw [dirlookupLoop]
      refine wpe_bind (wpe_get ?_)
      rw [if_pos (by rw [DIRENT] at hj ⊢; omega)]
      refine wpe_seq (wpe_readDirent hj (hhas j hjk)) ?_
      rintro de _ ⟨rfl, rfl⟩
      have hnext : (j + 1) * DIRENT = j * DIRENT + DIRENT := Nat.succ_mul ..
      rcases hjk.lt_or_eq with hlt | rfl
      · have hrest := ih (j + 1) hlt (by omega)
        rw [hnext] at hrest
        split
        · exact hrest
        · rename_i hin
          rw [if_neg fun hz => hpre j hlt ⟨hin, (namecmp_eq_zero_iff ..).mp hz⟩]
          exact hrest
      · rw [if_neg hit.1, if_pos ((namecmp_eq_zero_iff ..).mpr hit.2)]
        refine wpe_seq (wpe_iget hE) fun ip fs' hgot => wpe_pure ⟨ip, rfl, hgot⟩
  rw [dirlookup]
  refine wpe_bind (wpe_get ?_)
  rw [if_neg (not_not.mpr htype)]
  have h0 := hloop (fs.itable dp).size.toNat 0 (Nat.zero_le k) (by rw [DIRENT] at hend; omega)
  rwa [Nat.zero_mul] at h0

/-- **`namex` of one path element.**  The directory is in entry `ip`, and the caller has another
reference to it. -/
theorem wpe_namexLoop_one
    (hx : x = (fs.itable ip).lock (fs.dinode (fs.itable ip).inum)) (href : 2 ≤ x.ref)
    (hun : (fs.itable ip).locked = false) (htype : x.type = T_DIR)
    (hend : k * DIRENT + DIRENT ≤ x.size.toNat)
    (hhas : ∀ j ≤ k, x.toDinode.Has fs.buf (j * DIRENT))
    (hpre : ∀ j < k, ¬(entryAt (x.toDinode.byteAt fs.buf) j).Is name)
    (hit : (entryAt (x.toDinode.byteAt fs.buf) k).Is name)
    (hE : (∀ p, 0 < (fs.itable p).ref) → E "iget: no inodes") :
    wpe E (namexLoop false [name] ip) (fun r fs' => ∃ next, r = some (next, []) ∧
      (fs'.itable next).inum = (entryAt (x.toDinode.byteAt fs.buf) k).inum.toNat ∧
      fs'.buf = fs.buf ∧ fs'.sb = fs.sb ∧
      ((entryAt (x.toDinode.byteAt fs.buf) k).inum.toNat = (fs.itable ip).inum ∨
        fs'.itable next = (fs.itable next).got
          (entryAt (x.toDinode.byteAt fs.buf) k).inum.toNat)) fs := by
  have hxref : x.ref = (fs.itable ip).ref := by rw [hx]; rfl
  have hself := setEntry_self fs ip x
  rw [namexLoop]
  refine wpe_seq (wpe_ilock (by omega) hun fun hv ht => ?_) ?_
  · rw [hx, Inode.lock, hv, if_neg Bool.false_ne_true] at htype
    rw [ht] at htype
    cases htype
  rintro _ _ ⟨rfl, -⟩
  rw [← hx]
  refine wpe_bind (wpe_get ?_)
  rw [hself, if_neg (not_not.mpr htype), if_neg (fun h => nomatch h.1)]
  have hlook := @wpe_dirlookup_hit (fs.setEntry ip x) ip k E name
  rw [hself] at hlook
  refine wpe_seq (hlook htype hend hhas hpre hit fun hfull => hE fun p => ?_) ?_
  · by_cases hp : p = ip
    · rw [hp]
      omega
    · have := (hfull p).1
      rwa [setEntry_ne hp] at this
  rintro _ fs2 ⟨next, rfl, hgot⟩
  have hgot : Got (fs.setEntry ip x) (entryAt (x.toDinode.byteAt fs.buf) k).inum.toNat next fs2 := hgot
  -- the entry of the directory, with the references of the caller and of the walk
  have hy : 2 ≤ (fs2.itable ip).ref ∧ (fs2.itable ip).locked = true := by
    have hlocked : x.locked = true := by rw [hx]; rfl
    rw [hgot.after]
    by_cases hn : next = ip
    · rw [hn, setEntry_self, hself, Inode.got, if_neg (by omega)]
      exact ⟨by show 2 ≤ x.ref + 1; omega, hlocked⟩
    · rw [setEntry_ne (Ne.symm hn), hself]
      exact ⟨href, hlocked⟩
  have hinum : (fs2.itable next).inum = (entryAt (x.toDinode.byteAt fs.buf) k).inum.toNat := by
    rw [hgot.after, setEntry_self, Inode.got]
    rcases hgot.found with ⟨hr, hi⟩ | ⟨hr, -⟩
    · rw [if_neg (by omega)]
      exact hi
    · rw [if_pos hr]
  refine wpe_bind (wpe_seq (wpe_iunlock (by omega) hy.2) ?_)
  rintro _ _ rfl
  have hkeep := setEntry_self fs2 ip { fs2.itable ip with locked := false }
  have hmore : ¬((fs2.itable ip).ref = 1 ∧ (fs2.itable ip).valid = true ∧ (fs2.itable ip).nlink = 0) :=
    fun h => by omega
  refine wpe_mono (wpe_iput_keep (by rw [hkeep]; exact hmore)) ?_
  rintro _ _ rfl
  rw [hkeep, setEntry_setEntry, namexLoop]
  refine wpe_pure ⟨next, rfl, ?_, ?_, ?_, ?_⟩
  · by_cases hn : next = ip
    · rw [hn, setEntry_self, ← hinum, hn]
    · rw [setEntry_ne hn, hinum]
  · rw [hgot.after]
    rfl
  · rw [hgot.after]
    rfl
  · by_cases hn : next = ip
    · refine .inl ?_
      have hfound := hgot.found
      rw [hn, hself] at hfound
      rcases hfound with ⟨-, hi⟩ | ⟨hr, -⟩
      · rw [← hi, hx]
        rfl
      · omega
    · refine .inr ?_
      rw [setEntry_ne hn, hgot.after, setEntry_self, setEntry_ne hn]

end Dir

end Xv6.Fs
