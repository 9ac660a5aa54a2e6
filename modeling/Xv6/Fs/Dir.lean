/-
# Xv6.Fs.Dir — `dirlookup` and `dirlink`.

Both scan the entries of a directory that is locked.  `dirlookup` is `dirFind` on the contents, and
takes a reference to the inode it finds.  `dirlink` writes one entry, in the first free slot or at the
end; an entry does not cross a block, so it is written or it is not.
-/
import Xv6.Fs.Entries
import Xv6.Fs.Update

namespace Xv6.Fs

open Lib Lib.Prog Function List Option Nat

variable {fs fs' fs₀ : State} {dp : Ptr} {d i j k : Nat} {held : Multiset (Ptr × Nat)}
  {lk : Finset Ptr} {E : String → Prop}

/-! ## Reading entries -/

section Read

variable (h : Inside fs₀ held lk fs) (hlk : dp ∈ lk) (hd : (fs.itable dp).inum = d)

include h hlk hd

theorem Inside.size_eq : (fs.itable dp).size.toNat = (fs.ino d).data.length := by
  obtain ⟨-, -, halive, hcopy, -⟩ := h.entry hlk hd
  rw [hcopy, ino_size halive]

theorem Inside.type_eq : (fs.itable dp).type = (fs.ino d).type := by
  obtain ⟨-, -, -, hcopy, hlt⟩ := h.entry hlk hd
  rw [hcopy, ino_type_eq hlt]

theorem Inside.length_le : (fs.ino d).data.length ≤ MAXFILE * BSIZE := by
  obtain ⟨-, -, halive, -, -⟩ := h.entry hlk hd
  rw [ino_size halive]
  exact h.good.size d (allocated_iff.mpr halive)

/-- **`readi` of an entry.** -/
theorem Inside.wpe_readDirent (hend : (k + 1) * DIRENT ≤ (fs.ino d).data.length) :
    wpe E (readDirent dp (k * DIRENT) msg) (fun de fs' => fs' = fs ∧
      de = direntAt (fs.ino d).data k) fs := by
  have hmax := h.length_le hlk hd
  have hoff : k * DIRENT + DIRENT ≤ (fs.ino d).data.length := by
    rwa [succ_mul] at hend
  have hwrap : (k * DIRENT + DIRENT) % 2 ^ 32 = k * DIRENT + DIRENT := by
    rw [MAXFILE_eq, BSIZE_eq] at hmax
    exact mod_eq_of_lt (by omega)
  rw [readDirent]
  refine wpe_seq (h.wpe_readi hlk hd (fun _ => true) (k * DIRENT) DIRENT) ?_
  rintro r fs' ⟨rfl, ⟨hbad, -⟩ | ⟨-, m, hm, rfl⟩⟩
  · exact absurd ⟨by omega, by omega⟩ hbad
  · obtain rfl : m = DIRENT := by omega
    have hall : mapped (fun _ => true) 0 DIRENT = DIRENT := mapped_eq _ _ fun _ _ => rfl
    dsimp only
    rw [hall, if_pos rfl, if_pos rfl]
    exact wpe_pure ⟨rfl, rfl⟩

/-! ## `dirlookup` -/

/-- How `dirlookup` of `name` in directory `d` may end. -/
def LookedUp (fs : State) (d : Nat) (name : List Byte) (r : Option (Ptr × Nat)) (fs' : State) : Prop :=
  (dirFind (fs.ino d).data name = none ∧ r = none ∧ fs' = fs) ∨
  ∃ m ip, dirFind (fs.ino d).data name = some m ∧ r = some (ip, m * DIRENT) ∧
    Got fs (direntAt (fs.ino d).data m).inum.toNat ip fs'

/-- **The loop of `dirlookup`**, after entries none of which has the name. -/
theorem Inside.wpe_dirlookupLoop (name : List Byte) (hsize : DIRENT ∣ (fs.ino d).data.length)
    (hE : (∀ p, 0 < (fs.itable p).ref) → E "iget: no inodes") (fuel k : Nat)
    (hfuel : entryCount (fs.ino d).data ≤ k + fuel)
    (hpre : ∀ j < k, ¬(direntAt (fs.ino d).data j).Is name) :
    wpe E (dirlookupLoop dp name fuel (k * DIRENT)) (LookedUp fs d name) fs := by
  induction fuel generalizing k with
  | zero =>
    refine wpe_pure (.inl ⟨dirFind_eq_none.mpr fun j hj => hpre j (by omega), rfl, rfl⟩)
  | succ fuel ih =>
    rw [dirlookupLoop]
    refine wpe_bind (wpe_get ?_)
    rw [h.size_eq hlk hd]
    by_cases hk : k < entryCount (fs.ino d).data
    · rw [if_pos ((mul_DIRENT_lt_iff hsize).mpr hk)]
      refine wpe_seq (h.wpe_readDirent hlk hd (succ_mul_DIRENT_le hsize hk)) ?_
      rintro de fs' ⟨rfl, rfl⟩
      -- the entries up to `k` do not have the name
      have hnext : ¬(direntAt (fs'.ino d).data k).Is name →
          wpe E (dirlookupLoop dp name fuel (k * DIRENT + DIRENT)) (LookedUp fs' d name) fs' := by
        intro hnot
        rw [← succ_mul]
        apply ih (k + 1) (by omega)
        intro j hj
        rcases Nat.lt_succ_iff_lt_or_eq.mp hj with hlt | rfl
        · exact hpre j hlt
        · exact hnot
      split
      · next hfree => exact hnext fun hin => hin.1 hfree
      · next hused =>
        split
        · next hname =>
          have hin : (direntAt (fs'.ino d).data k).Is name := ⟨hused, (namecmp_eq_zero_iff ..).mp hname⟩
          refine wpe_seq (Fs.wpe_iget fun hfull => hE fun p => (hfull p).1) fun ip fs'' hgot => ?_
          exact wpe_pure (.inr ⟨k, ip, dirFind_eq_some.mpr ⟨hk, hin, hpre⟩, rfl, hgot⟩)
        · next hname => exact hnext fun hin => hname ((namecmp_eq_zero_iff ..).mpr hin.2)
    · rw [if_neg fun hlt => hk ((mul_DIRENT_lt_iff hsize).mp hlt)]
      exact wpe_pure (.inl ⟨dirFind_eq_none.mpr fun j hj => hpre j (by omega), rfl, rfl⟩)

/-- **`dirlookup`** is a lookup in the contents of the directory.  It panics only if the inode table is
full. -/
theorem Inside.wpe_dirlookup (htype : (fs.ino d).type = T_DIR)
    (hsize : DIRENT ∣ (fs.ino d).data.length)
    (hE : (∀ p, 0 < (fs.itable p).ref) → E "iget: no inodes") (name : List Byte) :
    wpe E (dirlookup dp name) (LookedUp fs d name) fs := by
  rw [dirlookup]
  refine wpe_bind (wpe_get ?_)
  rw [if_neg (not_not.mpr ((h.type_eq hlk hd).trans htype)), h.size_eq hlk hd]
  have hloop := h.wpe_dirlookupLoop hlk hd name hsize hE (fs.ino d).data.length 0
    (by rw [zero_add]; exact entryCount_le _) fun j hj => absurd hj (not_lt_zero j)
  rwa [zero_mul] at hloop

/-! ## `dirlink` -/

/-- **The loop of `dirlink`** finds the first free entry, or the end. -/
theorem Inside.wpe_dirlinkLoop (hsize : DIRENT ∣ (fs.ino d).data.length) (fuel k : Nat)
    (hfuel : entryCount (fs.ino d).data ≤ k + fuel) (hk : k ≤ freeEntry (fs.ino d).data) :
    wpe E (dirlinkLoop dp fuel (k * DIRENT)) (fun r fs' => fs' = fs ∧
      r = freeEntry (fs.ino d).data * DIRENT) fs := by
  have hle := freeEntry_le (fs.ino d).data
  induction fuel generalizing k with
  | zero =>
    obtain rfl : k = freeEntry (fs.ino d).data := by omega
    exact wpe_pure ⟨rfl, rfl⟩
  | succ fuel ih =>
    rw [dirlinkLoop]
    refine wpe_bind (wpe_get ?_)
    rw [h.size_eq hlk hd]
    by_cases hlt : k < entryCount (fs.ino d).data
    · rw [if_pos ((mul_DIRENT_lt_iff hsize).mpr hlt)]
      refine wpe_seq (h.wpe_readDirent hlk hd (succ_mul_DIRENT_le hsize hlt)) ?_
      rintro de fs' ⟨rfl, rfl⟩
      split
      · next hfree =>
        refine wpe_pure ⟨rfl, ?_⟩
        rcases hk.lt_or_eq with hlt' | rfl
        · exact absurd hfree (freeEntry_first hlt')
        · rfl
      · next hused =>
        rw [← succ_mul]
        refine ih (k + 1) (by omega) ?_
        rcases hk.lt_or_eq with hlt' | rfl
        · exact hlt'
        · exact absurd (freeEntry_free hlt) hused
    · rw [if_neg fun hoff => hlt ((mul_DIRENT_lt_iff hsize).mp hoff)]
      refine wpe_pure ⟨rfl, ?_⟩
      rw [show k = freeEntry (fs.ino d).data by omega]

end Read

/-- **`iput`** of what `dirlookup` returned.  An entry of the table that was not in use is named anew and
is not in use. -/
theorem Inside.wpe_iput_got (h : Inside fs₀ held lk fs) (g : Got fs i ip fs') :
    wpe E (iput ip) (fun _ fs'' => Inside fs₀ held lk fs'' ∧ TableOnly fs fs'') fs' := by
  obtain ⟨rfl, hfound⟩ := g
  have hself := setEntry_self fs ip ((fs.itable ip).got i)
  rcases hfound with ⟨hpos, -⟩ | ⟨hzero, -⟩
  · have hgot : (fs.itable ip).got i = { fs.itable ip with ref := (fs.itable ip).ref + 1 } :=
      if_neg (by omega)
    refine wpe_mono (Fs.wpe_iput_keep ?_) ?_
    · rw [hself, hgot]
      exact fun hone => absurd hone.1 (by show (fs.itable ip).ref + 1 ≠ 1; omega)
    · rintro - _ rfl
      have hback : (fs.setEntry ip ((fs.itable ip).got i)).setEntry ip
          { (fs.setEntry ip ((fs.itable ip).got i)).itable ip with
            ref := ((fs.setEntry ip ((fs.itable ip).got i)).itable ip).ref - 1 } = fs := by
        rw [setEntry_setEntry, hself, hgot]
        show { fs with itable := update fs.itable ip (fs.itable ip) } = fs
        rw [update_eq_self]
      rw [hback]
      exact ⟨h, TableOnly.refl fs⟩
  · have hgot : (fs.itable ip).got i = { fs.itable ip with inum := i, ref := 1, valid := false } :=
      if_pos hzero
    refine wpe_mono (Fs.wpe_iput_keep ?_) ?_
    · rw [hself, hgot]
      exact fun hone => nomatch hone.2.1
    · rintro - _ rfl
      rw [setEntry_setEntry, hself, hgot]
      refine ⟨?_, TableOnly.setEntry ..⟩
      have href := h.ref ip
      have hnot : ip ∉ lk := fun hin => by
        have := (h.valid ip hin).1
        omega
      refine h.setEntry (h.toSettled.setEntry nofun nofun nofun) ?_ (fun _ _ => rfl) (fun y hy => ?_)
        (fun hpos => absurd hpos (by omega)) (h.locked ip) (fun _ _ => Iff.rfl) fun hin => absurd hin hnot
      · show 1 - 1 = _
        omega
      · have : 0 < refsTo held y.1 := Multiset.count_pos.mpr (Multiset.mem_map_of_mem _ hy)
        rw [if_neg fun he => by rw [he] at this; omega]
        exact hy

/-! ## Writing an entry -/

/-- There is room for entry `k` of directory `d`: below the largest size of a file, and with a free block
for each slot that lacks one. -/
def State.Room (fs : State) (d k : Nat) : Prop :=
  (k + 1) * DIRENT ≤ MAXFILE * BSIZE ∧
    fs.view.lacks d (spanSlots (k * DIRENT) DIRENT) ≤ fs.free

theorem sourceBytes_kernelSrc (l : List Byte) : sourceBytes (kernelSrc l) l.length = l := by
  apply ext_getElem
  · simp [sourceBytes]
  · intro x h1 h2
    simp [sourceBytes, kernelSrc, getD_eq_getElem?_getD, h2]

section Write

variable {de : Dirent} (h : Inside fs₀ held lk fs) (hlk : dp ∈ lk) (hd : (fs.itable dp).inum = d)
  (hsize : DIRENT ∣ (fs.ino d).data.length) (hk : k ≤ entryCount (fs.ino d).data)

include h hlk hd hsize

/-- An entry that is there has its block. -/
theorem Inside.room_of_lt (hlt : k < entryCount (fs.ino d).data) : fs.Room d k := by
  obtain ⟨-, -, halive, -, -⟩ := h.entry hlk hd
  have ha := allocated_iff.mpr halive
  have hlen : entryCount (fs.ino d).data * DIRENT = (fs.ino d).data.length := Nat.div_mul_cancel hsize
  have hend : (k + 1) * DIRENT ≤ (fs.ino d).data.length := by
    rw [← hlen]
    exact mul_le_mul_right _ hlt
  refine ⟨hend.trans (h.length_le hlk hd), ?_⟩
  have hzero : fs.view.lacks d (spanSlots (k * DIRENT) DIRENT) = 0 := by
    rw [succ_mul, ino_size halive] at hend
    exact h.good.lacks_eq_zero ha hend
  omega

include hk in
/-- **`writei` of an entry** writes all of it or changes nothing. -/
theorem Inside.wpe_writeDirent (hde : de.name.length = DIRSIZ) :
    wpe E (writei dp (kernelSrc de.toBytes) (k * DIRENT) DIRENT) (fun r fs' =>
      Inside fs₀ held lk fs' ∧
      ((fs.Room d k ∧ r = some DIRENT ∧ fs'.ino = update fs.ino d
          { fs.ino d with data := putDirent (fs.ino d).data k de }) ∨
        (¬fs.Room d k ∧ r ≠ some DIRENT ∧ fs'.ino = fs.ino))) fs := by
  obtain ⟨-, -, halive, -, -⟩ := h.entry hlk hd
  have hmax := h.length_le hlk hd
  have hlen : entryCount (fs.ino d).data * DIRENT = (fs.ino d).data.length := Nat.div_mul_cancel hsize
  have hoff : k * DIRENT ≤ (fs.ino d).data.length := by
    rw [← hlen]
    exact mul_le_mul_right _ hk
  have hview : fs.view.size d = (fs.ino d).data.length := (ino_size halive).symm
  have hbad : BadRange fs.view d (k * DIRENT) DIRENT ↔ ¬(k + 1) * DIRENT ≤ MAXFILE * BSIZE := by
    rw [BadRange, hview, succ_mul]
    rw [MAXFILE_eq, BSIZE_eq] at hmax ⊢
    rw [DIRENT] at hoff ⊢
    omega
  refine wpe_mono (h.wpe_writei hlk hd (kernelSrc de.toBytes) (k * DIRENT) DIRENT) ?_
  rintro r fs' (⟨hb, rfl, rfl⟩ | ⟨hok, tot, m, rfl, w⟩)
  · exact ⟨h, .inr ⟨fun hroom => hbad.mp hb hroom.1, by rintro ⟨⟩, rfl⟩⟩
  have hfits := not_not.mp (hbad.not.mp hok)
  refine ⟨w.inside, ?_⟩
  have hin : spanSlots (k * DIRENT) DIRENT ⊆ Finset.range NSLOT :=
    spanSlots_subset (by rwa [← succ_mul])
  by_cases htot : tot = DIRENT
  · subst htot
    have hbalance := w.free_add_lacks h halive subset_rfl hin
    rw [w.lacks_eq_zero halive hoff] at hbalance
    refine .inl ⟨⟨hfits, by omega⟩, rfl, ?_⟩
    have hbytes : sourceBytes (kernelSrc de.toBytes) DIRENT = de.toBytes := by
      have := sourceBytes_kernelSrc de.toBytes
      rwa [Dirent.length_toBytes hde] at this
    rw [w.ino, w.all rfl, add_zero, hbytes, putDirent, take_of_length_le]
    rw [length_splice hoff, Dirent.length_toBytes hde]
  · have hshort : tot < DIRENT := lt_of_le_of_ne w.le htot
    refine .inr ⟨fun hroom => htot ?_, fun he => htot (some.inj he), ?_⟩
    · exact w.all_of_free h halive (fun _ _ => rfl) subset_rfl hin hroom.2
    · rcases w.short hshort with ⟨rfl, -, hslot⟩ | ⟨hnone, -⟩
      · -- the block of the entry is missing, so not even its first byte is there
        have hself : fs'.ino d = _ := (congrFun w.ino d).trans (update_self ..)
        have halive' : (fs'.ino d).type ≠ 0 := by
          rw [hself]
          exact halive
        obtain rfl : tot = 0 := by
          by_contra hpos
          have hlong : k * DIRENT < fs'.view.size d := by
            have hlen' : fs'.view.size d = (fs'.ino d).data.length := (ino_size halive').symm
            rw [hlen', hself]
            rw [length_take, length_splice hoff, sourceBytes, length_map, length_range]
            omega
          have hhas := (w.inside.good.has (allocated_iff.mpr halive') hlong).2
          have hblk : (k * DIRENT + tot) / BSIZE = k * DIRENT / BSIZE := by
            rw [BSIZE_eq]
            rw [DIRENT] at hshort ⊢
            omega
          rw [hblk] at hslot
          exact hhas hslot
        rw [w.ino]
        have hnone : sourceBytes (kernelSrc de.toBytes) (0 + 0) = [] := rfl
        rw [hnone, splice_nil hoff, add_zero, max_eq_left hoff, take_length]
        exact update_eq_self ..
      · cases hnone

end Write

/-- What `dirlink` of `name` and `inum` leaves of the inodes, and what it returns. -/
inductive DirLinked (fs : State) (d : Nat) (name : List Byte) (inum : BitVec 16) (fs' : State) : Bool → Prop
  | found : dirFind (fs.ino d).data name ≠ none → fs'.ino = fs.ino → DirLinked fs d name inum fs' false
  | full : dirFind (fs.ino d).data name = none → ¬fs.Room d (freeEntry (fs.ino d).data) →
      fs'.ino = fs.ino → DirLinked fs d name inum fs' false
  | linked : dirFind (fs.ino d).data name = none → fs.Room d (freeEntry (fs.ino d).data) →
      fs'.ino = update fs.ino d { fs.ino d with
        data := putDirent (fs.ino d).data (freeEntry (fs.ino d).data) ⟨inum, strncpy DIRSIZ name⟩ } →
      DirLinked fs d name inum fs' true

/-- **`dirlink`** adds one entry, unless the name is there or there is no room. -/
theorem Inside.wpe_dirlink (h : Inside fs₀ held lk fs) (hlk : dp ∈ lk) (hd : (fs.itable dp).inum = d)
    (htype : (fs.ino d).type = T_DIR) (hsize : DIRENT ∣ (fs.ino d).data.length)
    (hE : (∀ p, 0 < (fs.itable p).ref) → E "iget: no inodes") (name : List Byte) (inum : Nat) :
    wpe E (dirlink dp name inum) (fun r fs' => Inside fs₀ held lk fs' ∧
      DirLinked fs d name (BitVec.ofNat 16 inum) fs' r) fs := by
  rw [dirlink]
  refine wpe_seq (h.wpe_dirlookup hlk hd htype hsize hE name) ?_
  rintro r fs' (⟨hnone, rfl, rfl⟩ | ⟨m, ip, hsome, rfl, hgot⟩)
  · refine wpe_bind (wpe_get ?_)
    rw [h.size_eq hlk hd]
    have hloop := h.wpe_dirlinkLoop hlk hd (E := E) hsize (fs'.ino d).data.length 0
      (by rw [zero_add]; exact entryCount_le _) (zero_le _)
    rw [zero_mul] at hloop
    refine wpe_seq hloop ?_
    rintro off fs₁ ⟨rfl, rfl⟩
    refine wpe_seq (h.wpe_writeDirent hlk hd hsize (freeEntry_le _) (strncpy_length name)) ?_
    rintro r fs₂ ⟨hin, ⟨hroom, rfl, hset⟩ | ⟨hroom, hne, hsame⟩⟩
    · exact wpe_pure ⟨hin, by simpa using .linked hnone hroom hset⟩
    · refine wpe_pure ⟨hin, ?_⟩
      rw [decide_eq_false hne]
      exact .full hnone hroom hsame
  · refine wpe_seq (h.wpe_iput_got hgot) ?_
    rintro - fs'' ⟨hin, ht⟩
    refine wpe_pure ⟨hin, .found ?_ ht.ino⟩
    rw [hsome]
    exact some_ne_none m

/-! ## Directories as finite maps -/

/-- What `dirlookup(dp, name)` finds in state `fs`: an inode number and the offset of its entry, or
nothing.  It panics only if the inode table is full. -/
def Finds (fs : State) (dp : Ptr) (name : List Byte) (r : Option (Nat × Nat)) : Prop :=
  wpe (fun e => e = "iget: no inodes" ∧ ∀ p, 0 < (fs.itable p).ref) (dirlookup dp name)
    (fun res fs' => match r with
      | none => res = none ∧ fs' = fs
      | some (i, off) => ∃ ip, res = some (ip, off) ∧ fs'.Refers ip i) fs

/-- What is found in a directory with the contents `data`. -/
def dirMap (data name : List Byte) : Option (Nat × Nat) :=
  (dirFind data name).map fun k => ((direntAt data k).inum.toNat, k * DIRENT)

theorem Got.refers (g : Got fs i ip fs') : fs'.Refers ip i := by
  obtain ⟨rfl, ⟨hpos, hi⟩ | ⟨hzero, -⟩⟩ := g
  · rw [State.Refers, setEntry_self, Inode.got, if_neg (by omega)]
    exact ⟨succ_pos _, hi⟩
  · rw [State.Refers, setEntry_self, Inode.got, if_pos hzero]
    exact ⟨one_pos, rfl⟩

theorem Inside.finds (h : Inside fs₀ held lk fs) (hlk : dp ∈ lk) (hd : (fs.itable dp).inum = d)
    (htype : (fs.ino d).type = T_DIR) (hsize : DIRENT ∣ (fs.ino d).data.length) (name : List Byte) :
    Finds fs dp name (dirMap (fs.ino d).data name) := by
  refine wpe_mono (h.wpe_dirlookup hlk hd htype hsize (fun hfull => ⟨rfl, hfull⟩) name) ?_
  rintro r fs' (⟨hnone, rfl, rfl⟩ | ⟨m, ip, hsome, rfl, hgot⟩)
  · rw [dirMap, hnone]
    exact ⟨rfl, rfl⟩
  · rw [dirMap, hsome]
    exact ⟨ip, rfl, hgot.refers⟩

/-- An entry that is found is the only one with its name. -/
theorem Distinct.of_dirMap (hok : Distinct data)
    (hf : dirMap data name = some (i, off)) : ∃ k < entryCount data, off = k * DIRENT ∧
      (direntAt data k).inum.toNat = i ∧ ∀ j < entryCount data, (direntAt data j).Is name ↔ j = k := by
  obtain ⟨k, hk, he⟩ := map_eq_some_iff.mp hf
  obtain ⟨hi, hoff⟩ := Prod.mk.inj he
  obtain ⟨hlt, his⟩ := hok.dirFind_eq_some.mp hk
  refine ⟨k, hlt, hoff.symm, hi, fun j hj => ⟨fun hin => ?_, fun hjk => hjk ▸ his⟩⟩
  exact hok j hj k hlt hin.1 his.1 (hin.2.symm.trans his.2)

/-- The contents of the root directory after boot. -/
def rootData : List Byte := (List.range 1024).map rootBlock.bytes

theorem booted_root_data : (booted.ino ROOTINO).data = rootData := by
  have hnode : (booted.view.dinode ROOTINO).type ≠ 0 := by
    show (booted.dinode ROOTINO).type ≠ 0
    rw [booted_dinode]
    decide
  rw [ino_eq (by decide), View.ino_of_ne_zero hnode]
  have hsize : booted.view.size ROOTINO = 1024 := by
    show (booted.dinode ROOTINO).size.toNat = 1024
    rw [booted_dinode]
    rfl
  dsimp only
  rw [View.content, hsize, rootData]
  refine map_congr_left fun x hx => ?_
  have hlt : x < BSIZE := mem_range.mp hx
  have hslot : booted.view.slot ROOTINO (slotOf (x / BSIZE)) = 46 := by
    show (booted.dinode ROOTINO).slot _ _ = 46
    rw [booted_dinode, rootDinode_slot, div_eq_of_lt hlt]
    rfl
  have hblk : booted.view.data (46 : BitVec 32).toNat = rootBlock := by
    show rootDisk mkfsMap rootInodes 46 = rootBlock
    rw [rootDisk, if_neg (by decide), if_neg (by decide), if_pos rfl]
  rw [View.byte, hslot, mod_eq_of_lt hlt, hblk]

theorem rootData_used : ∀ k < 64, (direntAt rootData k).inum ≠ 0 → k = 0 ∨ k = 1 := by
  decide +kernel

theorem rootData_ok : DirOk rootData := by
  have hlen : entryCount rootData = 64 := by simp [entryCount, rootData, DIRENT]
  have hne : cname (direntAt rootData 0).name ≠ cname (direntAt rootData 1).name := by decide +kernel
  refine ⟨by simp [rootData, DIRENT], fun j hj k hk huj huk he => ?_⟩
  rw [hlen] at hj hk
  rcases rootData_used j hj huj with rfl | rfl <;> rcases rootData_used k hk huk with rfl | rfl
  · rfl
  · exact absurd he hne
  · exact absurd he.symm hne
  · rfl

/-- Just after boot, with the root directory locked. -/
theorem booted_locked : ∃ fs, Inside booted {(rootPtr, ROOTINO)} {rootPtr} fs ∧ TableOnly booted fs := by
  have hrefers : booted.Refers rootPtr ROOTINO := ⟨by decide, rfl⟩
  have halive : (booted.ino ROOTINO).type ≠ 0 := by
    rw [booted_root_type]
    decide
  have hrun : wpe (fun _ => False) (do let ip ← idup rootPtr; ilock ip)
      (fun _ fs => Inside booted {(rootPtr, ROOTINO)} {rootPtr} fs ∧ TableOnly booted fs) booted := by
    refine wpe_seq ((booted_settled.enter booted_unlocked).wpe_idup hrefers) ?_
    rintro ip fs ⟨rfl, hin, ht⟩
    refine wpe_mono (hin.wpe_ilock (hin.refers (Multiset.mem_cons_self _ _)) (Finset.notMem_empty _)
      fun hz => halive (ht.ino ▸ hz)) ?_
    rintro - fs' ⟨hin', ht', -⟩
    exact ⟨hin', ht.trans ht'⟩
  obtain ⟨-, fs, -, hfs⟩ := hrun.wp
  exact ⟨fs, hfs⟩

end Xv6.Fs
