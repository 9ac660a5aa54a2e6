/-
# Xv6.Mkfs.Agree — `mkfs` and the kernel agree on the disk format.

The image that `mkfs` builds is handed to the kernel: `fsinit` finds the super block, `namei` finds each
file under its name, and `readi` delivers its bytes.  The directory is read entry by entry up to the one
that is looked for, so nothing here depends on what is behind the last entry of the root directory, where
`mkfs` may leave a hole.
-/
import Xv6.Mkfs.Range
import Xv6.Fs.Lookup
import Xv6.Fs.Init

namespace Xv6.Mkfs

open Lib Lib.Prog List Nat
open Xv6.Fs hiding State ialloc balloc

variable {j k : Nat} {e : BitVec 32 × List Byte} {args : List Arg} {a : Arg} {path : List Byte}
  {E : String → Prop}

/-! ## The entries of the root directory -/

/-- The inode numbers and names in the root directory. -/
def rootEntries (args : List Arg) : List (BitVec 32 × List Byte) :=
  (1, dot) :: (1, dotdot) :: args.zipIdx.map fun a => (.ofNat 32 (a.2 + 2), a.1.name)

theorem rootBytes_eq (args : List Arg) :
    rootBytes args = ((rootEntries args).map fun e => direntBytes e.1 e.2).flatten := by
  rw [rootBytes, rootEntries, map_cons, map_cons, flatten_cons, flatten_cons,
    append_assoc, map_map]
  rfl

theorem ofBytes_toBytes (de : Dirent) : Dirent.ofBytes de.toBytes = de := by
  have hinum : (de.inum.extractLsb' 8 8 ++ de.inum.extractLsb' 0 8 : BitVec (8 + 8)) = de.inum := by
    refine BitVec.eq_of_getLsbD_eq fun i hi => ?_
    rw [BitVec.getLsbD_append, BitVec.getLsbD_extractLsb', BitVec.getLsbD_extractLsb']
    by_cases h : i < 8
    · simp [h]
    · simp [h, show i - 8 < 8 by omega, show 8 + (i - 8) = i by omega]
  exact Dirent.ext hinum rfl

/-- The bytes of chunk `k` of a list that is made of chunks of the size of an entry. -/
theorem entryAt_flatten {l : List (List Byte)} (hlen : ∀ c ∈ l, c.length = DIRENT) {c : List Byte}
    (hk : l[k]? = some c) : entryAt (fun x => l.flatten.getD x 0) k = .ofBytes c := by
  refine congrArg Dirent.ofBytes ?_
  induction l generalizing k with
  | nil => cases hk
  | cons d l ih =>
    have hd : d.length = DIRENT := hlen d mem_cons_self
    cases k with
    | zero =>
      obtain rfl : d = c := Option.some_inj.mp hk
      refine ext_getElem (by rw [length_map, length_range, hd]) fun j h1 h2 => ?_
      rw [getElem_map, getElem_range, zero_mul, zero_add, flatten_cons]
      beta_reduce
      rw [getD_append _ _ _ _ h2, getD_eq_getElem _ _ h2]
    | succ k =>
      rw [← ih (fun c hc => hlen c (mem_cons_of_mem _ hc)) hk]
      refine map_congr_left fun j _ => ?_
      have hidx : (k + 1) * DIRENT + j = d.length + (k * DIRENT + j) := by
        rw [hd, succ_mul]
        omega
      rw [flatten_cons, hidx]
      beta_reduce
      rw [getD_append_right _ _ _ _ (Nat.le_add_right _ _), Nat.add_sub_cancel_left]

/-- Entry `k` of the root directory. -/
theorem entryAt_rootBytes (hk : (rootEntries args)[k]? = some e) :
    entryAt (fun x => (rootBytes args).getD x 0) k = ⟨e.1.setWidth 16, strncpy DIRSIZ e.2⟩ := by
  rw [rootBytes_eq]
  refine (entryAt_flatten (c := direntBytes e.1 e.2) (fun c hc => ?_) ?_).trans (ofBytes_toBytes _)
  · obtain ⟨e, -, rfl⟩ := mem_map.mp hc
    exact length_direntBytes e.1 e.2
  · rw [getElem?_map, hk]
    rfl

/-! ## Names -/

/-- What the names of the files must be like for all of them to be found. -/
structure NamesOk (args : List Arg) : Prop where
  nonempty : ∀ a ∈ args, a.name ≠ []
  short : ∀ a ∈ args, a.name.length ≤ DIRSIZ
  notDot : ∀ a ∈ args, a.name ≠ dot
  notDotdot : ∀ a ∈ args, a.name ≠ dotdot
  distinct : (args.map Arg.name).Nodup

theorem Arg.zero_not_mem_shortname (a : Arg) : 0 ∉ a.shortname := by
  rw [shortname]
  split
  · exact fun h => zero_not_mem_cstr _ (mem_of_mem_drop h)
  · exact zero_not_mem_cstr _

theorem Arg.mem_shortname (h : c ∈ a.name) : c ∈ a.shortname := by
  rw [name] at h
  split at h
  · exact mem_of_mem_tail h
  · exact h

theorem Arg.zero_not_mem_name (a : Arg) : 0 ∉ a.name := fun h =>
  a.zero_not_mem_shortname (mem_shortname h)

/-- A name that fits into an entry is compared as a whole. -/
theorem cname_eq_self (h0 : 0 ∉ s) (hlen : s.length ≤ DIRSIZ) : cname s = s := by
  rw [cname, cstr_of_not_mem h0, take_of_length_le hlen]

theorem rootEntries_names (args : List Arg) :
    (rootEntries args).map Prod.snd = dot :: dotdot :: args.map Arg.name := by
  have hfst : (args.zipIdx.map fun a => a.1.name) = args.map Arg.name := by
    have := congrArg (map Arg.name) (zipIdx_map_fst 0 args)
    rwa [map_map] at this
  rw [rootEntries, map_cons, map_cons, map_map, ← hfst]
  rfl

section

variable {args : List Arg} (h : NamesOk args)

include h

theorem NamesOk.nodup : (dot :: dotdot :: args.map Arg.name).Nodup := by
  refine nodup_cons.mpr ⟨fun hm => ?_, nodup_cons.mpr ⟨fun hm => ?_, h.distinct⟩⟩
  · rcases mem_cons.mp hm with hm | hm
    · exact absurd hm (by decide)
    · obtain ⟨a, ha, he⟩ := mem_map.mp hm
      exact h.notDot a ha he
  · obtain ⟨a, ha, he⟩ := mem_map.mp hm
    exact h.notDotdot a ha he

theorem NamesOk.cname_eq (he : e ∈ rootEntries args) : cname e.2 = e.2 := by
  have hm : e.2 ∈ dot :: dotdot :: args.map Arg.name :=
    rootEntries_names args ▸ mem_map_of_mem he
  rcases mem_cons.mp hm with hm | hm
  · rw [hm]
    rfl
  rcases mem_cons.mp hm with hm | hm
  · rw [hm]
    rfl
  · obtain ⟨a, ha, hn⟩ := mem_map.mp hm
    rw [← hn]
    exact cname_eq_self a.zero_not_mem_name (h.short a ha)

/-- An entry is the first one with its name. -/
theorem NamesOk.first (hd : (rootEntries args)[j]? = some d)
    (he : (rootEntries args)[k]? = some e) (hjk : j < k) : cname e.2 ≠ cname d.2 := by
  rw [h.cname_eq (mem_of_getElem? he), h.cname_eq (mem_of_getElem? hd)]
  intro heq
  have hnd := h.nodup
  rw [← rootEntries_names] at hnd
  obtain ⟨hj, rfl⟩ := List.getElem?_eq_some_iff.mp hd
  obtain ⟨hk, rfl⟩ := List.getElem?_eq_some_iff.mp he
  refine pairwise_iff_getElem.mp hnd j k (by rwa [length_map]) (by rwa [length_map]) hjk ?_
  rw [getElem_map, getElem_map, heq]

end

/-- A path of one element, with or without a leading slash. -/
theorem pathElems_one (hne : name ≠ []) (h0 : 0 ∉ name) (hs : slash ∉ name)
    (hlen : name.length ≤ DIRSIZ) (hpath : path = name ∨ path = slash :: name) :
    pathElems path = [name] := by
  have hslash : ∀ c ∈ name, c ≠ slash := fun c hc he => hs (he ▸ hc)
  have hdrop : name.dropWhile (· = slash) = name := by
    cases name with
    | nil => rfl
    | cons c t => exact dropWhile_cons_of_neg (by simpa using hslash c mem_cons_self)
  have htake : name.takeWhile (· ≠ slash) = name :=
    takeWhile_eq_self_iff.mpr fun c hc => decide_eq_true (hslash c hc)
  have hrest : name.dropWhile (· ≠ slash) = [] :=
    dropWhile_eq_nil_iff.mpr fun c hc => decide_eq_true (hslash c hc)
  have hskip : ∀ p, p.dropWhile (· = slash) = name → skipelem p = some (name, []) := fun p hp => by
    rw [skipelem, hp, if_neg hne, htake, hrest, take_of_length_le hlen]
    rfl
  have hnone : ∀ fuel, elems fuel [] = [] := fun fuel => by cases fuel <;> rfl
  have helems : ∀ p, 0 ∉ p → p ≠ [] → p.dropWhile (· = slash) = name → pathElems p = [name] :=
    fun p hp hpne hd => by
      rw [pathElems, cstr_of_not_mem hp]
      cases p with
      | nil => exact absurd rfl hpne
      | cons c t =>
        rw [length_cons, elems, hskip _ hd]
        exact congrArg (name :: ·) (hnone t.length)
  rcases hpath with rfl | rfl
  · exact helems path h0 hne hdrop
  · refine helems (slash :: name) (fun hm => ?_) (cons_ne_nil _ _) ?_
    · rcases mem_cons.mp hm with hm | hm
      · exact absurd hm (by decide)
      · exact h0 hm
    · rw [dropWhile_cons_of_pos (by decide), hdrop]

/-! ## The image in the kernel -/

/-- The kernel runs on the image of the files: the inodes are those that `mkfs` wrote. -/
structure Running (args : List Arg) (v : View) (fs : Fs.State) : Prop where
  sb : fs.sb = sb
  good : Good (sbOf NINODES) v
  alloc : ∀ j f, (filesOf args)[j]? = some f → v.Allocated (sbOf NINODES) (j + 1)
  ino : ∀ j f, (filesOf args)[j]? = some f → v.ino (j + 1) = ⟨f.1, 0, 0, 1, f.2⟩
  node : ∀ i < NINODES, fs.dinode i =
    if i = ROOTINO then (v.dinode i).setSize (fixedSize (v.size i)) else v.dinode i
  data : ∀ b, (sbOf NINODES).Data b → fs.buf b = v.data b
  used : ∀ b < FSSIZE, fs.used b = v.used b

namespace Running

variable {args : List Arg} {v : View} {fs fs' : Fs.State} {j : Nat} {f : BitVec 16 × List Byte}

section

variable (h : Running args v fs)

include h

theorem congr (hbuf : fs'.buf = fs.buf) (hsb : fs'.sb = fs.sb) : Running args v fs' := by
  have hd : ∀ i, fs'.dinode i = fs.dinode i := fun i => by
    rw [Fs.State.dinode, Fs.State.dinode, hbuf, hsb]
  refine ⟨hsb.trans h.sb, h.good, h.alloc, h.ino, fun i hi => (hd i).trans (h.node i hi),
    fun b hb => by rw [hbuf]; exact h.data b hb, fun b hb => ?_⟩
  rw [← h.used b hb, Fs.State.used, Fs.State.used, hbuf, hsb]

theorem content (hf : (filesOf args)[j]? = some f) : v.content (j + 1) = f.2 := by
  have hino := h.ino j f hf
  rw [View.ino_of_ne_zero (h.alloc j f hf).2] at hino
  exact congrArg Ino.data hino

theorem size (hf : (filesOf args)[j]? = some f) : v.size (j + 1) = f.2.length := by
  rw [← View.length_content, h.content hf]

/-- The dinode that the kernel reads has the blocks that `mkfs` wrote. -/
theorem addrs (hi : i < NINODES) :
    (fs.dinode i).addrs = (v.dinode i).addrs ∧ (fs.dinode i).type = (v.dinode i).type := by
  rw [h.node i hi]
  split <;> exact ⟨rfl, rfl⟩

theorem type (hf : (filesOf args)[j]? = some f) : (fs.dinode (j + 1)).type = f.1 := by
  rw [(h.addrs (h.alloc j f hf).1).2, ← View.ino_type, h.ino j f hf]

theorem slot (ha : v.Allocated (sbOf NINODES) i) (k : Nat) :
    (fs.dinode i).slot fs.buf k = v.slot i k :=
  h.good.slot_congr ha (h.addrs ha.1).1 h.data k

/-- The kernel finds the blocks where `mkfs` put them. -/
theorem own (x : Nat × Nat) : fs.view.own (sbOf NINODES) x = v.own (sbOf NINODES) x := by
  refine View.own_congr (and_congr_right fun hi => ?_) fun ha _ => h.slot ha x.2
  rw [show fs.view.dinode x.1 = fs.dinode x.1 from rfl, (h.addrs hi).2]

/-- The bytes that the kernel finds are those that `mkfs` wrote. -/
theorem byteAt (hf : (filesOf args)[j]? = some f)
    (hx : x < f.2.length) : (fs.dinode (j + 1)).Has fs.buf x ∧
      (fs.dinode (j + 1)).byteAt fs.buf x = f.2.getD x 0 := by
  have ha := h.alloc j f hf
  have hhas := h.good.has ha (x := x) (by rwa [h.size hf])
  rw [Dinode.Has, Dinode.byteAt, h.slot ha, h.data _ (h.good.slot_data ha (slotOf_lt hhas.1) hhas.2)]
  refine ⟨hhas, ?_⟩
  rw [← h.content hf, View.content, getD_eq_getElem?_getD, getElem?_map,
    getElem?_range (by rwa [h.size hf])]
  rfl

theorem length_le (hf : (filesOf args)[j]? = some f) : f.2.length ≤ MAXFILE * BSIZE := by
  rw [← h.size hf]
  exact h.good.size _ (h.alloc j f hf)

/-- The size of a file is its length; that of the root directory is at least that. -/
theorem dinode_size (hf : (filesOf args)[j]? = some f) : (fs.dinode (j + 1)).size.toNat =
      if j + 1 = ROOTINO then fixedSize f.2.length else f.2.length := by
  have hle := h.length_le hf
  rw [MAXFILE_eq, BSIZE_eq] at hle
  rw [h.node _ (h.alloc j f hf).1]
  split
  · rw [h.size hf, Dinode.setSize, fixedSize, BSIZE_eq]
    exact mod_eq_of_lt (by omega)
  · exact h.size hf

/-- The first block of the root directory holds the entries of the files. -/
theorem rootEntry (he : (rootEntries args)[k]? = some e) :
    (fs.dinode ROOTINO).Has fs.buf (k * DIRENT) ∧
      entryAt ((fs.dinode ROOTINO).byteAt fs.buf) k = ⟨e.1.setWidth 16, strncpy DIRSIZ e.2⟩ ∧
      k * DIRENT + DIRENT ≤ (fs.dinode ROOTINO).size.toNat := by
  have hroot : (filesOf args)[0]? = some (T_DIR, rootBytes args) := rfl
  have hk : k < args.length + 2 := by
    have hlen : (rootEntries args).length = args.length + 2 := by simp [rootEntries]
    exact hlen ▸ (List.getElem?_eq_some_iff.mp he).1
  have hend : k * DIRENT + DIRENT ≤ (rootBytes args).length := by
    rw [length_rootBytes, DIRENT]
    omega
  have hpos : 0 < DIRENT := by decide
  refine ⟨(h.byteAt hroot (x := k * DIRENT) (by dsimp only; omega)).1, ?_, ?_⟩
  · rw [← entryAt_rootBytes he]
    refine entryAt_congr fun x _ hx => (h.byteAt hroot ?_).2
    rw [succ_mul] at hx
    exact hx.trans_le hend
  · have hsize : (fs.dinode ROOTINO).size.toNat = fixedSize (rootBytes args).length :=
      (h.dinode_size hroot).trans (if_pos rfl)
    rw [hsize, fixedSize, BSIZE_eq]
    omega

end

end Running

/-! ## A walk through the kernel -/

/-- The entry of the root directory during a walk from it. -/
def rootInode : Inode := { noInode with inum := ROOTINO, ref := 2 }

theorem wpe_start (ht : fs.itable = bootTable) (path : List Byte) :
    wpe E (if (cstr path).head? = some slash then iget ROOTINO else idup rootPtr)
      (fun ip fs' => ip = rootPtr ∧ fs' = fs.setEntry rootPtr rootInode) fs := by
  have hroot : fs.itable rootPtr = { noInode with inum := ROOTINO, ref := 1 } := by
    rw [ht, bootTable, if_pos rfl]
  split
  · refine wpe_mono (wpe_iget fun hfull => absurd ?_ (hfull rootPtr).2) ?_
    · rw [hroot]
    · rintro ip fs' ⟨rfl, hfound⟩
      have hip : ip = rootPtr := by
        by_contra hne
        have href : (fs.itable ip).ref = 0 := by rw [ht, bootTable, if_neg hne]; rfl
        rcases hfound with hused | hfree
        · omega
        · refine hfree.2 rootPtr ?_ ?_ <;> rw [hroot]
          exact one_pos
      subst hip
      refine ⟨rfl, ?_⟩
      rw [hroot]
      rfl
  · refine wpe_bind (wpe_setInode ?_)
    refine wpe_pure ⟨rfl, ?_⟩
    rw [hroot]
    rfl

section

variable {args : List Arg} {v : View} {fs : Fs.State}

/-- **`namei`** of a path that names entry `k` of the root directory finds its inode. -/
theorem wpe_namei_root (h : Running args v fs) (ht : fs.itable = bootTable) (hn : NamesOk args)
    (he : (rootEntries args)[k]? = some e) (hinum : e.1.setWidth 16 ≠ 0)
    (hpath : pathElems path = [e.2]) :
    wpe E (namei rootPtr path) (fun r fs' => ∃ ip, r = some ip ∧
      (fs'.itable ip).inum = (e.1.setWidth 16).toNat ∧ fs'.buf = fs.buf ∧ fs'.sb = fs.sb ∧
      ((e.1.setWidth 16).toNat = ROOTINO ∨ fs'.itable ip = noInode.got (e.1.setWidth 16).toNat)) fs := by
  rw [namei]
  refine wpe_bind (wpe_seq (wpe_start ht path) ?_)
  rintro _ _ ⟨rfl, rfl⟩
  set fs1 := fs.setEntry rootPtr rootInode with hfs1
  have hentry : fs1.itable rootPtr = rootInode := setEntry_self ..
  have hdin : fs1.dinode (fs1.itable rootPtr).inum = fs.dinode ROOTINO := by
    rw [hentry]
    rfl
  have htype : (fs.dinode ROOTINO).type = T_DIR := h.type (j := 0) rfl
  set x := (fs1.itable rootPtr).lock (fs1.dinode (fs1.itable rootPtr).inum) with hx
  have hxd : x.toDinode = fs.dinode ROOTINO := by
    rw [hx, hdin, hentry]
    rfl
  have hxref : x.ref = 2 := by
    rw [hx, hentry]
    rfl
  have hlt : ∀ j < k, ∃ d, (rootEntries args)[j]? = some d := fun j hj =>
    ⟨_, List.getElem?_eq_getElem (hj.trans (List.getElem?_eq_some_iff.mp he).1)⟩
  have hfree : ∃ p, (fs1.itable p).ref = 0 := by
    refine ⟨⟨1, by decide⟩, ?_⟩
    rw [hfs1, setEntry_ne (by decide), ht]
    rfl
  rw [hpath]
  obtain ⟨hhas, hentryk, hend⟩ := h.rootEntry he
  refine wpe_mono (wpe_namexLoop_one (k := k) hx hxref.ge (by rw [hentry]; rfl)
    (by rw [hxd]; exact htype) (by rw [hxd]; exact hend) (fun j hj => ?_) (fun j hj his => ?_) ?_
    fun hfull => ?_) ?_
  · rw [hxd]
    rcases lt_or_eq_of_le hj with hj | rfl
    · obtain ⟨d, hd⟩ := hlt j hj
      exact (h.rootEntry hd).1
    · exact hhas
  · obtain ⟨d, hd⟩ := hlt j hj
    rw [hxd] at his
    have hname := his.2
    rw [show fs1.buf = fs.buf from rfl, (h.rootEntry hd).2.1, cname_strncpy] at hname
    exact hn.first hd he hj hname
  · rw [hxd, show fs1.buf = fs.buf from rfl, hentryk]
    exact ⟨hinum, (cname_strncpy e.2).symm⟩
  · obtain ⟨p, hp⟩ := hfree
    exact absurd (hfull p) (by omega)
  · rintro _ fs2 ⟨next, rfl, hnext, hbuf, hsb, hwhere⟩
    rw [hxd, show fs1.buf = fs.buf from rfl, hentryk] at hnext hwhere
    refine wpe_pure ⟨next, rfl, hnext, hbuf, hsb, ?_⟩
    rcases hwhere with hroot | hgot
    · exact .inl (hroot.trans (by rw [hentry]; rfl))
    · by_cases hr : next = rootPtr
      · refine .inl (hnext.symm.trans ?_)
        rw [hgot, hr, hentry]
        rfl
      · rw [hfs1, setEntry_ne hr, ht, bootTable, if_neg hr] at hgot
        exact .inr hgot

/-- Look a path up, lock what it names and read from its start. -/
def readPath (path : List Byte) (n : Nat) : Prog Fs.State (Option (Option Nat × List Byte)) := do
  match ← namei rootPtr path with
  | none => pure none
  | some ip =>
    ilock ip
    some <$> readi ip (fun _ => true) 0 n

theorem rootEntries_arg (ha : args[j]? = some a) :
    (rootEntries args)[j + 2]? = some (.ofNat 32 (j + 2), a.name) := by
  simp [rootEntries, getElem?_zipIdx, ha]

/-- **The bytes of a file** are read through its name. -/
theorem wpe_readPath (h : Running args v fs) (ht : fs.itable = bootTable) (hn : NamesOk args)
    (ha : args[j]? = some a) (hpath : pathElems path = [a.name]) (n : Nat) :
    wpe E (readPath path n)
      (fun r _ => r = some (some (min n a.bytes.length), a.bytes.take n)) fs := by
  have hf : (filesOf args)[j + 1]? = some (T_FILE, a.bytes) := by
    rw [filesOf, getElem?_cons_succ, getElem?_map, ha]
    rfl
  have hj : j + 2 < NINODES := (h.alloc _ _ hf).1
  have hN : NINODES = 200 := rfl
  have hi16 : ((BitVec.ofNat 32 (j + 2)).setWidth 16).toNat = j + 2 := by
    rw [BitVec.toNat_setWidth, BitVec.toNat_ofNat]
    omega
  have hne : (BitVec.ofNat 32 (j + 2)).setWidth 16 ≠ 0 := fun he => by
    rw [he] at hi16
    cases hi16
  rw [readPath]
  refine wpe_seq (wpe_namei_root h ht hn (rootEntries_arg ha) hne hpath) ?_
  rintro _ fs1 ⟨ip, rfl, hinum, hbuf, hsb, hwhere⟩
  rw [hi16] at hinum hwhere
  have hx : fs1.itable ip = noInode.got (j + 2) := by
    rcases hwhere with hroot | hx
    · exact absurd hroot (by rw [ROOTINO]; omega)
    · exact hx
  have h1 := h.congr hbuf hsb
  have htype := h1.type hf
  have hdin : fs1.dinode (fs1.itable ip).inum = fs1.dinode (j + 1 + 1) := by rw [hinum]
  refine wpe_seq (wpe_ilock (by rw [hx]; exact one_pos) (by rw [hx]; rfl) fun _ h0 => ?_) ?_
  · rw [hdin, htype] at h0
    cases h0
  rintro _ _ ⟨rfl, -⟩
  set y := (fs1.itable ip).lock (fs1.dinode (fs1.itable ip).inum) with hy
  have hyd : ((fs1.setEntry ip y).itable ip).toDinode = fs1.dinode (j + 1 + 1) := by
    have hvalid : (fs1.itable ip).valid = false := by rw [hx]; rfl
    rw [setEntry_self, hy, Inode.lock, hvalid, hdin]
    rfl
  have hsize : ((fs1.setEntry ip y).itable ip).size.toNat = a.bytes.length := by
    rw [hyd]
    exact (h1.dinode_size hf).trans (if_neg (by rw [ROOTINO]; omega))
  have hat : ∀ x < a.bytes.length, ((fs1.setEntry ip y).itable ip).toDinode.Has fs1.buf x ∧
      ((fs1.setEntry ip y).itable ip).toDinode.byteAt fs1.buf x = a.bytes.getD x 0 := by
    rw [hyd]
    exact fun x hx => h1.byteAt hf hx
  refine wpe_map (wpe_mono (wp_readi_clip (m := min n a.bytes.length) (by rw [hsize, Nat.sub_zero])
    (fun _ _ => rfl) (zero_le _) (by omega) fun x _ hx => (hat x (by omega)).1).wpe ?_)
  rintro r fs2 ⟨-, rfl⟩
  refine congrArg (fun l => some (some (min n a.bytes.length), l)) ?_
  refine ext_getElem (by simp) fun x hx hx' => ?_
  rw [length_map, length_range] at hx
  rw [getElem_map, getElem_range, zero_add, getElem_take]
  exact (hat x (by omega)).2.trans (getD_eq_getElem _ _ _)

end

/-! ## From the image to the kernel -/

/-- The bits that `balloc` of `mkfs` sets, as the kernel reads them. -/
theorem testBit_usedMap (m : Nat) (hb : b < BPB) :
    testBit (usedMap m) b = decide (b < m) := by
  induction m with
  | zero =>
    rw [usedMap, range_zero, foldl_nil, testBit_eq]
    rw [decide_eq_false (not_lt_zero b), Block.bytes]
    split
    · exact BitVec.getLsbD_zero
    · exact BitVec.getLsbD_zero
  | succ m ih =>
    rw [usedMap, range_succ, foldl_append, ← usedMap]
    rw [foldl_cons, foldl_nil, testBit_setBit _ _ hb, ih, ← Bool.decide_or, decide_eq_decide]
    omega

theorem readsb_sbBlock (h : disk 1 = sbBlock) :
    readsb (Machine.boot disk) = (FSMAGIC, sb) := by
  rw [readsb, (Machine.clean_boot disk 1).data, h]
  have hk : ∀ k < 8, entry sbBlock k = [FSMAGIC, .ofNat 32 sb.size, .ofNat 32 sb.nblocks,
      .ofNat 32 sb.ninodes, .ofNat 32 sb.nlog, .ofNat 32 sb.logstart, .ofNat 32 sb.inodestart,
      .ofNat 32 sb.bmapstart].getD k 0 := by decide +kernel
  rfl

/-- The kernel boots from the image. -/
theorem Finished.running (lru : Bcache → Nat → Option Nat)
    (hold : Holds NINODES (filesOf args) s₀ v) (hfin : Finished NINODES s₀ v s) :
    ∃ fs, fsinit lru s.img bootTable = .ok fs ∧ fs.itable = bootTable ∧ Running args v fs := by
  have hsb : readsb (Machine.boot s.img) = (FSMAGIC, sb) := readsb_sbBlock (hfin.low 1 (by decide))
  have hlog : headN (s.img sb.logstart) = 0 := by
    rw [hfin.low sb.logstart (by decide), if_neg (by decide)]
    decide +kernel
  obtain ⟨fs, hrun, hfsb, ht, -, hbuf⟩ := fsinit_of_clear lru s.img bootTable hsb hlog
  have hstart : sb.logstart = 2 := rfl
  refine ⟨fs, hrun, ht, hfsb, hold.good, fun j f hf => hold.allocated hf,
    fun j f hf => (hold.ino j f hf).2, fun i hi => ?_, fun b hb => ?_, fun b hb => ?_⟩
  · have := (IBLOCK_range (n := NINODES) rfl hi).1
    have hinodes : sb.inodestart = 32 := rfl
    rw [Fs.State.dinode, hfsb, (hbuf _ (by omega)).1]
    exact hfin.node i hi
  · have := ((data_iff NINODES b).mp hb).1
    rw [nmeta_eq] at this
    rw [(hbuf b (by omega)).1, hfin.data b hb]
  · rw [FSSIZE_eq] at hb
    have hmap : BBLOCK b sb = sb.bmapstart := by
      rw [BBLOCK, BPB_eq, div_eq_of_lt (by omega), zero_add]
    rw [Fs.State.used, hfsb, hmap, (hbuf _ (by decide)).1, hfin.map,
      mod_eq_of_lt (by rw [BPB_eq]; omega), testBit_usedMap _ (by rw [BPB_eq]; omega), hold.after.used]

/-! ## Agreement -/

/-- Files that `mkfs` opens and that fit into the image. -/
structure Inputs (args : List Arg) : Prop extends NamesOk args where
  noSlash : ∀ a ∈ args, slash ∉ a.shortname
  opens : ∀ a ∈ args, a.file ≠ none
  size : ∀ a ∈ args, a.bytes.length ≤ MAXFILE * BSIZE
  inodes : args.length + 1 < NINODES
  blocks : nmeta + blocks (filesOf args) ≤ FSSIZE

theorem Inputs.fits (h : Inputs args) : Fits args := by
  refine ⟨h.noSlash, h.opens, h.size, ?_, h.blocks⟩
  have hN : NINODES = 200 := rfl
  have := h.inodes
  rw [length_rootBytes, MAXFILE_eq, BSIZE_eq, DIRENT]
  omega

/-- The kernel finds the files: each can be read through its name, `.` and `..` are the root directory,
no block is in two slots, and the free map has the metadata and the blocks in slots. -/
structure Agrees (args : List Arg) (fs : Fs.State) : Prop where
  file : ∀ a ∈ args, ∀ path, path = a.name ∨ path = slash :: a.name → ∀ n,
    wp (readPath path n) (fun r _ => r = some (some (min n a.bytes.length), a.bytes.take n)) fs
  dots : ∀ name ∈ [dot, dotdot], ∀ path, path = name ∨ path = slash :: name →
    wp (namei rootPtr path) (fun r fs' => ∃ ip, r = some ip ∧ (fs'.itable ip).inum = ROOTINO) fs
  once : ∀ {x y b}, fs.view.own fs.sb x = some b → fs.view.own fs.sb y = some b → x = y
  bitmap : ∀ b < FSSIZE, fs.used b = true ↔ b < nmeta ∨ ∃ x, fs.view.own fs.sb x = some b

theorem Running.agrees (h : Running args v fs)
    (ht : fs.itable = bootTable) (hin : Inputs args) : Agrees args fs := by
  have hown : ∀ x, fs.view.own fs.sb x = v.own (sbOf NINODES) x := fun x => by
    rw [h.sb]
    exact h.own x
  refine ⟨fun a ha path hpath n => ?_, fun name hname path hpath => ?_, fun hx hy => ?_, fun b hb => ?_⟩
  · obtain ⟨j, hj⟩ := getElem?_of_mem ha
    exact (wpe_readPath h ht hin.toNamesOk hj (pathElems_one (hin.nonempty a ha) a.zero_not_mem_name
      (fun hs => hin.noSlash a ha (Arg.mem_shortname hs)) (hin.short a ha) hpath) n).wp
  · have hk : ∃ k : Nat, (rootEntries args)[k]? = some ((1 : BitVec 32), name) := by
      rcases mem_pair.mp hname with rfl | rfl
      · exact ⟨0, rfl⟩
      · exact ⟨1, rfl⟩
    obtain ⟨k, hk⟩ := hk
    have helems : pathElems path = [name] := by
      rcases mem_pair.mp hname with rfl | rfl <;>
        exact pathElems_one (by decide) (by decide) (by decide) (by decide) hpath
    refine wp_mono (wpe_namei_root h ht hin.toNamesOk hk (by dsimp only; decide) helems).wp ?_
    rintro r fs' ⟨ip, rfl, hinum, -⟩
    exact ⟨ip, rfl, hinum⟩
  · rw [hown] at hx hy
    exact h.good.owns.inj hx hy
  · rw [h.used b hb]
    by_cases hlow : b < nmeta
    · exact ⟨fun _ => .inl hlow, fun _ => h.good.reserved b hlow⟩
    · have hdata : (sbOf NINODES).Data b := (data_iff NINODES b).mpr ⟨by omega, hb⟩
      simp only [hown]
      exact (h.good.owns.used_iff hdata).trans (or_iff_right hlow).symm

/-- **`mkfs` and the kernel agree on the disk format.**  The image of files that fit boots, and the kernel
finds the files in it, in whatever pieces `read` delivered them. -/
theorem kernel_agrees_mkfs (lru : Bcache → Nat → Option Nat) {args : List Arg} (h : Inputs args) :
    ∃ s fs, mkfs args = .ok s ∧ fsinit lru s.img bootTable = .ok fs ∧ Agrees args fs := by
  have hmain := wpe_main (n := NINODES) (E := fun _ => False) rfl h.inodes fun hno => absurd h.fits hno
  obtain ⟨_, s, hrun, s0, v, hold, hfin⟩ := hmain.wp
  obtain ⟨fs, hboot, ht, hr⟩ := hfin.running lru hold
  exact ⟨s, fs, mkfs_eq_ok.mpr hrun, hboot, hr.agrees ht h⟩

/-- `mkfs user/_sh R`, with a program of three bytes that is read in two pieces and an empty file. -/
def twoFiles : List Arg :=
  [⟨userDir ++ [0x5f, 0x73, 0x68], some [[1, 2], [3]]⟩, ⟨[0x52], some []⟩]

theorem inputs_twoFiles : Inputs twoFiles where
  nonempty := by decide
  short := by decide
  notDot := by decide
  notDotdot := by decide
  distinct := by decide
  noSlash := by decide
  opens := by decide
  size := by decide
  inodes := by decide
  blocks := by decide

theorem kernel_agrees_mkfs_twoFiles : ∃ s fs, mkfs twoFiles = .ok s ∧
    fsinit (fun _ _ => none) s.img bootTable = .ok fs ∧ Agrees twoFiles fs :=
  kernel_agrees_mkfs (fun _ _ => none) inputs_twoFiles

end Xv6.Mkfs
