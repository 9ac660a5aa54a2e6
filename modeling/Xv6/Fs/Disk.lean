/-
# Xv6.Fs.Disk — the state shows a view: blocks, bit map and dinodes.

`Shows fs o v` reads the state of the file system as a view.  With `o = some ip` the dinode of the
inode in table entry `ip` is the in-memory copy: between `ilock` and `iupdate` that is the one that
counts.  Every function below changes buffers that it then lists in the log header, and at most the
copy in `ip` (`Evolves`); what it does to the view is one of the updates of `Xv6.Fs.Blocks`.
-/
import Xv6.Fs.Blocks
import Xv6.Fs.Defs

namespace Xv6.Fs

open Lib Lib.Prog Function List View Dinode

variable {f : Block → Block} {Q : Unit → State → Prop}

variable {fs fs' fs'' : State} {o : Option Ptr} {v v' : View} {ip : Ptr} {i j b bn : Nat}

/-! ## What may change -/

/-- From `fs` to `fs'` every changed buffer is listed in the log header, and of the inode table only the
copy of the inode in entry `o` may have changed. -/
structure Evolves (o : Option Ptr) (fs fs' : State) : Prop where
  sb : fs'.sb = fs.sb
  disk : fs'.disk = fs.disk
  others : ∀ p, o ≠ some p → fs'.itable p = fs.itable p
  entry : ∀ p, ∃ n, fs'.itable p = { fs.itable p with toDinode := n }
  lh : ∀ b ∈ fs.lh, b ∈ fs'.lh
  buf : ∀ b, b ∉ fs'.lh → fs'.buf b = fs.buf b

namespace Evolves

theorem refl (o : Option Ptr) (fs : State) : Evolves o fs fs :=
  ⟨rfl, rfl, fun _ _ => rfl, fun _ => ⟨_, rfl⟩, fun _ h => h, fun _ _ => rfl⟩

theorem trans (h : Evolves o fs fs') (h' : Evolves o fs' fs'') : Evolves o fs fs'' where
  sb := h'.sb.trans h.sb
  disk := h'.disk.trans h.disk
  others p hp := (h'.others p hp).trans (h.others p hp)
  entry p := by
    obtain ⟨n, hn⟩ := h.entry p
    obtain ⟨n', hn'⟩ := h'.entry p
    exact ⟨n', by rw [hn', hn]⟩
  lh b hb := h'.lh b (h.lh b hb)
  buf b hb := (h'.buf b hb).trans (h.buf b fun hin => hb (h'.lh b hin))

/-- A change of buffers alone. -/
theorem of_none (h : Evolves none fs fs') : Evolves o fs fs' :=
  ⟨h.sb, h.disk, fun p _ => h.others p nofun, h.entry, h.lh, h.buf⟩

theorem itable (h : Evolves none fs fs') : fs'.itable = fs.itable :=
  funext fun p => h.others p nofun

theorem inum (h : Evolves o fs fs') (p : Ptr) : (fs'.itable p).inum = (fs.itable p).inum := by
  obtain ⟨n, hn⟩ := h.entry p
  rw [hn]

end Evolves

/-- From `fs` to `fs'` of the super block and the inode table only the copy in entry `o` may have
changed. -/
structure Frame (o : Option Ptr) (fs fs' : State) : Prop where
  sb : fs'.sb = fs.sb
  others : ∀ p, o ≠ some p → fs'.itable p = fs.itable p
  entry : ∀ p, ∃ n, fs'.itable p = { fs.itable p with toDinode := n }

theorem Evolves.frame (h : Evolves o fs fs') : Frame o fs fs' := ⟨h.sb, h.others, h.entry⟩

theorem Frame.trans (h : Frame o fs fs') (h' : Frame o fs' fs'') : Frame o fs fs'' where
  sb := h'.sb.trans h.sb
  others p hp := (h'.others p hp).trans (h.others p hp)
  entry p := by
    obtain ⟨n, hn⟩ := h.entry p
    obtain ⟨n', hn'⟩ := h'.entry p
    exact ⟨n', by rw [hn', hn]⟩

theorem Frame.inum (h : Frame o fs fs') (p : Ptr) : (fs'.itable p).inum = (fs.itable p).inum := by
  obtain ⟨n, hn⟩ := h.entry p
  rw [hn]

/-! ## Primitive changes -/

/-- The state after `logData`. -/
def State.upd (fs : State) (b : Nat) (f : Block → Block) : State :=
  { fs with buf := update fs.buf b (f (fs.buf b)),
            lh := if b ∈ fs.lh then fs.lh else fs.lh ++ [b] }

theorem wp_logData (h : Q ⟨⟩ (fs.upd b f)) : wp (logData b f) Q fs :=
  wp_bind (wp_modify (wp_modify h))

@[simp] theorem buf_upd_self (fs : State) (b : Nat) (f : Block → Block) :
    (fs.upd b f).buf b = f (fs.buf b) := update_self ..

theorem buf_upd_ne (h : c ≠ b) : (fs.upd b f).buf c = fs.buf c :=
  update_of_ne h ..

theorem used_upd_ne (h : BBLOCK c fs.sb ≠ b) : (fs.upd b f).used c = fs.used c :=
  congrArg (testBit · (c % BPB)) (buf_upd_ne h)

theorem dinode_upd_ne (h : IBLOCK i fs.sb ≠ b) : (fs.upd b f).dinode i = fs.dinode i :=
  congrArg (load · (inodeOff i)) (buf_upd_ne h)

theorem mem_lh_upd (fs : State) (b : Nat) (f : Block → Block) : b ∈ (fs.upd b f).lh := by
  simp only [State.upd]
  split
  · assumption
  · exact mem_append_right _ (mem_singleton_self b)

theorem Evolves.upd (fs : State) (b : Nat) (f : Block → Block) : Evolves none fs (fs.upd b f) where
  sb := rfl
  disk := rfl
  others _ _ := rfl
  entry _ := ⟨_, rfl⟩
  lh c hc := by
    simp only [State.upd]
    split
    · exact hc
    · exact mem_append_left _ hc
  buf c hc := buf_upd_ne fun h => hc (by rw [h]; exact mem_lh_upd fs b f)

/-- The state after `setInode`. -/
def State.setEntry (fs : State) (ip : Ptr) (x : Inode) : State :=
  { fs with itable := update fs.itable ip x }

theorem wp_setInode {g : Inode → Inode} (h : Q ⟨⟩ (fs.setEntry ip (g (fs.itable ip)))) :
    wp (setInode ip g) Q fs :=
  wp_modify h

theorem wpe_setInode {g : Inode → Inode} {E : String → Prop}
    (h : Q ⟨⟩ (fs.setEntry ip (g (fs.itable ip)))) : wpe E (setInode ip g) Q fs :=
  wpe_modify h

@[simp] theorem setEntry_self (fs : State) (ip : Ptr) (x : Inode) :
    (fs.setEntry ip x).itable ip = x := update_self ..

theorem setEntry_ne (h : p ≠ ip) :
    (fs.setEntry ip x).itable p = fs.itable p := update_of_ne h ..

@[simp] theorem setEntry_setEntry (fs : State) (ip : Ptr) (x y : Inode) :
    (fs.setEntry ip x).setEntry ip y = fs.setEntry ip y := by
  rw [State.setEntry, State.setEntry, State.setEntry, update_idem]

/-- Writing the copy in an entry of the table. -/
theorem Evolves.setEntry (fs : State) (ip : Ptr) (n : Dinode) :
    Evolves (some ip) fs (fs.setEntry ip { fs.itable ip with toDinode := n }) where
  sb := rfl
  disk := rfl
  others p hp := setEntry_ne fun h => hp (by rw [h])
  entry p := by
    by_cases h : p = ip
    · subst h
      exact ⟨n, setEntry_self ..⟩
    · exact ⟨_, setEntry_ne h⟩
  lh _ h := h
  buf _ _ := rfl

/-! ## Views -/

/-- The dinode of inode `i`: the copy in entry `o` if that is the inode's entry. -/
def State.node (fs : State) : Option Ptr → Nat → Dinode
  | some ip, i => if i = (fs.itable ip).inum then (fs.itable ip).toDinode else fs.dinode i
  | none, i => fs.dinode i

/-- The state, read as a view. -/
structure Shows (fs : State) (o : Option Ptr) (v : View) : Prop where
  used : ∀ b < fs.sb.size, fs.used b = v.used b
  node : ∀ i < fs.sb.ninodes, fs.node o i = v.dinode i
  data : ∀ b, fs.sb.Data b → fs.buf b = v.data b

/-- The view of a state between calls. -/
def State.view (fs : State) : View := ⟨fs.used, fs.dinode, fs.buf⟩

theorem shows_view (fs : State) : Shows fs none fs.view :=
  ⟨fun _ _ => rfl, fun _ _ => rfl, fun _ _ => rfl⟩

theorem node_upd_ne (h : IBLOCK i fs.sb ≠ b) (o : Option Ptr) :
    (fs.upd b f).node o i = fs.node o i := by
  cases o with
  | none => exact dinode_upd_ne h
  | some ip =>
    rw [State.node, State.node, dinode_upd_ne h]
    rfl

theorem Shows.copy (h : Shows fs (some ip) v) (hi : (fs.itable ip).inum = i) (hlt : i < fs.sb.ninodes) :
    (fs.itable ip).toDinode = v.dinode i := by
  rw [← h.node i hlt, State.node, if_pos hi.symm]

/-- An entry whose copy is the dinode on disk. -/
theorem Shows.enter (h : Shows fs none v)
    (hclean : (fs.itable ip).toDinode = fs.dinode (fs.itable ip).inum) : Shows fs (some ip) v where
  used := h.used
  node i hi := by
    rw [← h.node i hi, State.node]
    split
    · rename_i he
      rw [hclean, he]
      rfl
    · rfl
  data := h.data

section Upd

variable (h : Shows fs o v) (lay : fs.sb.Layout)

include h lay

theorem Shows.write (hb : fs.sb.Data b) (f : Block → Block) :
    Shows (fs.upd b f) o (v.write b f) := by
  have hsb : (fs.upd b f).sb = fs.sb := rfl
  refine ⟨fun c hc => ?_, fun i hi => ?_, fun c hc => ?_⟩
  · rw [hsb] at hc
    exact (used_upd_ne (lay.BBLOCK_ne hc hb)).trans (h.used c hc)
  · rw [hsb] at hi
    exact (node_upd_ne (lay.IBLOCK_ne hi hb) o).trans (h.node i hi)
  · rw [hsb] at hc
    by_cases hcb : c = b
    · subst hcb
      rw [data_write_self, buf_upd_self, h.data c hc]
    · rw [data_write_ne hcb, buf_upd_ne hcb, h.data c hc]

/-- A bit of the free map is changed. -/
theorem Shows.setUsed (hb : b < fs.sb.size) (bit : Bool)
    (hf : ∀ blk ci, ci < BPB → testBit (f blk) ci = if ci = b % BPB then bit else testBit blk ci) :
    Shows (fs.upd (BBLOCK b fs.sb) f) o (v.mark b bit) := by
  have hsb : (fs.upd (BBLOCK b fs.sb) f).sb = fs.sb := rfl
  refine ⟨fun c hc => ?_, fun i hi => ?_, fun c hc => ?_⟩
  · rw [hsb] at hc
    by_cases hblk : BBLOCK c fs.sb = BBLOCK b fs.sb
    · have hbit : (fs.upd (BBLOCK b fs.sb) f).used c = if c % BPB = b % BPB then bit else fs.used c := by
        rw [State.used, State.used, hsb, hblk, buf_upd_self, hf _ _ (Nat.mod_lt _ (by decide))]
      rw [hbit]
      by_cases hcb : c = b
      · subst hcb
        rw [if_pos rfl, used_mark_self]
      · have hmod : c % BPB ≠ b % BPB := by
          simp only [BBLOCK, BPB_eq] at hblk ⊢
          omega
        rw [if_neg hmod, used_mark_ne hcb, h.used c hc]
    · have hcb : c ≠ b := fun hcb => hblk (by rw [hcb])
      rw [used_upd_ne hblk, used_mark_ne hcb, h.used c hc]
  · rw [hsb] at hi
    exact (node_upd_ne (lay.IBLOCK_ne_BBLOCK hi b) o).trans (h.node i hi)
  · rw [hsb] at hc
    exact (buf_upd_ne (lay.BBLOCK_ne hb hc).symm).trans (h.data c hc)

end Upd

/-- Offsets of dinodes in a block. -/
theorem inodeOff_add_le (i : Nat) : inodeOff i + DINODE ≤ BSIZE := by
  have : i % IPB < 16 := Nat.mod_lt _ (by decide)
  rw [inodeOff, DINODE, BSIZE_eq]
  omega

/-- A dinode is written to its block. -/
theorem load_putInode (blocks : Nat → Block) (sb : Superblock) (n : Dinode) (i j : Nat) :
    load (update blocks (IBLOCK i sb) (n.store (inodeOff i) (blocks (IBLOCK i sb)))
      (IBLOCK j sb)) (inodeOff j) =
      if j = i then n else load (blocks (IBLOCK j sb)) (inodeOff j) := by
  by_cases hblk : IBLOCK j sb = IBLOCK i sb
  · rw [hblk, update_self]
    by_cases hji : j = i
    · subst hji
      rw [if_pos rfl, load_store _ _ (inodeOff_add_le j)]
    · rw [if_neg hji, load_store_of_disjoint _ _ (inodeOff_add_le j)]
      simp only [IBLOCK, inodeOff, IPB_eq, DINODE] at hblk ⊢
      omega
  · rw [update_of_ne hblk, if_neg fun hji => hblk (by rw [hji])]

theorem dinode_upd (fs : State) (n : Dinode) (i j : Nat) :
    (fs.upd (IBLOCK i fs.sb) (n.store (inodeOff i))).dinode j = if j = i then n else fs.dinode j :=
  load_putInode fs.buf fs.sb n i j

/-- Writing a dinode changes no bit and no data block. -/
theorem Shows.putDinode (h : Shows fs o v) (lay : fs.sb.Layout) (hi : i < fs.sb.ninodes) (n : Dinode)
    (hnode : ∀ j < fs.sb.ninodes, j ≠ i → fs.dinode j = v.dinode j) :
    Shows (fs.upd (IBLOCK i fs.sb) (n.store (inodeOff i))) none (v.setNode i n) := by
  have hsb : (fs.upd (IBLOCK i fs.sb) (n.store (inodeOff i))).sb = fs.sb := rfl
  refine ⟨fun c hc => ?_, fun j hj => ?_, fun c hc => ?_⟩
  · rw [hsb] at hc
    exact (used_upd_ne (lay.IBLOCK_ne_BBLOCK hi c).symm).trans (h.used c hc)
  · rw [hsb] at hj
    rw [State.node, dinode_upd]
    by_cases hji : j = i
    · rw [if_pos hji, hji, dinode_setNode_self]
    · rw [if_neg hji, dinode_setNode_ne hji, hnode j hj hji]
  · rw [hsb] at hc
    exact (buf_upd_ne (lay.IBLOCK_ne hi hc).symm).trans (h.data c hc)

/-- Writing the copy in entry `ip`. -/
theorem Shows.setEntry (h : Shows fs (some ip) v) (hi : (fs.itable ip).inum = i) (n : Dinode) :
    Shows (fs.setEntry ip { fs.itable ip with toDinode := n }) (some ip) (v.setNode i n) where
  used := h.used
  node j hj := by
    have hj' := h.node j hj
    simp only [State.node, setEntry_self, hi] at hj' ⊢
    by_cases hji : j = i
    · rw [if_pos hji, hji, dinode_setNode_self]
    · rw [if_neg hji] at hj'
      rw [if_neg hji, dinode_setNode_ne hji]
      exact hj'
  data := h.data

/-! ## Blocks -/

/-- **`balloc`** returns 0 if every block is used, and otherwise marks and zeroes a free block. -/
theorem wp_balloc (h : Shows fs o v) (g : Good fs.sb v) :
    wp balloc (fun a fs' => Evolves none fs fs' ∧
      ((a = 0 ∧ fs' = fs ∧ ∀ b < fs.sb.size, v.used b = true) ∨
        (a.toNat < fs.sb.size ∧ v.used a.toNat = false ∧ Shows fs' o (v.alloc a.toNat)))) fs := by
  rw [balloc]
  refine wp_bind (wp_get ?_)
  cases hfind : (range' 0 fs.sb.size).find? fun b => !fs.used b with
  | none =>
    refine wp_pure ⟨Evolves.refl _ fs, .inl ⟨rfl, rfl, fun b hb => ?_⟩⟩
    have := find?_eq_none.mp hfind b (mem_range'_1.mpr ⟨Nat.zero_le b, by omega⟩)
    rw [← h.used b hb]
    simpa using this
  | some b =>
    have hlt : b < fs.sb.size := by
      have := mem_range'_1.mp (mem_of_find?_eq_some hfind)
      omega
    have hfree : v.used b = false := by
      rw [← h.used b hlt]
      simpa using find?_some hfind
    have hnat : (BitVec.ofNat 32 b).toNat = b := by
      have := g.layout.bound
      rw [BitVec.toNat_ofNat, Nat.mod_eq_of_lt (by omega)]
    have h1 : Shows (fs.upd (BBLOCK b fs.sb) (setBit (b % BPB))) o (v.mark b true) := by
      refine h.setUsed g.layout hlt true fun blk ci hci => ?_
      rw [testBit_setBit blk _ hci]
      by_cases hc : ci = b % BPB <;> simp [hc]
    refine wp_bind (wp_logData (wp_bind (wp_logData (wp_pure ?_))))
    refine ⟨(Evolves.upd ..).trans (Evolves.upd ..), .inr ?_⟩
    rw [hnat]
    exact ⟨hlt, hfree, h1.write g.layout (g.data_of_free hlt hfree) _⟩

/-! ## Inodes -/

theorem wp_putDinode (h : Shows fs o v) (lay : fs.sb.Layout) (hi : i < fs.sb.ninodes) (n : Dinode)
    (hnode : ∀ j < fs.sb.ninodes, j ≠ i → fs.dinode j = v.dinode j) :
    wp (putDinode i n) (fun _ fs' => Evolves none fs fs' ∧ Shows fs' none (v.setNode i n)) fs :=
  wp_bind (wp_get (wp_logData ⟨Evolves.upd .., h.putDinode lay hi n hnode⟩))

/-- **`iupdate`** makes the in-memory copy the dinode on disk. -/
theorem wp_iupdate (h : Shows fs (some ip) v) (lay : fs.sb.Layout)
    (hi : (fs.itable ip).inum < fs.sb.ninodes) :
    wp (iupdate ip) (fun _ fs' => Evolves none fs fs' ∧ Shows fs' none v) fs := by
  rw [iupdate]
  refine wp_bind (wp_get (wp_mono (wp_putDinode h lay hi _ fun j hj hne => ?_) fun _ fs' hq => ?_))
  · rw [← h.node j hj, State.node, if_neg hne]
  · refine ⟨hq.1, ⟨hq.2.used, fun j hj => ?_, hq.2.data⟩⟩
    rw [hq.2.node j hj]
    by_cases hji : j = (fs.itable ip).inum
    · rw [hji, dinode_setNode_self]
      exact h.copy rfl hi
    · exact dinode_setNode_ne hji

end Xv6.Fs
