/-
# Xv6.Mkfs.Sectors — the image file as a view.

While `mkfs` runs, the used blocks are those below `freeblock`; the free map is written at the end.
With that, an image shows a view of a file system, and each function of `mkfs` is an update of the view
that the kernel makes too: `iappend` puts free blocks into slots and writes to them, and `winode` writes
a dinode.  The last inode block has room for more inodes than the super block says, so the number of
inodes is a parameter here.
-/
import Xv6.Mkfs.Defs
import Xv6.Fs.Disk

namespace Xv6.Mkfs

open Lib Lib.Prog State
open Xv6.Fs hiding State ialloc balloc

/-! ## The layout -/

/-- The super block with room for `n` inodes. -/
def sbOf (n : Nat) : Superblock := { sb with ninodes := n }

theorem FSSIZE_eq : FSSIZE = 2000 := rfl
theorem nmeta_eq : nmeta = 46 := rfl

theorem sbOf_layout (hn : n / IPB = 12) : (sbOf n).Layout where
  logstart := rfl
  inodestart := rfl
  bmapstart := by
    show 45 = 32 + (n / IPB + 1)
    rw [hn]
  size := show sb.size = sb.bmapstart + (sb.size / BPB + 1) + sb.nblocks by decide
  bound := show sb.size < 2 ^ 32 by decide

theorem data_iff (n b : Nat) : (sbOf n).Data b ↔ nmeta ≤ b ∧ b < FSSIZE := by
  have h : (sbOf n).datastart = nmeta := show sb.size - sb.nblocks = nmeta by decide
  rw [Superblock.Data, h]
  rfl

/-- The inode area ends where the free map starts. -/
theorem IBLOCK_range (hn : n / IPB = 12) (hi : i < n) :
    sb.inodestart ≤ IBLOCK i sb ∧ IBLOCK i sb < sb.bmapstart := by
  have h1 : sb.inodestart = 32 := rfl
  have h2 : sb.bmapstart = 45 := rfl
  rw [IPB_eq] at hn
  rw [IBLOCK, h1, h2, IPB_eq]
  omega

theorem sector_of_lt (sec : BitVec 32) (h : sec.toNat < 2 ^ 22) : sector sec = sec.toNat := by
  have hmul : (sec * .ofNat 32 BSIZE).toNat = sec.toNat * 1024 := by
    rw [BitVec.toNat_mul, BSIZE_eq, BitVec.toNat_ofNat]
    omega
  rw [sector, hmul, BSIZE_eq]
  omega

theorem sector_inode (hn : n / IPB = 12) (hi : inum.toNat < n) :
    sector (inodeSector inum) = IBLOCK inum.toNat sb := by
  have hr := (IBLOCK_range hn hi).2
  have h2 : sb.bmapstart = 45 := rfl
  have hval : (inodeSector inum).toNat = IBLOCK inum.toNat sb := by
    rw [inodeSector, BitVec.toNat_ofNat]
    omega
  rw [sector_of_lt _ (by omega), hval]

/-! ## The view -/

/-- A sector of the image is written. -/
def State.put (s : State) (b : Nat) (buf : Block) : State :=
  { s with img := Function.update s.img b buf, len := max s.len (b + 1) }

@[simp] theorem State.img_put_self (s : State) (b : Nat) (buf : Block) : (s.put b buf).img b = buf :=
  Function.update_self ..

theorem State.img_put_ne {s : State} {b c : Nat} {buf : Block} (h : c ≠ b) :
    (s.put b buf).img c = s.img c := Function.update_of_ne h ..

/-- Writing one of the sectors does not make the file longer. -/
theorem State.len_put {s : State} {b : Nat} (h : s.len = FSSIZE) (hb : b < FSSIZE) :
    max s.len (b + 1) = FSSIZE := by
  rw [h]
  exact max_eq_left hb

/-- The image shows `v`; the dinode of the inode in `o` is in memory and may differ. -/
structure Shows (n : Nat) (s : State) (o : Option Nat) (v : View) : Prop where
  len : s.len = FSSIZE
  used : ∀ b, v.used b = decide (b < s.freeblock.toNat)
  node : ∀ i < n, o ≠ some i → Dinode.load (s.img (IBLOCK i sb)) (inodeOff i) = v.dinode i
  data : ∀ b, (sbOf n).Data b → s.img b = v.data b
  zero : ∀ b, (sbOf n).Data b → s.freeblock.toNat ≤ b → s.img b = zeroBlock
  low : ∀ b < sb.inodestart, s.img b = if b = 1 then sbBlock else zeroBlock
  bound : nmeta ≤ s.freeblock.toNat ∧ s.freeblock.toNat ≤ FSSIZE
  writes : ∀ b ∈ s.iwrites, sb.inodestart ≤ b ∧ b < sb.bmapstart

/-- The inode numbers that were given out, and the next one. -/
def State.ids (s : State) : List Nat × BitVec 32 := (s.inodes, s.freeinode)

namespace Shows

variable {n : Nat} {s : State} {o : Option Nat} {v : View} {b : Nat} {a : BitVec 32}

theorem to_some (h : Shows n s none v) (i : Nat) : Shows n s (some i) v :=
  ⟨h.len, h.used, fun j hj _ => h.node j hj (nomatch ·), h.data, h.zero, h.low, h.bound, h.writes⟩

/-- The dinode in memory is written. -/
theorem setNode (h : Shows n s (some i) v) (d : Dinode) : Shows n s (some i) (v.setNode i d) :=
  ⟨h.len, h.used, fun j hj hne =>
    (h.node j hj hne).trans (View.dinode_setNode_ne fun e => hne (congrArg some e.symm)).symm,
    h.data, h.zero, h.low, h.bound, h.writes⟩

/-- A used data block is written. -/
theorem write (hn : n / IPB = 12) (h : Shows n s o v) (hb : (sbOf n).Data b)
    (hlt : b < s.freeblock.toNat) (f : Block → Block) :
    Shows n (s.put b (f (s.img b))) o (v.write b f) where
  len := len_put h.len ((data_iff n b).mp hb).2
  used := h.used
  node i hi hne := by
    have hib : IBLOCK i sb ≠ b := (sbOf_layout hn).IBLOCK_ne (i := i) hi hb
    rw [img_put_ne hib]
    exact h.node i hi hne
  data c hc := by
    by_cases hcb : c = b
    · subst hcb
      rw [View.data_write_self, img_put_self, h.data c hc]
    · rw [View.data_write_ne hcb, img_put_ne hcb]
      exact h.data c hc
  zero c hc hle := by
    have hle : s.freeblock.toNat ≤ c := hle
    rw [img_put_ne (by omega)]
    exact h.zero c hc hle
  low c hc := by
    have hcb : c ≠ b := by
      have h1 : sb.inodestart = 32 := rfl
      have h2 := ((data_iff n b).mp hb).1
      rw [nmeta_eq] at h2
      omega
    rw [img_put_ne hcb]
    exact h.low c hc
  bound := h.bound
  writes := h.writes

/-- `freeblock++`: the block is used, and it is zero already. -/
theorem next (h : Shows n s o v) (hlt : s.freeblock.toNat < FSSIZE) :
    Shows n { s with freeblock := s.freeblock + 1 } o (v.alloc s.freeblock.toNat) := by
  have hd : (sbOf n).Data s.freeblock.toNat := (data_iff n _).mpr ⟨h.bound.1, hlt⟩
  have hsucc : (s.freeblock + 1).toNat = s.freeblock.toNat + 1 := by
    rw [FSSIZE_eq] at hlt
    rw [BitVec.toNat_add]
    exact Nat.mod_eq_of_lt (by show _ + 1 < 2 ^ 32; omega)
  refine ⟨h.len, fun b => ?_, h.node, fun b hb => ?_, fun b hb hle => ?_, h.low, ?_, h.writes⟩
  · show (v.mark _ true).used b = decide (b < (s.freeblock + 1).toNat)
    rw [hsucc]
    by_cases hbf : b = s.freeblock.toNat
    · subst hbf
      rw [View.used_mark_self, decide_eq_true (Nat.lt_succ_self _)]
    · rw [View.used_mark_ne hbf, h.used, decide_eq_decide]
      omega
  · by_cases hbf : b = s.freeblock.toNat
    · subst hbf
      rw [View.data_alloc_self]
      exact h.zero _ hb (Nat.le_refl _)
    · rw [View.data_alloc_ne hbf]
      exact h.data b hb
  · refine h.zero b hb ?_
    have : (s.freeblock + 1).toNat ≤ b := hle
    omega
  · have := h.bound.1
    show nmeta ≤ (s.freeblock + 1).toNat ∧ (s.freeblock + 1).toNat ≤ FSSIZE
    omega

end Shows

/-! ## Reading and writing sectors -/

section

variable {n : Nat} {s : State} {o : Option Nat} {v : View} {sec : BitVec 32} {E : String → Prop}
variable {α : Type}

theorem wpe_rsect {Q : Block → State → Prop} (hlen : s.len = FSSIZE) (h : sec.toNat < FSSIZE)
    (hQ : Q (s.img sec.toNat) s) : wpe E (rsect sec) Q s := by
  have hsec := sector_of_lt sec (by rw [FSSIZE_eq] at h; omega)
  refine wpe_bind (wpe_get ?_)
  rw [hsec, hlen, if_pos h]
  exact wpe_pure hQ

/-- Reading the block after the last one does not deliver a block. -/
theorem wpe_rsect_end {Q : Block → State → Prop} (hlen : s.len = FSSIZE) (h : sec.toNat = FSSIZE)
    (hE : ∀ msg, E msg) : wpe E (rsect sec) Q s := by
  have hsec := sector_of_lt sec (by rw [h, FSSIZE_eq]; omega)
  refine wpe_bind (wpe_get ?_)
  rw [hsec, hlen, h, if_neg (Nat.lt_irrefl _)]
  exact wpe_stop (hE _)

theorem wpe_wsect {Q : Unit → State → Prop} (h : sec.toNat < FSSIZE)
    (hQ : Q () (s.put sec.toNat buf)) : wpe E (wsect sec buf) Q s := by
  have hsec := sector_of_lt sec (by rw [FSSIZE_eq] at h; omega)
  refine wpe_modify ?_
  rw [hsec]
  exact hQ

theorem wpe_nextBlock {Q : BitVec 32 → State → Prop}
    (hQ : Q s.freeblock { s with freeblock := s.freeblock + 1 }) : wpe E nextBlock Q s :=
  wpe_bind (wpe_get (wpe_bind (wpe_modify (wpe_pure hQ))))

/-- **`rinode`** reads the dinode. -/
theorem wpe_rinode (hn : n / IPB = 12) (h : Shows n s none v)
    (hi : inum.toNat < n) :
    wpe E (rinode inum) (fun d s' => d = v.dinode inum.toNat ∧ s' = s) s := by
  have hsec := sector_inode hn hi
  have hr := (IBLOCK_range hn hi).2
  have h2 : sb.bmapstart = 45 := rfl
  have hrs : wpe E (rsect (inodeSector inum)) (fun buf s' => buf = s.img (IBLOCK inum.toNat sb) ∧ s' = s)
      s := by
    refine wpe_bind (wpe_get ?_)
    rw [hsec, h.len, if_pos (by rw [FSSIZE_eq]; omega)]
    exact wpe_pure ⟨rfl, rfl⟩
  refine wpe_seq hrs ?_
  rintro buf s' ⟨rfl, rfl⟩
  exact wpe_pure ⟨h.node _ hi (nomatch ·), rfl⟩

/-- **`winode`** writes the dinode that is in memory. -/
theorem wpe_winode {inum : BitVec 32} {d : Dinode} (hn : n / IPB = 12)
    (h : Shows n s (some inum.toNat) v) (hi : inum.toNat < n) (hd : v.dinode inum.toNat = d) :
    wpe E (winode inum d) (fun _ s' => Shows n s' none v ∧ s'.freeblock = s.freeblock ∧
      s'.ids = s.ids) s := by
  have hsec := sector_inode hn hi
  have hr := IBLOCK_range hn hi
  have h1 : sb.inodestart = 32 := rfl
  have h2 : sb.bmapstart = 45 := rfl
  set b := IBLOCK inum.toNat sb with hb
  have hlt : b < FSSIZE := by
    rw [FSSIZE_eq]
    omega
  have hrs : wpe E (rsect (inodeSector inum)) (fun buf s' => buf = s.img b ∧ s' = s) s := by
    refine wpe_bind (wpe_get ?_)
    rw [hsec, h.len, if_pos hlt]
    exact wpe_pure ⟨rfl, rfl⟩
  refine wpe_seq hrs ?_
  rintro buf s' ⟨rfl, rfl⟩
  refine wpe_bind (wpe_modify (wpe_modify ?_))
  rw [hsec]
  refine ⟨?_, rfl, rfl⟩
  have hother : ∀ c, (sbOf n).Data c → c ≠ b := fun c hc => by
    have := ((data_iff n c).mp hc).1
    rw [nmeta_eq] at this
    omega
  refine ⟨len_put h.len hlt, h.used, fun j hj _ => ?_, fun c hc => ?_, fun c hc hle => ?_,
    fun c hc => ?_, h.bound, fun c hc => ?_⟩
  · refine (load_putInode s'.img sb d inum.toNat j).trans ?_
    by_cases hj' : j = inum.toNat
    · rw [if_pos hj', hj', hd]
    · rw [if_neg hj']
      exact h.node j hj fun e => hj' (Option.some_inj.mp e).symm
  · exact (img_put_ne (hother c hc)).trans (h.data c hc)
  · exact (img_put_ne (hother c hc)).trans (h.zero c hc hle)
  · exact (img_put_ne (by omega)).trans (h.low c hc)
  · rcases List.mem_append.mp hc with hc | hc
    · exact h.writes c hc
    · rw [List.mem_singleton.mp hc]
      exact hr

end

end Xv6.Mkfs
