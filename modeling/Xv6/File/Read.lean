/-
# Xv6.File.Read — how much `fileread` transfers.

`piperead` and `consoleread` take `n` as an int and copy nothing if it is negative.  `readi` takes it as an
unsigned int: with a negative `n` it reads the rest of the file, unless `off + n` wraps around.
-/
import Xv6.File.Defs

namespace Xv6.Files

open Lib Lib.Prog List BitVec Nat

variable {root addr : Nat} {io : Io}

/-! ## The console -/

/-- What `consoleread` returns with `n` bytes to go: it stored at most these, and unless it sleeps or was killed,
it returns how many have been stored. -/
structure ConsoleRead (root dst : Nat) (target n : Int) (s : Mach) (r : Option Int) (bytes : List Byte) (s' : Mach) :
    Prop where
  stored : Delivered root dst bytes s s'
  le : bytes.length ≤ n.toNat
  ret : r = none ∨ r = some (-1) ∨ r = some (target - n + bytes.length)

theorem ConsoleRead.nil (root dst : Nat) (target n : Int) (s : Mach)
    (hr : r = none ∨ r = some (-1) ∨ r = some (target - n)) : ConsoleRead root dst target n s r [] s :=
  ⟨Delivered.nil .., zero_le _, hr.imp id (.imp id fun h => by rw [h, length_nil, Int.natCast_zero, Int.add_zero])⟩

/-- **The loop of `consoleread`** delivers a byte at a time, at most `n`. -/
theorem wp_consolereadLoop (h : Apart s.mem root) (target : Int)
    (hfuel : n.toNat ≤ fuel) (hdst : dst < 2 ^ 64) (cons : Console.Cons) (waits : Waits) :
    wp (consolereadLoop root target fuel dst n cons waits) (fun r s' =>
      ConsoleRead root dst target n s r.1 r.2.1 s') s := by
  induction fuel generalizing dst n cons waits s with
  | zero => exact wp_pure (.nil _ _ _ _ _ (.inr (.inr rfl)))
  | succ fuel ih =>
    rw [consolereadLoop]
    by_cases hn : n > 0
    swap
    · rw [if_neg hn]
      exact wp_pure (.nil _ _ _ _ _ (.inr (.inr rfl)))
    rw [if_pos hn]
    split
    · exact wp_pure (.nil _ _ _ _ _ (.inl rfl))
    · exact wp_pure (.nil _ _ _ _ _ (.inr (.inl rfl)))
    · rename_i cons waits _
      dsimp only
      split
      · exact wp_pure (.nil _ _ _ _ _ (.inr (.inr rfl)))
      · set c := cons.buf (cell _ cons.r)
        rw [mod_eq_of_lt hdst]
        refine wp_seq (h.wp_deliver dst (fun _ => c) 1) ?_
        rintro r s1 ⟨k, -, hd, ⟨rfl, rfl⟩ | ⟨rfl, hk, -⟩⟩
        · rw [if_neg (by decide)]
          have hd : Delivered root dst [c] s s1 := hd
          split
          · exact wp_pure ⟨hd, by show 1 ≤ _; omega, .inr (.inr (congrArg some (by simp; omega)))⟩
          · have hnext : dst + 1 < 2 ^ 64 := by
              have := (hd.acc 0 one_pos).1
              unfold MAXVA at this
              omega
            refine wp_seq (ih (hd.apart h) (by omega) hnext _ _) ?_
            rintro ⟨r, bytes, cons'⟩ s2 ⟨hd2, hlen, hr⟩
            refine wp_pure ⟨hd.append h hd2, by simp at hlen ⊢; omega, hr.imp id (.imp id fun hr => ?_)⟩
            rw [hr]
            exact congrArg some (by simp; omega)
        · obtain rfl : k = 0 := by omega
          rw [if_pos rfl]
          exact wp_pure ⟨hd, zero_le _, .inr (.inr (by rw [length_nil, Int.natCast_zero, Int.add_zero]))⟩

/-! ## The three kinds of file -/

/-- The state of a call on a file: the page table of the caller is in order, the file system is settled, and the
file is open. -/
structure Io.Ok (root : Nat) (io : Io) : Prop where
  apart : Apart io.mach.mem root
  pipe : ∃ l, io.pipe.Holds l
  settled : Fs.Settled io.fs
  unlocked : ∀ p, (io.fs.itable p).locked = false
  isOpen : io.f.type = .FD_INODE → 0 < (io.fs.itable io.f.ip).ref ∧
    (io.fs.ino (io.fs.itable io.f.ip).inum).type ≠ 0

/-- The size of the file. -/
def Io.size (io : Io) : Nat := (io.fs.ino (io.fs.itable io.f.ip).inum).data.length

/-- A read transfers at most `max(n, 0)` bytes and returns at most that, and the offset of an inode moves by the
bytes that it returns. -/
structure Within (n : Int) (io : Io) (r : Option Int) (bytes : List Byte) (io' : Io) : Prop where
  stored : bytes.length ≤ n.toNat
  le : ∀ v, r = some v → v ≤ n.toNat
  off : io.f.type = .FD_INODE → ∀ v, r = some v → (io'.f.off.toNat : Int) = io.f.off.toNat + v.toNat

/-- The reads that transfer too much: of an inode, with a negative `n`. -/
def Excessive (root addr : Nat) (n : BitVec 32) (io : Io) : Prop :=
  io.f.type = .FD_INODE ∧ n.toInt < 0 ∧ (io.f.off.toNat : Int) < -n.toInt ∧ io.f.off.toNat < io.size ∧
    AccessibleAt io.mach.mem root addr

theorem pipeBytes_eq {pi : Ipc.Pipe} {l : List Byte} (h : pi.Holds l) {k : Nat} (hk : k ≤ l.length) :
    pipeBytes pi (some (k : Int)) = l.take k := by
  refine ext_getElem (by simp [pipeBytes]; omega) fun j h1 h2 => ?_
  rw [length_take] at h2
  rw [getElem_take, ← h.get j (by omega)]
  simp [pipeBytes]

theorem wp_inMach {α : Type} {x : Prog Mach α} {P : α → Mach → Prop} (h : wp x P io.mach) :
    wp (inMach x) (fun a io' => ∃ m, P a m ∧ io' = { io with mach := m }) io :=
  wp_zoom (wp_mono h fun _ m hP => ⟨m, hP, rfl⟩)

theorem wp_inFs {α : Type} {x : Prog Fs.State α} {P : α → Fs.State → Prop} (h : wp x P io.fs) :
    wp (inFs x) (fun a io' => ∃ fs, P a fs ∧ io' = { io with fs := fs }) io :=
  wp_zoom (wp_mono h fun _ fs hP => ⟨fs, hP, rfl⟩)

/-- `piperead` delivers bytes from the front of the pipe. -/
theorem wp_piperead_bytes {s : Mach} (h : Apart s.mem root) (haddr : addr < 2 ^ 64) {pi : Ipc.Pipe} {l : List Byte}
    (hl : pi.Holds l) (n : Int) (killed : Bool) :
    wp (Ipc.piperead root addr n killed pi) (fun r s' => Delivered root addr (pipeBytes pi r.1) s s' ∧
      (pipeBytes pi r.1).length ≤ n.toNat ∧ ∀ v, r.1 = some v → v ≤ n.toNat) s := by
  rw [Ipc.piperead]
  split
  · refine wp_pure ?_
    cases killed
    · exact ⟨Delivered.nil .., zero_le _, by rintro _ ⟨⟩⟩
    · refine ⟨Delivered.nil .., zero_le _, fun v hv => ?_⟩
      cases hv
      omega
  · refine wp_seq (Ipc.wp_pipereadLoop h (zero_add _).ge haddr hl) ?_
    rintro ⟨r, pi'⟩ s' ⟨k, hr, c⟩
    obtain rfl : r = k := hr.trans (zero_add k)
    have hbound := c.bound
    rw [zero_max, zero_add] at hbound
    refine wp_pure ?_
    rw [pipeBytes_eq hl c.le, length_take]
    refine ⟨c.stored, by omega, fun v hv => ?_⟩
    cases hv
    omega

/-- `fileread` of a pipe. -/
theorem wp_fileread_pipe (h : io.Ok root) (haddr : addr < 2 ^ 64) (hr : io.f.readable = true)
    (ht : io.f.type = .FD_PIPE) (n : BitVec 32) (killed : Bool) (waits : Waits) :
    wp (fileread root addr n killed waits) (fun r io' => Delivered root addr r.2 io.mach io'.mach ∧
      Within n.toInt io r.1 r.2 io') io := by
  obtain ⟨l, hl⟩ := h.pipe
  rw [fileread]
  refine wp_bind (wp_get ?_)
  rw [hr, if_neg (by decide), ht]
  refine wp_seq (wp_inMach (wp_piperead_bytes h.apart haddr hl n.toInt killed)) ?_
  rintro ⟨r, pi⟩ _ ⟨m, ⟨hd, hlen, hle⟩, rfl⟩
  refine wp_bind (wp_modify (wp_pure ⟨hd, hlen, hle, fun he => ?_⟩))
  cases ht.symm.trans he

/-- `fileread` of a device. -/
theorem wp_fileread_device (h : io.Ok root) (haddr : addr < 2 ^ 64) (hr : io.f.readable = true)
    (ht : io.f.type = .FD_DEVICE) (n : BitVec 32) (killed : Bool) (waits : Waits) :
    wp (fileread root addr n killed waits) (fun r io' => Delivered root addr r.2 io.mach io'.mach ∧
      Within n.toInt io r.1 r.2 io') io := by
  have hoff : ∀ {P : Prop}, io.f.type = .FD_INODE → P := fun he => by cases ht.symm.trans he
  rw [fileread]
  refine wp_bind (wp_get ?_)
  rw [hr, if_neg (by decide), ht]
  dsimp only
  split
  · refine wp_pure ⟨Delivered.nil .., zero_le _, fun v hv => ?_, hoff⟩
    cases hv
    omega
  · refine wp_seq (wp_inMach (wp_consolereadLoop h.apart n.toInt le_rfl haddr io.cons waits)) ?_
    rintro ⟨r, bytes, cons⟩ _ ⟨m, ⟨hd, hlen, hret⟩, rfl⟩
    refine wp_bind (wp_modify (wp_pure ⟨hd, hlen, fun v hv => ?_, hoff⟩))
    rcases hret with hret | hret | hret
    · cases hret.symm.trans hv
    · cases hret.symm.trans hv
      omega
    · cases hret.symm.trans hv
      omega

theorem toInt_some (h : t < 2 ^ 31) : toInt (some t) = t := by
  rw [toInt, toInt_eq_toNat_cond, toNat_ofNat, mod_eq_of_lt (by omega), if_pos (by omega)]

/-- An int as an unsigned int. -/
theorem toInt_cases (n : BitVec 32) : (n.toInt = n.toNat ∧ n.toNat < 2 ^ 31) ∨
    (n.toInt = n.toNat - 2 ^ 32 ∧ 2 ^ 31 ≤ n.toNat) := by
  rw [toInt_eq_toNat_cond]
  split
  · exact .inl ⟨rfl, by omega⟩
  · exact .inr ⟨by omega, by omega⟩

/-- `f->off += r`. -/
def advance (off : BitVec 32) (r : Int) : BitVec 32 := if r > 0 then off + BitVec.ofInt 32 r else off

theorem advance_some (h : off.toNat + t < 2 ^ 31) :
    (advance off (toInt (some t))).toNat = off.toNat + t := by
  rw [toInt_some (by omega), advance]
  split
  · rw [ofInt_natCast, toNat_add, toNat_ofNat]
    omega
  · omega

theorem mapped_eq_zero (acc : Nat → Bool) (hm : 0 < m) : Fs.mapped acc 0 m = 0 ↔ acc 0 = false := by
  obtain ⟨m, rfl⟩ := exists_eq_succ_of_ne_zero hm.ne'
  rw [Fs.mapped]
  cases acc 0 <;> simp

/-- What `readi` of a file of `len` bytes returns, and how many bytes it stores. -/
def ReadCount (acc : Nat → Bool) (len off n : Nat) (r : Option Nat) (stored : Nat) : Prop :=
  (¬(off ≤ len ∧ off ≤ (off + n) % 2 ^ 32) ∧ r = some 0 ∧ stored = 0) ∨
    ((off ≤ len ∧ off ≤ (off + n) % 2 ^ 32) ∧ ∃ m, m = min n (len - off) ∧
      r = (if Fs.mapped acc 0 m = m then some m else none) ∧ stored = Fs.mapped acc 0 m)

/-- **The arithmetic of a read**: it stays within its bounds unless `n` is negative, `off + n` does not wrap
around, there is something to read, and the first byte can be stored. -/
theorem ReadCount.within_iff {acc : Nat → Bool} {len stored : Nat} {off n : BitVec 32} {r : Option Nat}
    (h : ReadCount acc len off.toNat n.toNat r stored) (hlen : len < 2 ^ 20) :
    (stored ≤ n.toInt.toNat ∧ toInt r ≤ n.toInt.toNat ∧
      ((advance off (toInt r)).toNat : Int) = off.toNat + (toInt r).toNat) ↔
    ¬(n.toInt < 0 ∧ (off.toNat : Int) < -n.toInt ∧ off.toNat < len ∧ acc 0 = true) := by
  have hoff := off.isLt
  have hn := n.isLt
  rcases h with ⟨hbad, rfl, rfl⟩ | ⟨hok, m, hm, rfl, rfl⟩
  · have hr : toInt (some 0) = 0 := rfl
    rw [hr, advance, if_neg (by decide)]
    rcases toInt_cases n with ⟨hi, -⟩ | ⟨hi, -⟩ <;> omega
  · have hle := Fs.mapped_le acc m (i := 0)
    have hret : ∀ bound, m ≤ bound → (toInt (if Fs.mapped acc 0 m = m then some m else none) ≤ bound ∧
        ((advance off (toInt (if Fs.mapped acc 0 m = m then some m else none))).toNat : Int) =
          off.toNat + (toInt (if Fs.mapped acc 0 m = m then some m else none)).toNat) := by
      intro bound hb
      split
      · rw [advance_some (by omega), toInt_some (by omega)]
        omega
      · rw [toInt, advance, if_neg (by decide)]
        omega
    rcases toInt_cases n with ⟨hi, -⟩ | ⟨hi, hbig⟩
    · have := hret n.toInt.toNat (by omega)
      exact ⟨fun _ hneg => by omega, fun _ => ⟨by omega, this⟩⟩
    · -- a negative `n` that does not wrap around: the rest of the file is read
      by_cases hz : m = 0
      · have := hret n.toInt.toNat (by omega)
        exact ⟨fun _ hneg => by omega, fun _ => ⟨by omega, this⟩⟩
      · have hacc := mapped_eq_zero acc (pos_of_ne_zero hz)
        constructor
        · rintro ⟨hst, -⟩ ⟨-, -, -, h0⟩
          have : Fs.mapped acc 0 m = 0 := by omega
          rw [hacc.mp this] at h0
          cases h0
        · intro hcond
          have h0 : acc 0 = false := by
            by_contra hne
            exact hcond ⟨by omega, by omega, by omega, Bool.not_eq_false _ ▸ hne⟩
          have hzero := hacc.mpr h0
          rw [hzero, if_neg (Ne.symm hz)]
          refine ⟨zero_le _, ?_, ?_⟩
          · rw [toInt]
            omega
          · rw [toInt, advance, if_neg (by decide)]
            omega

/-- What the specification of `readi` says about the count. -/
theorem readCount_of {acc : Nat → Bool} {data bytes : List Byte} {off n : Nat} {r : Option Nat}
    (h : (¬(off ≤ data.length ∧ off ≤ (off + n) % 2 ^ 32) ∧ (r, bytes) = (some 0, [])) ∨
      ((off ≤ data.length ∧ off ≤ (off + n) % 2 ^ 32) ∧ ∃ m, m = min n (data.length - off) ∧
        (r, bytes) = (if Fs.mapped acc 0 m = m then some m else none,
          (data.drop off).take (Fs.mapped acc 0 m)))) :
    ReadCount acc data.length off n r bytes.length ∧ ∀ j < bytes.length, acc j = true := by
  rcases h with ⟨hbad, heq⟩ | ⟨hok, m, hm, heq⟩
  · cases heq
    exact ⟨.inl ⟨hbad, rfl, rfl⟩, fun j hj => absurd hj (not_lt_zero j)⟩
  · have hle := Fs.mapped_le acc m (i := 0)
    cases heq
    have hlen : ((data.drop off).take (Fs.mapped acc 0 m)).length = Fs.mapped acc 0 m := by
      rw [length_take, length_drop]
      omega
    rw [hlen]
    refine ⟨.inr ⟨hok, m, hm, rfl, rfl⟩, fun j hj => ?_⟩
    have := Fs.acc_of_lt_mapped acc m hj
    rwa [zero_add] at this

/-- What `fileread` of an inode leaves. -/
structure InodeRead (root addr : Nat) (n : BitVec 32) (io : Io) (r : Option Int) (bytes : List Byte) (io' : Io) : Prop where
  stored : Delivered root addr bytes io.mach io'.mach
  count : ∃ t, r = some (toInt t) ∧ io'.f.off = advance io.f.off (toInt t) ∧
    ReadCount (fun j => decide (AccessibleAt io.mach.mem root (addr + j))) io.size io.f.off.toNat n.toNat t bytes.length

/-- `fileread` of an inode. -/
theorem wp_filereadInode (h : io.Ok root) (ht : io.f.type = .FD_INODE) (n : BitVec 32) :
    wp (filereadInode root addr n) (fun r io' => InodeRead root addr n io r.1 r.2 io') io := by
  obtain ⟨hpos, halive⟩ := h.isOpen ht
  set ip := io.f.ip with hip
  set i := (io.fs.itable ip).inum with hi
  rw [filereadInode]
  refine wp_bind (wp_get ?_)
  have hlock := (h.settled.enter h.unlocked).wpe_ilock (E := fun _ => False)
    (show io.fs.Refers ip i from ⟨hpos, rfl⟩) (Finset.notMem_empty ip) fun hz => absurd hz halive
  refine wp_seq (wp_inFs hlock.wp) ?_
  rintro _ _ ⟨fs1, ⟨hin1, htab1, -⟩, rfl⟩
  refine wp_bind (wp_get ?_)
  dsimp only
  have hi1 : (fs1.itable ip).inum = i := (hin1.kept ip hpos).1
  have hread := hin1.wpe_readi (E := fun _ => False) (Finset.mem_insert_self ip ∅) hi1
    (fun j => decide (AccessibleAt io.mach.mem root (addr + j))) io.f.off.toNat n.toNat
  refine wp_seq (wp_inFs hread.wp) ?_
  rintro ⟨r, bytes⟩ _ ⟨fs2, ⟨hfs, hr⟩, rfl⟩
  obtain rfl : fs1 = fs2 := hfs.symm
  rw [htab1.ino] at hr
  obtain ⟨hcount, hacc⟩ := readCount_of hr
  -- `either_copyout` stores all of the bytes
  refine wp_seq (wp_inMach (h.apart.wp_deliver addr (fun j => bytes.getD j 0) bytes.length)) ?_
  rintro c _ ⟨m, ⟨k, hk, hd, hc⟩, rfl⟩
  obtain rfl : k = bytes.length := by
    rcases hc with ⟨-, hk⟩ | ⟨-, hlt, hno⟩
    · exact hk
    · exact absurd (of_decide_eq_true (hacc k hlt)) hno
  have hbytes : (range bytes.length).map (fun j => bytes.getD j 0) = bytes :=
    ext_getElem (by simp) fun j h1 h2 => by simp [h2]
  rw [hbytes] at hd
  have hunlock := hin1.wpe_iunlock (E := fun _ => False) (Finset.mem_insert_self ip ∅)
  have hlast : ∀ f' : OpenFile, f'.off = advance io.f.off (toInt r) →
      wp (do inFs (Fs.iunlock ip); pure (some (toInt r), bytes))
        (fun r io' => InodeRead root addr n io r.1 r.2 io') ⟨m, io.pipe, io.cons, fs1, f'⟩ := by
    intro f' hf
    refine wp_seq (wp_inFs hunlock.wp) ?_
    rintro _ _ ⟨fs2, -, rfl⟩
    exact wp_pure ⟨hd, r, rfl, hf, hcount⟩
  by_cases hpos : toInt r > 0
  · rw [if_pos hpos]
    exact wp_bind (wp_modify (hlast _ (if_pos hpos).symm))
  · rw [if_neg hpos]
    exact wp_bind (wp_pure (hlast _ (if_neg hpos).symm))

theorem InodeRead.within_iff (h : io.Ok root)
    (ht : io.f.type = .FD_INODE) (hread : InodeRead root addr n io r bytes io') :
    Within n.toInt io r bytes io' ↔ ¬Excessive root addr n io := by
  obtain ⟨t, rfl, hoff, hcount⟩ := hread.count
  have hlen : io.size < 2 ^ 20 := by
    have halive := (h.isOpen ht).2
    have := h.settled.good.size _ (Fs.allocated_iff.mpr halive)
    rw [Fs.MAXFILE_eq, BSIZE] at this
    rw [Io.size, Fs.ino_size halive]
    exact this.trans_lt (by decide)
  refine Iff.trans ?_ ((hcount.within_iff hlen).trans ?_)
  · rw [← hoff]
    exact ⟨fun w => ⟨w.stored, w.le _ rfl, w.off ht _ rfl⟩, fun ⟨h1, h2, h3⟩ =>
      ⟨h1, fun v hv => by cases hv; exact h2, fun _ v hv => by cases hv; exact h3⟩⟩
  · rw [Excessive, decide_eq_true_iff]
    exact not_congr ⟨fun hx => ⟨ht, hx⟩, fun hx => hx.2⟩

/-- **`fileread` transfers no more than it was asked for**, for every readable open file, address and `n`, unless
it reads from an inode with a negative `n` that is beyond the offset in absolute value, before the end of the
file, into memory that can be accessed. -/
theorem fileread_within_iff (h : io.Ok root) (haddr : addr < 2 ^ 64) (hr : io.f.readable = true)
    (ht : io.f.type ≠ .FD_NONE) (n : BitVec 32) (killed : Bool) (waits : Waits) :
    ∃ r bytes io', fileread root addr n killed waits io = .ok ((r, bytes), io') ∧
      Delivered root addr bytes io.mach io'.mach ∧
      (Within n.toInt io r bytes io' ↔ ¬Excessive root addr n io) := by
  suffices hwp : wp (fileread root addr n killed waits) (fun r io' => Delivered root addr r.2 io.mach io'.mach ∧
      (Within n.toInt io r.1 r.2 io' ↔ ¬Excessive root addr n io)) io by
    obtain ⟨⟨r, bytes⟩, io', hrun, hpost⟩ := hwp
    exact ⟨r, bytes, io', hrun, hpost⟩
  have hother : io.f.type ≠ .FD_INODE → ¬Excessive root addr n io := fun hne hx => hne hx.1
  cases hty : io.f.type with
  | FD_NONE => exact absurd hty ht
  | FD_PIPE =>
    refine wp_mono (wp_fileread_pipe h haddr hr hty n killed waits) fun r io' hpost => ⟨hpost.1, fun _ => ?_, fun _ => hpost.2⟩
    exact hother fun he => by cases hty.symm.trans he
  | FD_DEVICE =>
    refine wp_mono (wp_fileread_device h haddr hr hty n killed waits) fun r io' hpost => ⟨hpost.1, fun _ => ?_, fun _ => hpost.2⟩
    exact hother fun he => by cases hty.symm.trans he
  | FD_INODE =>
    rw [fileread]
    refine wp_bind (wp_get ?_)
    rw [hr, if_neg (by decide), hty]
    exact wp_mono (wp_filereadInode h hty n) fun r io' hread => ⟨hread.stored, hread.within_iff h hty⟩

/-! ## The root directory, opened after boot -/

/-- A process with the root directory open and two pages of memory. -/
def rootOpen (s : Mach) : Io :=
  ⟨s, Ipc.oneByte, ⟨fun _ => 0, 0, 0, 0⟩, Fs.booted, ⟨.FD_INODE, true, false, 0, Fs.rootPtr, 0⟩⟩

theorem rootOpen_ok (hap : Apart s.mem KERNBASE) : (rootOpen s).Ok KERNBASE where
  apart := hap
  pipe := ⟨[7], Ipc.oneByte_holds⟩
  settled := Fs.booted_settled
  unlocked := Fs.booted_unlocked
  isOpen _ := ⟨one_pos, by
    show (Fs.booted.ino Fs.ROOTINO).type ≠ 0
    rw [Fs.booted_root_type]
    decide⟩

/-- Ten bytes are read. -/
theorem fileread_within_ten : ∃ s r bytes io', (rootOpen s).Ok KERNBASE ∧
    fileread KERNBASE 0 10 false [] (rootOpen s) = .ok ((r, bytes), io') ∧ Within 10 (rootOpen s) r bytes io' := by
  obtain ⟨s, hap, -, -⟩ := exists_twoPages
  obtain ⟨r, bytes, io', hrun, -, hiff⟩ := fileread_within_iff (rootOpen_ok hap) (show 0 < 2 ^ 64 by decide) rfl
    nofun 10 false []
  refine ⟨s, r, bytes, io', rootOpen_ok hap, hrun, hiff.mpr fun hx => ?_⟩
  exact absurd hx.2.1 (by decide)

/-- `read(fd, buf, -1)` at the beginning of the root directory stores all of its 1024 bytes. -/
theorem fileread_negative : ∃ s bytes io', (rootOpen s).Ok KERNBASE ∧ (-1 : BitVec 32).toInt = -1 ∧
    fileread KERNBASE 0 (-1) false [] (rootOpen s) = .ok ((some 1024, bytes), io') ∧ bytes.length = 1024 := by
  obtain ⟨s, hap, hram, hall⟩ := exists_twoPages
  obtain ⟨⟨r, bytes⟩, io', hrun, hread⟩ := @wp_filereadInode KERNBASE 0 _ (rootOpen_ok hap) rfl (-1)
  have hsize : (rootOpen s).size = 1024 := Fs.booted_root_size
  have hoff : (rootOpen s).f.off.toNat = 0 := rfl
  obtain ⟨t, hr, -, hcount⟩ := hread.count
  rw [hsize, hoff] at hcount
  have hmap : Fs.mapped (fun j => decide (AccessibleAt (rootOpen s).mach.mem KERNBASE (0 + j))) 0 1024 = 1024 := by
    refine Fs.mapped_eq _ _ fun j hj => decide_eq_true ?_
    exact (userAt_iff hram _).mpr (hall _ (by unfold PGSIZE; omega))
  rcases hcount with ⟨hbad, -⟩ | ⟨-, m, hm, ht, hlen⟩
  · exact absurd ⟨by decide, by decide⟩ hbad
  · obtain rfl : m = 1024 := hm.trans (by decide)
    rw [hmap] at ht hlen
    rw [if_pos rfl] at ht
    subst ht
    refine ⟨s, bytes, io', rootOpen_ok hap, by decide, ?_, hlen⟩
    have hfile : fileread KERNBASE 0 (-1) false [] (rootOpen s) = filereadInode KERNBASE 0 (-1) (rootOpen s) := rfl
    rw [hfile, hrun]
    obtain rfl : r = some 1024 := hr
    rfl

end Xv6.Files
