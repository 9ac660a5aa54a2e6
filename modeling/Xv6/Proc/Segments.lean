/-
# Xv6.Proc.Segments — loading the segments of a program (`kernel/exec.c`).

`exec` walks through the program headers of the file, grows the new address space to the end of each
segment and has `loadseg` read its bytes.  Whatever the headers say, an address space is left.  If all
segments were loaded, user memory is zero but for one write per segment, in the order of the headers;
the bytes come from the offset as `loadseg` gets it, which is a `uint`.
-/
import Xv6.Proc.Image

namespace Xv6

open Lib Lib.Store Lib.Prog List Nat

variable {n off : Nat} {ip : List Byte}

/-! ## Reading a file -/

theorem asStore_drop (ip : List Byte) (off j : Nat) :
    asStore (ip.drop off) j = ip.getD (off + j) 0 := by
  rw [asStore, getD_eq_getElem?_getD, getElem?_drop, ← getD_eq_getElem?_getD]

/-- What was read in full is in the file. -/
theorem readi_full (hn : 0 < n) (hlt : n < 2 ^ 32) (hoff : off < 2 ^ 32)
    (h : (readi ip off n).length = n) :
    off + n ≤ ip.length ∧ off + n < 2 ^ 32 ∧
      ∀ j < n, asStore (readi ip off n) j = ip.getD (off + j) 0 := by
  rw [readi] at h ⊢
  split at h
  · rw [length_nil] at h
    omega
  rename_i hok
  rw [if_neg hok]
  rw [length_take, length_drop] at h
  have hfile : off + n ≤ ip.length := by
    split at h <;> omega
  refine ⟨hfile, by omega, fun j hj => ?_⟩
  rw [if_neg (by omega), ← asStore_drop, asStore, asStore, getD_eq_getElem?_getD,
    getElem?_take_of_lt hj, ← getD_eq_getElem?_getD]

/-- The fields of `struct proghdr` that `exec` uses. -/
structure Proghdr where
  type : BitVec 32
  off : Nat
  vaddr : Nat
  filesz : Nat
  memsz : Nat

/-- The program header at offset `off` of a file. -/
def proghdrAt (ip : List Byte) (off : Nat) : Proghdr :=
  let ph := asStore (ip.drop off)
  ⟨load 4 ph 0, (load 8 ph 8).toNat, (load 8 ph 16).toNat, (load 8 ph 32).toNat,
    (load 8 ph 40).toNat⟩

/-- A header that was read in full, word by word. -/
theorem load_readi (hoff : off < 2 ^ 32) (h : (readi ip off PROGHDR).length = PROGHDR) (k a : Nat)
    (ha : a + k ≤ PROGHDR) :
    load k (asStore (readi ip off PROGHDR)) a = load k (asStore (ip.drop off)) a := by
  obtain ⟨-, -, hbytes⟩ := readi_full (by decide) (by decide) hoff h
  refine load_congr fun x _ hx => ?_
  rw [hbytes x (by omega), asStore_drop]

/-! ## What the segments write -/

/-- The bytes of a segment, from where `loadseg` reads them. -/
def segWrite (ip : List Byte) (ph : Proghdr) : Write :=
  ⟨ph.vaddr, ph.filesz, fun j => ip.getD (ph.off % 2 ^ 32 + j) 0⟩

/-- The writes for the `n` headers from offset `off` on. -/
def segWrites (ip : List Byte) : Nat → Nat → List Write
  | 0, _ => []
  | n + 1, off =>
    if (proghdrAt ip off).type = ELF_PROG_LOAD then
      segWrite ip (proghdrAt ip off) :: segWrites ip n (off + PROGHDR)
    else
      segWrites ip n (off + PROGHDR)

theorem proghdr_succ (off m : Nat) : off + PROGHDR + PROGHDR * m = off + PROGHDR * (m + 1) := by
  rw [mul_succ, add_assoc, add_comm PROGHDR]

theorem mem_segWrites :
    w ∈ segWrites ip n off ↔ ∃ m < n, (proghdrAt ip (off + PROGHDR * m)).type = ELF_PROG_LOAD ∧
      w = segWrite ip (proghdrAt ip (off + PROGHDR * m)) := by
  induction n generalizing off with
  | zero => simp [segWrites]
  | succ n ih =>
    -- the first header, then those after it
    have hrest : w ∈ segWrites ip n (off + PROGHDR) ↔ ∃ m < n,
        (proghdrAt ip (off + PROGHDR * (m + 1))).type = ELF_PROG_LOAD ∧
          w = segWrite ip (proghdrAt ip (off + PROGHDR * (m + 1))) := by
      simp only [ih, proghdr_succ]
    rw [segWrites, exists_lt_succ_left, mul_zero, add_zero, ← hrest]
    split
    · rename_i htype
      simp [htype]
    · rename_i htype
      simp [htype]

/-- What is known of a header that was passed, when user memory has got the size `sz`. -/
structure SegOk (ip : List Byte) (sz off : Nat) : Prop where
  header : off + PROGHDR ≤ ip.length
  fits : (proghdrAt ip off).type = ELF_PROG_LOAD →
    (proghdrAt ip off).filesz ≤ (proghdrAt ip off).memsz ∧
    (proghdrAt ip off).vaddr + (proghdrAt ip off).memsz ≤ sz
  inFile : (proghdrAt ip off).type = ELF_PROG_LOAD → 0 < (proghdrAt ip off).filesz →
    (proghdrAt ip off).off % 2 ^ 32 + (proghdrAt ip off).filesz ≤ ip.length

theorem SegOk.mono (h : SegOk ip sz off) (hle : sz ≤ sz') : SegOk ip sz' off :=
  ⟨h.header, fun ht => ⟨(h.fits ht).1, (h.fits ht).2.trans hle⟩, h.inFile⟩

/-! ## `loadseg` -/

section

variable {s₀ s s' : Mach} {root sz trapframe usyscall : Nat} {F : Multiset Nat}
  (h : Idle s₀ ({usyscall} + F)) (hk : KERNBASE ≤ s₀.kend)
include h hk

section

variable (b : Building s₀ root sz trapframe usyscall none s)

include b

/-- **The loop of `loadseg`** does not stop on a segment below the size, and writes to it only.  If it
gets to the end, the segment has the bytes of the file. -/
theorem loadsegLoop_run
    (ip : List Byte) (offset : Nat) (hdvd : PGSIZE ∣ va + i) (hva : va + segsz ≤ sz)
    (hi : i + n * PGSIZE < segsz + PGSIZE) (hi' : segsz ≤ i + n * PGSIZE)
    (hoff : 0 < n → offset + i < 2 ^ 32) :
    wp (loadsegLoop root va ip offset segsz n i) (fun r s' =>
      Building s₀ root sz trapframe usyscall none s' ∧
      ∀ c, Filled s.mem root sz none c → ¬r < 0 →
        Filled s'.mem root sz none
          (fill c (va + i) (segsz - i) fun j => ip.getD (offset + i + j) 0) ∧
        (i < segsz → offset + segsz ≤ ip.length)) s := by
  induction n generalizing i s with
  | zero =>
    refine wp_pure ⟨b, fun c hf _ => ⟨?_, fun hlt => absurd hlt (by omega)⟩⟩
    rw [show segsz - i = 0 by omega]
    have hnil : (fill c (va + i) 0 fun j => ip.getD (offset + i + j) 0) = c :=
      funext fun x => fill_of_not_mem c _ (by omega)
    rwa [hnil]
  | succ n ih =>
    rw [succ_mul] at hi hi'
    have hpos : 0 < PGSIZE := by decide
    have hlt : va + i < sz := by omega
    have hmod : (va + i) % 2 ^ 64 = va + i := by
      have := b.space.size
      unfold MAXVA at this
      exact mod_eq_of_lt (by omega)
    have hup : va + i < npages sz * PGSIZE := hlt.trans_le (le_npages b.space.npages_lt.2)
    obtain ⟨hacc, hin⟩ := b.accessible h hk (div_lt_npages.mpr hup) (by simp)
    rw [loadsegLoop, hmod]
    refine wp_bind ⟨_, _, walkaddr_eq s root (va + i), ?_⟩
    rw [if_pos hacc]
    dsimp only
    rw [if_neg hacc.2.2.2, mod_eq_of_lt (hoff (succ_pos n))]
    set n' := if segsz - i < PGSIZE then segsz - i else PGSIZE with hn'
    have hn'le : n' ≤ PGSIZE ∧ 0 < n' ∧ n' ≤ segsz - i := by
      rw [hn']
      split <;> omega
    set bs := readi ip (offset + i) n' with hbs
    have hlen : bs.length ≤ PGSIZE := (length_readi_le _ _ _).trans hn'le.1
    refine wp_seq (b.wp_memput h (asStore bs) hdvd hlen hup) ?_
    rintro ⟨⟩ s₁ ⟨b1, hfill⟩
    split
    · exact wp_pure ⟨b1, fun _ _ hr => absurd (by decide) hr⟩
    rename_i hfull
    have hfull : bs.length = n' := not_not.mp hfull
    have hsmall : n' < 2 ^ 32 := hn'le.1.trans_lt (by decide)
    obtain ⟨hfile, hwrap, hbytes⟩ := readi_full hn'le.2.1 hsmall (hoff (succ_pos n)) hfull
    -- a further page means that this one was read in full
    have hnext : 0 < n → n' = PGSIZE := by
      intro hn
      have := mul_le_mul_right PGSIZE (succ_le_of_lt hn)
      rw [hn', if_neg (by omega)]
    refine wp_mono (ih b1 (by rw [← Nat.add_assoc]; exact (Nat.dvd_add_right hdvd).mpr dvd_rfl) (by omega)
      (by omega) fun hn => by have := hnext hn; omega) ?_
    rintro r s₂ ⟨b2, hrest⟩
    refine ⟨b2, fun c hf hr => ?_⟩
    obtain ⟨hf2, hend⟩ := hrest _ (hfill c hf) hr
    constructor
    · have hcut : n' = PGSIZE ∧ PGSIZE ≤ segsz - i ∨ n' = segsz - i ∧ segsz - i ≤ PGSIZE := by
        rw [hn']
        split <;> omega
      have hpieces := fill_pieces c (f := fun j => ip.getD (offset + i + j) 0) (a := va + i) hcut
        hbytes
      rw [hfull, show segsz - (i + PGSIZE) = segsz - i - PGSIZE by omega, ← add_assoc va] at hf2
      rw [← hpieces]
      convert hf2 using 4
      omega
    · intro _
      by_cases hmore : i + PGSIZE < segsz
      · exact hend hmore
      · have : n' = segsz - i := by
          rw [hn']
          split <;> omega
        omega

theorem Building.wp_loadseg
    (ip : List Byte) (offset segsz : Nat) (hdvd : PGSIZE ∣ va) (hva : va + segsz ≤ sz)
    (hoff : offset < 2 ^ 32) :
    wp (loadseg root va ip offset segsz) (fun r s' =>
      Building s₀ root sz trapframe usyscall none s' ∧
      ∀ c, Filled s.mem root sz none c → ¬r < 0 →
        Filled s'.mem root sz none (fill c va segsz fun j => ip.getD (offset + j) 0) ∧
        (0 < segsz → offset + segsz ≤ ip.length)) s := by
  have hpages : (segsz + PGSIZE - 1) / PGSIZE * PGSIZE < segsz + PGSIZE ∧
      segsz ≤ (segsz + PGSIZE - 1) / PGSIZE * PGSIZE := by
    unfold PGSIZE
    omega
  exact loadsegLoop_run (i := 0) h hk b ip offset hdvd hva (by omega) (by omega) fun _ => hoff

/-! ## The program headers -/

/-- User memory is no larger than RAM. -/
theorem Building.size_lt : sz < 2 ^ 32 := by
  have hk' : KERNBASE ≤ s.kend := by
    rw [b.moves.touches.kend]
    exact hk
  have hram := (b.idle h).npages_le_ram hk'
  have hle := le_npages b.space.npages_lt.2
  have hmul : npages sz * PGSIZE ≤ (PHYSTOP - KERNBASE) / PGSIZE * PGSIZE :=
    mul_le_mul_right PGSIZE (by omega)
  have : (PHYSTOP - KERNBASE) / PGSIZE * PGSIZE < 2 ^ 32 := by decide
  omega

/-- **The loop over the program headers** leaves an address space of the size it returns, whatever
the file says.  If it gets to the end, every segment was written. -/
theorem loadSegments_run (ip : List Byte) (n : Nat) (hoff : off < 2 ^ 32) :
    wp (loadSegments root ip n off sz) (fun r s' =>
      Building s₀ root r.1 trapframe usyscall none s' ∧
      ∀ c, Filled s.mem root sz none c → r.2 = true → sz ≤ r.1 ∧
        Filled s'.mem root r.1 none (writes c (segWrites ip n off)) ∧
        ∀ m < n, SegOk ip r.1 (off + PROGHDR * m)) s := by
  induction n generalizing off sz s with
  | zero => exact wp_pure ⟨b, fun c hf _ => ⟨le_rfl, hf, fun m hm => absurd hm (not_lt_zero m)⟩⟩
  | succ n ih =>
    have bad {sz' s'} {P : Store → Nat × Bool → Mach → Prop}
        (b' : Building s₀ root sz' trapframe usyscall none s') :
        wp (pure (sz', false) : Prog Mach (Nat × Bool)) (fun r t =>
          Building s₀ root r.1 trapframe usyscall none t ∧
          ∀ c, Filled s.mem root sz none c → r.2 = true → P c r t) s' :=
      wp_pure ⟨b', fun _ _ hr => nomatch hr⟩
    rw [loadSegments]
    split
    · exact bad b
    rename_i hlen
    have hlen := not_not.mp hlen
    obtain ⟨hfile, hwrap, -⟩ := readi_full (by decide) (by decide) hoff hlen
    have hword := load_readi hoff hlen
    rw [hword 4 0 (by decide), hword 8 16 (by decide), hword 8 32 (by decide), hword 8 40 (by decide),
      hword 8 8 (by decide), hword 4 4 (by decide), mod_eq_of_lt hwrap]
    set ph := proghdrAt ip off with hph
    -- a header that is fine comes before those that follow it
    have hall : ∀ {sz'}, SegOk ip sz' off → (∀ m < n, SegOk ip sz' (off + PROGHDR + PROGHDR * m)) →
        ∀ m < n + 1, SegOk ip sz' (off + PROGHDR * m) := by
      intro sz' hfirst hrest m hm
      cases m with
      | zero => exact hfirst
      | succ m => exact proghdr_succ off m ▸ hrest m (by omega)
    split
    · rename_i htype
      have htype : ph.type ≠ ELF_PROG_LOAD := htype
      refine wp_mono (ih b hwrap) ?_
      rintro r s₁ ⟨b1, hrest⟩
      refine ⟨b1, fun c hf hr => ?_⟩
      obtain ⟨hle, hf1, hok⟩ := hrest c hf hr
      refine ⟨hle, ?_, hall ⟨hfile, fun ht => absurd ht htype, fun ht => absurd ht htype⟩ hok⟩
      rw [segWrites, if_neg htype]
      exact hf1
    rename_i htype
    have htype : ph.type = ELF_PROG_LOAD := not_not.mp htype
    split
    · exact bad b
    rename_i hfs
    have hfs : ph.filesz ≤ ph.memsz := not_lt.mp hfs
    split
    · exact bad b
    rename_i hsum
    split
    · exact bad b
    rename_i halign
    have halign : PGSIZE ∣ ph.vaddr := dvd_of_mod_eq_zero (not_not.mp halign)
    have hend : (ph.vaddr + ph.memsz) % 2 ^ 64 = ph.vaddr + ph.memsz := by
      have h1 : ph.vaddr < 2 ^ 64 := (load 8 _ 16).isLt
      have h2 : ph.memsz < 2 ^ 64 := (load 8 _ 40).isLt
      have hsum : ¬(ph.vaddr + ph.memsz) % 2 ^ 64 < ph.vaddr := hsum
      omega
    refine wp_seq (b.wp_uvmalloc h hk _ (isFlags_flags2perm _)) ?_
    rintro sz1 s₁ ⟨b1, hr, hgrow⟩
    by_cases hz : sz1 = 0
    · rw [if_pos hz]
      rw [sizeAfter, if_pos hz] at b1
      exact bad b1
    rw [if_neg hz]
    rw [sizeAfter, if_neg hz] at b1
    obtain ⟨hgrown, hnew, -⟩ := hr hz
    have hseg : ph.vaddr + ph.memsz ≤ sz1 := hend ▸ hnew
    have hlt := b1.size_lt h hk
    have hmod : ph.filesz % 2 ^ 32 = ph.filesz := mod_eq_of_lt (by omega)
    have hin : ph.vaddr + ph.filesz % 2 ^ 32 ≤ sz1 := by omega
    refine wp_seq (b1.wp_loadseg h hk ip (ph.off % 2 ^ 32) (ph.filesz % 2 ^ 32) halign hin
      (mod_lt ph.off (by decide))) ?_
    rintro r s₂ ⟨b2, hbytes⟩
    split
    · exact bad b2
    rename_i hneg
    refine wp_mono (ih b2 hwrap) ?_
    rintro r' s₃ ⟨b3, hrest⟩
    refine ⟨b3, fun c hf hr' => ?_⟩
    obtain ⟨hf2, hin⟩ := hbytes c (hgrow c hf hz) hneg
    rw [hmod] at hf2 hin
    obtain ⟨hle, hf3, hok⟩ := hrest _ hf2 hr'
    refine ⟨hgrown.trans hle, ?_, hall ⟨hfile, fun _ => ⟨hfs, hseg.trans hle⟩, fun _ => hin⟩ hok⟩
    rw [segWrites, if_pos htype]
    exact hf3

end

end

end Xv6
