/-
# Xv6.Proc.Loaded — `exec` is all or nothing, and what it loads.

The specification of `sys_exec` for every user: it ends with the image of the file installed or with
everything as it was.  Then the image itself, as the ELF file and the arguments describe it: the
segments at their addresses, zeroes elsewhere, the arguments on the stack.  The file gives offsets of
64 bits, and `exec` keeps 32 of them: the image is as described exactly if no offset is cut off.
-/
import Xv6.Proc.Owner

namespace Xv6

open Lib Lib.Store Lib.Prog List

variable {k k' : Kernel} {X : Multiset Nat} {Y : Fin NFILE → Int} {i : Fin NPROC}

/-! ## The image that is described -/

/-- Program header `n` of the file. -/
def segment (ip : List Byte) (n : Nat) : Proghdr := proghdrAt ip (elfPhoff ip + PROGHDR * n)

/-- Segment `n` of the file is loaded. -/
def IsLoad (ip : List Byte) (n : Nat) : Prop :=
  n < elfPhnum ip ∧ (segment ip n).type = ELF_PROG_LOAD

/-- The loaded segments have no page in common. -/
def SegmentsApart (ip : List Byte) : Prop :=
  ∀ n n', IsLoad ip n → IsLoad ip n' → n ≠ n' → ∀ va va',
    (segment ip n).vaddr ≤ va → va < (segment ip n).vaddr + (segment ip n).memsz →
    (segment ip n').vaddr ≤ va' → va' < (segment ip n').vaddr + (segment ip n').memsz →
    va / PGSIZE ≠ va' / PGSIZE

/-- The segments of the file are in user memory, which is otherwise zero below `top`. -/
structure HasSegments (ip : List Byte) (u : Store) (top : Nat) : Prop where
  headers : ∀ n < elfPhnum ip, elfPhoff ip + PROGHDR * (n + 1) ≤ ip.length
  bytes : ∀ n, IsLoad ip n → ∀ j < (segment ip n).filesz,
    ip[(segment ip n).off + j]? = some (u ((segment ip n).vaddr + j))
  zero : ∀ va < top, (∀ n, IsLoad ip n → ¬((segment ip n).vaddr ≤ va ∧
    va < (segment ip n).vaddr + (segment ip n).filesz)) → u va = 0

/-- The string at `a`, without its NUL. -/
def cstr (m : Store) (a : Nat) : List Byte := bytes m a (strlen m a)

/-- Where the arguments are: the array at `sp`, and the strings at `ps`. -/
def argRegions (args : List (List Byte)) (ps : List Nat) (sp : Nat) : List (Nat × Nat) :=
  (sp, 8 * (ps.length + 1)) :: List.zipWith (fun arg p => (p, arg.length + 1)) args ps

/-- The arguments are on the stack between `base` and `top`: at `sp` the addresses of the strings and a
null pointer, and at each address its string; no two of these overlap. -/
structure HasArgs (args : List (List Byte)) (u : Store) (base sp top : Nat) : Prop where
  aligned : sp % 16 = 0
  stack : base ≤ sp ∧ sp < top
  strings : ∃ ps : List Nat, ps.length = args.length ∧
    (∀ i < ps.length, load 8 u (sp + 8 * i) = BitVec.ofNat 64 (ps.getD i 0)) ∧
    load 8 u (sp + 8 * ps.length) = 0 ∧
    List.Forall₂ (fun arg p => bytes u p (arg.length + 1) = arg ++ [0]) args ps ∧
    (argRegions args ps sp).Pairwise (fun r r' => r.1 + r.2 ≤ r'.1 ∨ r'.1 + r'.2 ≤ r.1) ∧
    ∀ r ∈ argRegions args ps sp, base ≤ r.1 ∧ r.1 + r.2 ≤ top

/-- Process `i` has the image that the file and the arguments describe. -/
structure HasImage (ip : List Byte) (args : List (List Byte)) (i : Fin NPROC) (r : Int) (k : Kernel) :
    Prop where
  argc : r = args.length
  image : ∃ root tf sp, (k.proc i).pagetable = some root ∧ (k.proc i).trapframe = some tf ∧
    HasSegments ip (userView k.mach.mem root) ((k.proc i).sz - PGSIZE) ∧
    (∀ va, (k.proc i).sz - 2 * PGSIZE ≤ va → va < (k.proc i).sz - PGSIZE →
      ptEntry k.mach.mem root (va / PGSIZE) &&& PTE_U = 0) ∧
    HasArgs args (userView k.mach.mem root) ((k.proc i).sz - PGSIZE) sp (k.proc i).sz ∧
    load 8 k.mach.mem (tf + TF_SP) = BitVec.ofNat 64 sp ∧
    load 8 k.mach.mem (tf + TF_A1) = BitVec.ofNat 64 sp ∧
    load 8 k.mach.mem (tf + TF_EPC) = BitVec.ofNat 64 (elfEntry ip)

/-- No offset in the file needs more than 32 bits. -/
def OffsetsFit (ip : List Byte) : Prop :=
  (elfPhnum ip = 0 ∨ elfPhoff ip < 2 ^ 32) ∧
    ∀ n, IsLoad ip n → (segment ip n).filesz = 0 ∨ (segment ip n).off < 2 ^ 32

/-! ## Segments -/

/-- Segments without a byte in common are written without overlap. -/
theorem pairwise_segWrites
    (h : ∀ m m', m < n → m' < n → m ≠ m' →
      (proghdrAt ip (off + PROGHDR * m)).type = ELF_PROG_LOAD →
      (proghdrAt ip (off + PROGHDR * m')).type = ELF_PROG_LOAD → ∀ x,
      (segWrite ip (proghdrAt ip (off + PROGHDR * m))).Covers x →
      ¬(segWrite ip (proghdrAt ip (off + PROGHDR * m'))).Covers x) :
    (segWrites ip n off).Pairwise fun w w' => ∀ x, w.Covers x → ¬w'.Covers x := by
  induction n generalizing off with
  | zero => exact .nil
  | succ n ih =>
    have hrest : (segWrites ip n (off + PROGHDR)).Pairwise fun w w' => ∀ x, w.Covers x → ¬w'.Covers x := by
      refine ih fun m m' hm hm' hne => ?_
      rw [proghdr_succ, proghdr_succ]
      exact h (m + 1) (m' + 1) (by omega) (by omega) (by omega)
    rw [segWrites]
    split
    · rename_i htype
      refine pairwise_cons.mpr ⟨fun w hw => ?_, hrest⟩
      obtain ⟨m, hm, htype', rfl⟩ := mem_segWrites.mp hw
      rw [proghdr_succ] at htype' ⊢
      exact h 0 (m + 1) (by omega) (by omega) (by omega) htype htype'
    · exact hrest

variable {s₀ s : Mach} {ip : List Byte} {argv : List Nat} {img : Image}

/-- The bytes of the image below the stack. -/
theorem ImageOf.below (h : ImageOf s₀ ip argv img s) (hsz : img.sz < 2 ^ 63)
    (hva : va < img.sz - PGSIZE) : userView s.mem img.pagetable va =
      writes (fun _ => 0) (segWrites ip (elfPhnum ip) (elfPhoff ip % 2 ^ 32)) va := by
  obtain ⟨-, -, root, sz, hst⟩ := h
  obtain ⟨ps, u, hf, -, hu⟩ := hst.user
  have hlt : va < npages img.sz * PGSIZE := by
    have := le_npages hsz
    omega
  rw [hst.pagetable, hf.bytes va hlt, hu va hva]

/-- **The segments** are in the image, if no offset was cut off. -/
theorem ImageOf.hasSegments (h : ImageOf s₀ ip argv img s) (hsz : img.sz < 2 ^ 63)
    (hapart : SegmentsApart ip) (hfit : OffsetsFit ip) :
    HasSegments ip (userView s.mem img.pagetable) (img.sz - PGSIZE) := by
  have hok := h.segments
  -- `exec` looks for the headers where the file has them
  have hoff : ∀ n < elfPhnum ip, elfPhoff ip % 2 ^ 32 + PROGHDR * n = elfPhoff ip + PROGHDR * n := by
    intro n hn
    rw [Nat.mod_eq_of_lt (hfit.1.resolve_left (by omega))]
  have hseg : ∀ n < elfPhnum ip,
      proghdrAt ip (elfPhoff ip % 2 ^ 32 + PROGHDR * n) = segment ip n := fun n hn => by
    rw [hoff n hn, segment]
  have hlow : ∀ n, IsLoad ip n → (segment ip n).filesz ≤ (segment ip n).memsz ∧
      (segment ip n).vaddr + (segment ip n).memsz ≤ img.sz - PGSIZE := by
    intro n hn
    obtain ⟨hfs, hend⟩ := (hok n hn.1).fits (by rw [hseg n hn.1]; exact hn.2)
    rw [hseg n hn.1] at hfs hend
    exact ⟨hfs, by omega⟩
  have hcovers : ∀ n x, (segWrite ip (segment ip n)).Covers x ↔
      (segment ip n).vaddr ≤ x ∧ x < (segment ip n).vaddr + (segment ip n).filesz := fun _ _ => Iff.rfl
  have hdis : (segWrites ip (elfPhnum ip) (elfPhoff ip % 2 ^ 32)).Pairwise fun w w' =>
      ∀ x, w.Covers x → ¬w'.Covers x := by
    refine pairwise_segWrites fun n n' hn hn' hne ht ht' x hx hx' => ?_
    rw [hseg n hn] at ht hx
    rw [hseg n' hn'] at ht' hx'
    rw [hcovers] at hx hx'
    have h1 := (hlow n ⟨hn, ht⟩).1
    have h2 := (hlow n' ⟨hn', ht'⟩).1
    exact hapart n n' ⟨hn, ht⟩ ⟨hn', ht'⟩ hne x x hx.1 (by omega) hx'.1 (by omega) rfl
  refine ⟨fun n hn => ?_, fun n hn j hj => ?_, fun va hva hno => ?_⟩
  · have := (hok n hn).header
    rw [hoff n hn] at this
    rw [Nat.mul_succ]
    omega
  · obtain ⟨hfs, hend⟩ := hlow n hn
    have hw : segWrite ip (segment ip n) ∈ segWrites ip (elfPhnum ip) (elfPhoff ip % 2 ^ 32) :=
      mem_segWrites.mpr ⟨n, hn.1, by rw [hseg n hn.1]; exact hn.2, by rw [hseg n hn.1]⟩
    have hfile := (hok n hn.1).inFile (by rw [hseg n hn.1]; exact hn.2)
    rw [hseg n hn.1] at hfile
    have hlt : (segment ip n).off < 2 ^ 32 := (hfit.2 n hn).resolve_left (by omega)
    have hfile := hfile (by omega)
    rw [h.below hsz (by omega), writes_of_covers hdis hw
      ((hcovers n _).mpr ⟨Nat.le_add_right _ _, Nat.add_lt_add_left hj _⟩)]
    dsimp only [segWrite]
    rw [Nat.add_sub_cancel_left, Nat.mod_eq_of_lt hlt] at *
    rw [getD_eq_getElem?_getD, getElem?_eq_getElem (by omega)]
    rfl
  · rw [h.below hsz hva]
    refine writes_of_not_covers (fun w hw => ?_) _
    obtain ⟨n, hn, ht, rfl⟩ := mem_segWrites.mp hw
    rw [hseg n hn] at ht ⊢
    exact hno n ⟨hn, ht⟩

/-! ## Arguments -/

/-- A string ends with a NUL, if its page has one. -/
theorem strlen_nul {m : Store} {a : Nat} (h : ∃ n < PGSIZE, m (a + n) = 0) : m (a + strlen m a) = 0 := by
  obtain ⟨n, hn, hz⟩ := h
  rw [strlen]
  cases hfind : (range (PGSIZE - 1)).find? fun n => decide (m (a + n) = 0) with
  | some n' =>
    have hn' := find?_some hfind
    rw [Option.getD_some]
    exact of_decide_eq_true hn'
  | none =>
    have hno := find?_eq_none.mp hfind
    have hlast : n = PGSIZE - 1 := by
      by_contra hne
      exact hno n (mem_range.mpr (by omega)) (decide_eq_true hz)
    rw [Option.getD_none, ← hlast, hz]

theorem length_cstr (m : Store) (a : Nat) : (cstr m a).length = strlen m a := by
  rw [cstr, bytes, length_map, length_range]

/-- The strings are where they were pushed. -/
theorem Pushed.strings (h : Pushed m u sp argv ps lo)
    (hnul : ∀ a ∈ argv, ∃ n < PGSIZE, m (a + n) = 0) :
    List.Forall₂ (fun arg p => bytes u p (arg.length + 1) = arg ++ [0]) (argv.map (cstr m)) ps := by
  induction h with
  | nil => exact .nil
  | @cons sp arg p lo argv ps fits hbytes rest ih =>
    refine .cons ?_ (ih fun a ha => hnul a (mem_cons_of_mem arg ha))
    have hend := strlen_nul (hnul arg mem_cons_self)
    rw [length_cstr, bytes, range_succ, map_append, map_singleton,
      hbytes _ (Nat.lt_succ_self _), hend, cstr, bytes]
    refine congrArg (· ++ [(0 : Byte)]) (map_congr_left fun j hj => hbytes j ?_)
    exact Nat.lt_succ_of_lt (mem_range.mp hj)

/-- They do not overlap, and lie between `lo` and `sp`. -/
theorem Pushed.regions (h : Pushed m u sp argv ps lo) :
    (∀ r ∈ zipWith (fun arg p => (p, arg.length + 1)) (argv.map (cstr m)) ps,
      lo ≤ r.1 ∧ r.1 + r.2 ≤ sp) ∧
    (zipWith (fun (arg : List Byte) p => (p, arg.length + 1)) (argv.map (cstr m)) ps).Pairwise
      fun r r' => r.1 + r.2 ≤ r'.1 ∨ r'.1 + r'.2 ≤ r.1 := by
  induction h with
  | nil => exact ⟨(fun _ hr => nomatch hr), List.Pairwise.nil⟩
  | @cons sp arg p lo argv ps fits _ rest ih =>
    obtain ⟨hin, hdis⟩ := ih
    have hle := rest.le
    rw [map_cons, zipWith_cons_cons, length_cstr]
    refine ⟨fun r hr => ?_, pairwise_cons.mpr ⟨fun r hr => .inr (hin r hr).2, hdis⟩⟩
    rcases mem_cons.mp hr with rfl | hr
    · exact ⟨hle, fits⟩
    · have := hin r hr
      omega

/-- **The arguments** are on the stack of the image. -/
theorem ImageOf.hasArgs (h : ImageOf s₀ ip argv img s) (hsz : img.sz < 2 ^ 63)
    (hnul : ∀ a ∈ argv, ∃ n < PGSIZE, s₀.mem (a + n) = 0) :
    HasArgs (argv.map (cstr s₀.mem)) (userView s.mem img.pagetable) (img.sz - PGSIZE) img.sp
      img.sz := by
  obtain ⟨-, -, root, sz, hst⟩ := h
  obtain ⟨ps, u, hf, ⟨⟨lo, hpushed, hroom⟩, harray⟩, -⟩ := hst.user
  have hview : ∀ x < img.sz, userView s.mem img.pagetable x = u x := fun x hx => by
    rw [hst.pagetable]
    exact hf.bytes x (hx.trans_le (le_npages hsz))
  have hpushed := hpushed.congr fun x _ hx => hview x hx
  have hle := hpushed.le
  have hbase := hst.base
  have hword : ∀ i ≤ ps.length, load 8 (userView s.mem img.pagetable) (img.sp + 8 * i) =
      BitVec.ofNat 64 (ps.getD i 0) := by
    intro i hi
    rw [← harray i hi]
    exact load_congr fun x _ hx => hview x (by omega)
  obtain ⟨hin, hdis⟩ := hpushed.regions
  refine ⟨hst.aligned, ⟨hbase, by omega⟩, ps, ?_, fun i hi => hword i hi.le, ?_, hpushed.strings hnul,
    ?_, fun r hr => ?_⟩
  · rw [hpushed.length, length_map]
  · rw [hword _ le_rfl, getD_eq_getElem?_getD, getElem?_eq_none le_rfl]
    rfl
  · refine pairwise_cons.mpr ⟨fun r hr => .inl ?_, hdis⟩
    have := hin r hr
    omega
  · rcases mem_cons.mp hr with rfl | hr
    · exact ⟨hbase, hroom.trans hle⟩
    · have := hin r hr
      omega

/-- The page below the stack page is not for the user. -/
theorem ImageOf.guarded (h : ImageOf s₀ ip argv img s) (hle : img.sz - 2 * PGSIZE ≤ va)
    (hlt : va < img.sz - PGSIZE) : ptEntry s.mem img.pagetable (va / PGSIZE) &&& PTE_U = 0 := by
  obtain ⟨-, -, root, sz, hst⟩ := h
  obtain ⟨ps, u, hf, -, -⟩ := hst.user
  have hsize := hst.size
  have hpage : va / PGSIZE = img.guard := by
    rw [Image.guard, hsize, ← Nat.add_mul, vpn_mul, Nat.add_sub_cancel]
    refine Nat.div_eq_of_lt_le (by omega) ?_
    rw [Nat.succ_mul]
    omega
  rw [hpage, hst.pagetable, and_U_eq_zero]
  exact (hf.guarded _ rfl).2

/-! ## `exec` -/

/-- **`exec` builds the image that the file and the arguments describe** exactly if it did not cut off an
offset. -/
theorem exec_image_iff (h : KInv k X Y ∅) (hrun : (k.proc i).state = .RUNNABLE)
    {fs : List Byte → Option (List Byte)} {path ip : List Byte} {argv : List Nat}
    (hargs : ∀ a ∈ argv, a ∈ X) (hnul : ∀ a ∈ argv, ∃ n < PGSIZE, k.mach.mem (a + n) = 0)
    (hfile : fs path = some ip) (hsize : ip.length < 2 ^ 32) (hapart : SegmentsApart ip) {r : Int}
    (hexec : exec fs i path argv k = .ok (r, k')) (hr : r ≠ -1) :
    HasImage ip (argv.map (cstr k.mach.mem)) i r k' ↔ OffsetsFit ip := by
  obtain ⟨r', k'', hrun', ⟨h', -, -⟩, hends⟩ := wp_exec h hrun fs path hargs
  cases hexec.symm.trans hrun'
  obtain ⟨root, tf, us, -, htf, -, -⟩ := h.live (i := i) (by rw [hrun]; decide)
  rcases hends with ⟨ip', img, hfile', hargc, himg⟩ | ⟨hr', -⟩
  swap
  · exact absurd hr' hr
  obtain rfl := Option.some.inj (hfile.symm.trans hfile')
  have hproc : (k'.proc i).pagetable = some img.pagetable ∧ (k'.proc i).sz = img.sz ∧
      (k'.proc i).trapframe = some tf := by
    rw [himg.proc, Function.update_self]
    exact ⟨rfl, rfl, htf⟩
  obtain ⟨hpt, hsz, htf'⟩ := hproc
  obtain ⟨_, _, -, -, hs⟩ := (h'.proc i).space _ hpt
  have hlt : img.sz < 2 ^ 63 := hsz ▸ hs.npages_lt.2
  constructor
  · -- an offset that is found in the file is small
    rintro ⟨-, root', -, -, hpt', -, hseg, -⟩
    refine ⟨?_, fun n hn => ?_⟩
    · rcases Nat.eq_zero_or_pos (elfPhnum ip) with hz | hpos
      · exact .inl hz
      · have := hseg.headers 0 hpos
        exact .inr (by omega)
    · rcases Nat.eq_zero_or_pos (segment ip n).filesz with hz | hpos
      · exact .inl hz
      · obtain ⟨hin, -⟩ := List.getElem?_eq_some_iff.mp (hseg.bytes n hn 0 hpos)
        exact .inr (by omega)
  · intro hfit
    obtain ⟨-, -, _, _, hst⟩ := himg.image
    refine ⟨by rw [hargc, hst.argc, length_map], img.pagetable, tf, img.sp, hpt, htf', ?_, ?_, ?_,
      himg.sp tf htf, himg.a1 tf htf, ?_⟩
    · rw [hsz]
      exact himg.image.hasSegments hlt hapart hfit
    · rw [hsz]
      exact fun va hle hlt => himg.image.guarded hle hlt
    · rw [hsz]
      exact himg.image.hasArgs hlt hnul
    · rw [himg.epc tf htf, himg.image.entry]

/-- If there is an image, `exec` installs it. -/
theorem exec_of_image (h : KInv k X Y ∅) (hrun : (k.proc i).state = .RUNNABLE)
    {fs : List Byte → Option (List Byte)}
    (hargs : ∀ a ∈ argv, a ∈ X) (hfile : fs path = some ip)
    (hbuild : (buildImage ip argv ((k.proc i).trapframe.getD 0) ((k.proc i).usyscall.getD 0)).test
      k.mach (fun r _ => r.isSome) = true) :
    ∃ r k', exec fs i path argv k = .ok (r, k') ∧ r ≠ -1 := by
  obtain ⟨r, k', hexec, -, hends⟩ := wp_exec h hrun fs path hargs
  refine ⟨r, k', hexec, ?_⟩
  rcases hends with ⟨ip', img, -, rfl, -⟩ | ⟨-, -, -, hno⟩
  · omega
  · obtain ⟨s, hnone⟩ := hno ip hfile
    obtain ⟨r', s', hsome, hr'⟩ := of_test hbuild
    cases hnone.symm.trans hsome
    cases hr'

/-- The bytes of a word in a file. -/
def leBytes {n : Nat} (v : BitVec (8 * n)) : List Byte := (List.range n).map (bytesOf v)

/-- A program of two bytes for address 0, which its only header says are at `off`; they are at 120. -/
def tinyElf (off : BitVec 64) : List Byte :=
  leBytes (n := 4) ELF_MAGIC ++ List.replicate 28 0 ++ leBytes (n := 8) 64 ++ List.replicate 16 0 ++
    leBytes (n := 2) 1 ++ List.replicate 6 0 ++
  (leBytes (n := 4) ELF_PROG_LOAD ++ leBytes (n := 4) 5 ++ leBytes (n := 8) off ++
    List.replicate 16 0 ++ leBytes (n := 8) 2 ++ leBytes (n := 8) 3 ++ List.replicate 8 0) ++ [7, 9]

/-- A file system in which every path leads to one file. -/
def onlyFile (ip : List Byte) (_ : List Byte) : Option (List Byte) := some ip

theorem apart_of_one (h : elfPhnum ip = 1) : SegmentsApart ip := by
  intro n n' hn hn' hne
  have h1 := hn.1
  have h2 := hn'.1
  omega

/-- The first process, after `sys_exec` has fetched the arguments of `/init`, executes a program. -/
theorem exec_image_iff_small : ∃ (k k' : Kernel) (argv : List Nat) (r : Int), argv.length = 1 ∧
    exec (onlyFile (tinyElf 120)) ⟨0, by decide⟩ [] argv k = .ok (r, k') ∧
    HasImage (tinyElf 120) (argv.map (cstr k.mach.mem)) ⟨0, by decide⟩ r k' := by
  obtain ⟨pages, k, hb, hrun, hfetch⟩ := small_boots
    (P := fun k => (fetchArgs ⟨0, by decide⟩ 0x2b MAXARG []).test k fun r k =>
      decide (r.2.length = 1 ∧ ∀ a ∈ r.2, k.mach.mem (a + 5) = 0) &&
      (buildImage (tinyElf 120) r.2 ((k.proc ⟨0, by decide⟩).trapframe.getD 0)
        ((k.proc ⟨0, by decide⟩).usyscall.getD 0)).test k.mach fun r _ => r.isSome)
    (by decide +kernel)
  obtain ⟨⟨ok, argv⟩, k1, hrun1, hP1⟩ := of_test hfetch
  obtain ⟨hargs, hbuild⟩ := Bool.and_eq_true_iff.mp hP1
  obtain ⟨hone, hnul⟩ := of_decide_eq_true hargs
  -- the argument page is held by the call
  have hk : KInv k (([] : List Nat) + (pages : Multiset Nat)) 0 ∅ := by
    rw [Multiset.coe_nil, zero_add]
    exact hb.kinv
  obtain ⟨root, -, -, hroot, -⟩ := hk.live (i := ⟨0, by decide⟩) (by rw [hrun]; decide)
  obtain ⟨_, _, hrun1', m1, e1⟩ := wp_fetchArgs 0x2b MAXARG [] hk hroot
  cases hrun1.symm.trans hrun1'
  have hk1 := (hk.mach (m1.frame _) e1).1
  have hheld : ∀ a ∈ argv, a ∈ (argv : Multiset Nat) + (pages : Multiset Nat) := fun a ha =>
    Multiset.mem_add.mpr (.inl ha)
  have hrun' : (k1.proc ⟨0, by decide⟩).state = .RUNNABLE := by rw [e1.proc, hrun]
  have hfile : onlyFile (tinyElf 120) [] = some (tinyElf 120) := rfl
  obtain ⟨r, k', hexec, hr⟩ := exec_of_image hk1 hrun' hheld hfile hbuild
  have hnul' : ∀ a ∈ argv, ∃ n < PGSIZE, k1.mach.mem (a + n) = 0 := fun a ha =>
    ⟨5, by decide, hnul a ha⟩
  have hsize : (tinyElf 120).length < 2 ^ 32 := by decide +kernel
  have hfit : OffsetsFit (tinyElf 120) := by
    refine ⟨.inr (by decide +kernel), fun n hn => .inr ?_⟩
    have : elfPhnum (tinyElf 120) = 1 := by decide +kernel
    obtain rfl : n = 0 := by
      have := hn.1
      omega
    decide +kernel
  have hapart : SegmentsApart (tinyElf 120) := apart_of_one (by decide +kernel)
  exact ⟨k1, k', argv, r, hone, hexec,
    (exec_image_iff hk1 hrun' hheld hnul' hfile hsize hapart hexec hr).mpr hfit⟩

/-- A file that claims its segment is beyond 4 GiB: `exec` does not fail, and the image is not what the file
says. -/
theorem exec_cuts_offset : ∃ pages k k' r, Booted pages k ∧
    SegmentsApart (tinyElf (2 ^ 32 + 120)) ∧ (tinyElf (2 ^ 32 + 120)).length = 122 ∧
    exec (onlyFile (tinyElf (2 ^ 32 + 120))) ⟨0, by decide⟩ [] [] k = .ok (r, k') ∧ r ≠ -1 ∧
    ¬HasImage (tinyElf (2 ^ 32 + 120)) [] ⟨0, by decide⟩ r k' := by
  obtain ⟨pages, k, hb, hrun, hbuild⟩ := small_boots
    (P := fun k => (buildImage (tinyElf (2 ^ 32 + 120)) []
      ((k.proc ⟨0, by decide⟩).trapframe.getD 0) ((k.proc ⟨0, by decide⟩).usyscall.getD 0)).test
        k.mach fun r _ => r.isSome) (by decide +kernel)
  have hheld : ∀ a ∈ ([] : List Nat), a ∈ (pages : Multiset Nat) := fun _ ha => nomatch ha
  have hfile : onlyFile (tinyElf (2 ^ 32 + 120)) [] = some (tinyElf (2 ^ 32 + 120)) := rfl
  obtain ⟨r, k', hexec, hr⟩ := exec_of_image hb.kinv hrun hheld hfile hbuild
  refine ⟨pages, k, k', r, hb, apart_of_one (by decide +kernel), by decide +kernel, hexec, hr, ?_⟩
  rintro ⟨-, root, -, -, -, -, hseg, -⟩
  have hload : IsLoad (tinyElf (2 ^ 32 + 120)) 0 := ⟨by decide +kernel, by decide +kernel⟩
  have hin := hseg.bytes 0 hload 0 (by decide +kernel)
  rw [getElem?_eq_none (by decide +kernel)] at hin
  cases hin

end Xv6
