/-
# Xv6.Proc.Image — the address space that `exec` builds (`kernel/exec.c`, first part).

`exec` builds the new address space next to the old one and commits to it at the end.  This module has
the part before the commit, which works on memory only: the ELF file is read, its segments are
loaded, and the arguments are pushed on a stack of one page above a guard page.  On every way out the
new address space is complete or all its pages are free again.

A file is its bytes; `readi` on them is what it is on an inode that has all its blocks.
-/
import Xv6.Mem.Bytewise
import Xv6.Proc.Space
import Xv6.Proc.Access

namespace Xv6

open Lib Lib.Store Lib.Prog Multiset Nat

/-! ## Definitions -/

/-- The bytes that `readi(ip, 0, dst, off, n)` copies to `dst`; it returns their number. -/
def readi (ip : List Byte) (off n : Nat) : List Byte :=
  if off > ip.length ∨ (off + n) % 2 ^ 32 < off then
    []
  else
    let n := if off + n > ip.length then ip.length - off else n
    (ip.drop off).take n

/-- A structure that was read into memory. -/
def asStore (b : List Byte) : Store := fun i => b.getD i 0

def ELF_MAGIC : BitVec 32 := 0x464C457F
/-- `sizeof(struct elfhdr)`. -/
def ELFHDR : Nat := 64
/-- `sizeof(struct proghdr)`. -/
def PROGHDR : Nat := 56
def ELF_PROG_LOAD : BitVec 32 := 1

def flags2perm (flags : BitVec 32) : Pte :=
  let perm := if flags &&& 1 ≠ 0 then PTE_X else 0
  if flags &&& 2 ≠ 0 then perm ||| PTE_W else perm

/-- `loadseg`'s loop; `n` iterations are left. -/
def loadsegLoop (pagetable va : Nat) (ip : List Byte) (offset sz : Nat) : Nat → Nat → Prog Mach Int
  | 0, _ => pure 0
  | n + 1, i => do
    let pa ← walkaddr pagetable ((va + i) % 2 ^ 64)
    if pa = 0 then
      kpanic "loadseg: address should exist"
    else
      let n' := if sz - i < PGSIZE then sz - i else PGSIZE
      let b := readi ip ((offset + i) % 2 ^ 32) n'
      memput pa (asStore b) b.length
      if b.length ≠ n' then
        pure (-1)
      else
        loadsegLoop pagetable va ip offset sz n (i + PGSIZE)

/-- Load a program segment into `pagetable` at virtual address `va`, whose pages are mapped. -/
def loadseg (pagetable va : Nat) (ip : List Byte) (offset sz : Nat) : Prog Mach Int :=
  loadsegLoop pagetable va ip offset sz ((sz + PGSIZE - 1) / PGSIZE) 0

/-- The loop over the program headers, of which `n` are left; the size reached, and `false` for
`goto bad`. -/
def loadSegments (pagetable : Nat) (ip : List Byte) : Nat → Nat → Nat → Prog Mach (Nat × Bool)
  | 0, _, sz => pure (sz, true)
  | n + 1, off, sz => do
    let b := readi ip off PROGHDR
    let ph := asStore b
    -- `off` is an `int`, and `readi` takes a `uint`
    let next := (off + PROGHDR) % 2 ^ 32
    let vaddr := (load 8 ph 16).toNat
    let filesz := (load 8 ph 32).toNat
    let memsz := (load 8 ph 40).toNat
    if b.length ≠ PROGHDR then
      pure (sz, false)
    else if load 4 ph 0 ≠ ELF_PROG_LOAD then
      loadSegments pagetable ip n next sz
    else if memsz < filesz then
      pure (sz, false)
    else if (vaddr + memsz) % 2 ^ 64 < vaddr then
      pure (sz, false)
    else if vaddr % PGSIZE ≠ 0 then
      pure (sz, false)
    else
      let sz1 ← uvmalloc pagetable sz ((vaddr + memsz) % 2 ^ 64) (flags2perm (load 4 ph 4))
      if sz1 = 0 then
        pure (sz, false)
      else
        -- the offset and the size are passed as `uint`
        let r ← loadseg pagetable vaddr ip ((load 8 ph 8).toNat % 2 ^ 32) (filesz % 2 ^ 32)
        if r < 0 then
          pure (sz1, false)
        else
          loadSegments pagetable ip n next sz1

/-- The length of the string at `s`, which ends within its page: if no earlier byte is NUL, the last
one is. -/
def strlen (m : Store) (s : Nat) : Nat :=
  ((List.range (PGSIZE - 1)).find? fun n => decide (m (s + n) = 0)).getD (PGSIZE - 1)

/-- The stack pointer after `n` bytes were pushed and it was aligned. -/
def push (sp n : Nat) : Nat :=
  let sp := (sp + 2 ^ 64 - n) % 2 ^ 64
  sp - sp % 16

/-- The loop over `argv`: the stack pointer and `ustack` afterwards, nothing for `goto bad`. -/
def pushArgs (pagetable stackbase : Nat) :
    List Nat → Nat → List Nat → Prog Mach (Option (Nat × List Nat))
  | [], sp, ustack => pure (some (sp, ustack))
  | arg :: argv, sp, ustack => do
    if ustack.length ≥ MAXARG then
      pure none
    else
      let m := (← get).mem
      let sp := push sp (strlen m arg + 1)
      if sp < stackbase then
        pure none
      else if (← copyout pagetable sp (fun i => m (arg + i)) (strlen m arg + 1)) < 0 then
        pure none
      else
        pushArgs pagetable stackbase argv sp (ustack ++ [sp])

/-- Byte `i` of an array of 64-bit words that is followed by a zero. -/
def wordsByte (ws : List Nat) (i : Nat) : Byte :=
  bytesOf (k := 8) (BitVec.ofNat 64 (ws.getD (i / 8) 0)) (i % 8)

/-- What `exec` commits to. -/
structure Image where
  pagetable : Nat
  sz : Nat
  sp : Nat
  entry : Nat
  argc : Nat

/-- The page that was made inaccessible. -/
def Image.guard (img : Image) : Nat := img.sz / PGSIZE - 2

/-- `bad:`, with a page table. -/
def execBad (pagetable sz : Nat) : Prog Mach (Option Image) := do
  procFreepagetable pagetable sz
  pure none

/-- The stack: two pages, the first of them inaccessible as a guard, with the arguments in the
second. -/
def buildStack (pagetable sz entry : Nat) (argv : List Nat) : Prog Mach (Option Image) := do
  let sz := PGROUNDUP sz
  let sz1 ← uvmalloc pagetable sz ((sz + 2 * PGSIZE) % 2 ^ 64) PTE_W
  if sz1 = 0 then
    execBad pagetable sz
  else
    uvmclear pagetable (sz1 - 2 * PGSIZE)
    let stackbase := sz1 - PGSIZE
    match ← pushArgs pagetable stackbase argv sz1 [] with
    | none => execBad pagetable sz1
    | some (sp, ustack) =>
      let argc := ustack.length
      let sp := push sp ((argc + 1) * 8)
      if sp < stackbase then
        execBad pagetable sz1
      else if (← copyout pagetable sp (wordsByte ustack) ((argc + 1) * 8)) < 0 then
        execBad pagetable sz1
      else
        pure (some ⟨pagetable, sz1, sp, entry, argc⟩)

/-- `exec` up to the commit. -/
def buildImage (ip : List Byte) (argv : List Nat) (trapframe usyscall : Nat) :
    Prog Mach (Option Image) := do
  let b := readi ip 0 ELFHDR
  let elf := asStore b
  if b.length ≠ ELFHDR then
    pure none
  else if load 4 elf 0 ≠ ELF_MAGIC then
    pure none
  else
    match ← procPagetable trapframe usyscall with
    | none => pure none
    | some pagetable =>
      let (sz, ok) ← loadSegments pagetable ip (load 2 elf 56).toNat
        ((load 8 elf 32).toNat % 2 ^ 32) 0
      if ok then
        buildStack pagetable sz (load 8 elf 24).toNat argv
      else
        execBad pagetable sz

/-! ## What user memory holds -/

/-- User memory, byte by byte. -/
def userView (m : Store) (root : Nat) : Store := fun va => m (physAddr m root va)

/-- The user memory of size `sz` holds the bytes `c`, which are zero above it, and the guard page is
not for the user. -/
structure Filled (m : Store) (root sz : Nat) (guard : Option Nat) (c : Store) : Prop where
  bytes : ∀ va < npages sz * PGSIZE, userView m root va = c va
  above : ∀ va, npages sz * PGSIZE ≤ va → c va = 0
  guarded : ∀ v, guard = some v → v < npages sz ∧ (ptEntry m root v).getLsbD 4 = false

theorem div_lt_npages : va / PGSIZE < npages sz ↔ va < npages sz * PGSIZE :=
  div_lt_iff_lt_mul (by decide)

theorem filled_zero (m : Store) (root : Nat) : Filled m root 0 none fun _ => 0 where
  bytes va hva := by
    rw [npages_zero, zero_mul] at hva
    exact absurd hva (not_lt_zero va)
  above _ _ := rfl
  guarded _ hv := nomatch hv

/-- The size counts in pages. -/
theorem Filled.resize {m c : Store} {root sz sz' : Nat} {guard : Option Nat}
    (hf : Filled m root sz guard c) (heq : npages sz' = npages sz) : Filled m root sz' guard c := by
  obtain ⟨h1, h2, h3⟩ := hf
  rw [← heq] at h1 h2 h3
  exact ⟨h1, h2, h3⟩

/-- Bytes of user memory are written. -/
theorem Filled.fill {m m' c : Store} {root sz va n : Nat} {guard : Option Nat} {src : Nat → Byte}
    (hf : Filled m root sz guard c) (hn : va + n ≤ npages sz * PGSIZE)
    (hsame : ∀ w, ptEntry m' root w = ptEntry m root w)
    (hhit : ∀ x, va ≤ x → x < va + n → m' (physAddr m root x) = src (x - va))
    (hmiss : ∀ x < npages sz * PGSIZE, x < va ∨ va + n ≤ x →
      m' (physAddr m root x) = m (physAddr m root x)) :
    Filled m' root sz guard (Store.fill c va n src) := by
  have hphys : ∀ x, physAddr m' root x = physAddr m root x := fun x => by
    rw [physAddr, physAddr, hsame]
  refine ⟨fun x hx => ?_, fun x hx => ?_, fun v hv => ?_⟩
  · rw [userView, hphys]
    by_cases hin : va ≤ x ∧ x < va + n
    · rw [hhit x hin.1 hin.2, fill_of_mem c src hin.1 hin.2]
    · rw [hmiss x hx (by omega), fill_of_not_mem c src (by omega)]
      exact hf.bytes x hx
  · rw [fill_of_not_mem c src (.inr (hn.trans hx))]
    exact hf.above x hx
  · rw [hsame]
    exact hf.guarded v hv

/-- `uvmalloc` keeps what is there and adds zeroes. -/
theorem Filled.grow {s s' : Mach} {c : Store} {root sz newsz r : Nat} {guard : Option Nat} {xperm : Pte}
    (hf : Filled s.mem root sz guard c) (hperm : IsFlags xperm)
    (hown : Own s root (mapped (ptEntry s.mem root) 0 (npages sz)))
    (hal : UvmAlloc root sz newsz vUSYSCALL (PTE_R ||| PTE_U ||| xperm)
      (mapped (ptEntry s.mem root) 0 (npages sz)) s r s') (hr : r ≠ 0) :
    Filled s'.mem root r guard c := by
  have hN : vUSYSCALL ≤ NVPN := by decide
  rcases hal with ⟨-, rfl, rfl⟩ | ⟨hsz, rfl, hlt, htop, hal, -⟩ | ⟨-, rfl, -⟩
  · exact hf
  · have hmono := npages_mono hsz hlt
    have hflags : IsFlags (PTE_R ||| PTE_U ||| xperm) := IsFlags.or (by decide) hperm
    refine ⟨fun va hva => ?_, fun va hva => hf.above va ?_, fun v hv => ?_⟩
    · rw [← div_lt_npages] at hva
      rcases lt_or_ge (va / PGSIZE) (npages sz) with hold | hnew
      · have hin : PTE2PA (ptEntry s.mem root (va / PGSIZE)) ∈
            (mapped (ptEntry s.mem root) 0 (npages sz)) :=
          mem_mapped.mpr ⟨_, zero_le _, by omega, rfl⟩
        have hent := hal.same (va / PGSIZE) (by omega) (.inl hold)
        rw [← hf.bytes va (div_lt_npages.mp hold), userView, userView, physAddr, hent, ← physAddr]
        refine hal.touches.mem _ ?_
        rw [PGROUNDDOWN_physAddr, mem_add, not_or]
        exact hown.notMem hin
      · obtain ⟨pa, -, hpage, hent, hz⟩ := hal.fresh (va / PGSIZE) hnew (by omega)
        rw [hf.above va (not_lt.mp (div_lt_npages.not.mp (not_lt.mpr hnew))), userView, physAddr, hent,
          PTE2PA_leafPte hpage hflags]
        exact hz _ (mod_lt va (by decide))
    · exact (mul_le_mul_right PGSIZE hmono).trans hva
    · obtain ⟨hlow, hbit⟩ := hf.guarded v hv
      rw [hal.same v (by omega) (.inl hlow)]
      exact ⟨by omega, hbit⟩
  · exact absurd rfl hr

/-! ## Building an address space -/

theorem length_readi_le (ip : List Byte) (off n : Nat) : (readi ip off n).length ≤ n := by
  rw [readi]
  split
  · exact zero_le n
  · dsimp only
    rw [List.length_take, List.length_drop]
    split <;> omega

theorem isFlags_flags2perm (flags : BitVec 32) : IsFlags (flags2perm flags) := by
  rw [flags2perm]
  split <;> split <;> decide

/-- Since `s₀` an address space was built at `root` out of free pages. -/
structure Building (s₀ : Mach) (root sz trapframe usyscall : Nat) (guard : Option Nat) (s : Mach) :
    Prop where
  moves : Moves 0 (spacePages s.mem root sz) s₀ s
  space : Space s.mem s₀.trampoline root sz trapframe usyscall guard

section

variable {s₀ s s' : Mach} {root sz trapframe usyscall : Nat} {guard : Option Nat} {F : Multiset Nat}
  (h : Idle s₀ ({usyscall} + F)) (b : Building s₀ root sz trapframe usyscall guard s)
include h b

theorem Building.idle : Idle s (spacePages s.mem root sz + ({usyscall} + F)) := by
  have := h
  rw [← zero_add ({usyscall} + F)] at this
  exact this.moves (b.moves.frame _)

theorem Building.own : Own s root (mapped (ptEntry s.mem root) 0 (npages sz)) :=
  b.space.own' (b.idle h)

/-- Pages of the user are written. -/
theorem Building.write
    (ht : Touches (mapped (ptEntry s.mem root) 0 (npages sz)) s s')
    (hfree : s'.freelist = s.freelist) (hre : s'.refreed = s.refreed) :
    Building s₀ root sz trapframe usyscall guard s' := by
  obtain ⟨hs', hpages⟩ := b.space.write (b.own h) ht
  refine ⟨b.moves.trans ?_, hs'⟩
  rw [hpages]
  exact (ht.mono (subset_of_le (le_add_left _ _))).moves hfree hre

/-- The address space is given up. -/
theorem Building.wp_execBad {P : Option Image → Mach → Prop} :
    wp (execBad root sz) (fun r s' => (r = none ∧ Moves 0 0 s₀ s') ∨ P r s') s :=
  wp_seq (b.space.wp_free (b.idle h)) fun _ _ m => wp_pure (.inl ⟨rfl, b.moves.trans m⟩)

/-- `uvmalloc` grows it. -/
theorem Building.wp_uvmalloc (hk : KERNBASE ≤ s₀.kend) (newsz : Nat)
    (hperm : IsFlags xperm) :
    wp (uvmalloc root sz newsz xperm) (fun r s' =>
      Building s₀ root (sizeAfter sz r) trapframe usyscall guard s' ∧
      (r ≠ 0 → sz ≤ r ∧ newsz ≤ r ∧ (sz ≤ newsz → r = newsz)) ∧
      ∀ c, Filled s.mem root sz guard c → r ≠ 0 → Filled s'.mem root r guard c) s := by
  have hk' : KERNBASE ≤ s.kend := by
    rw [b.moves.touches.kend]
    exact hk
  refine wp_mono (b.space.wp_uvmalloc (b.idle h) hk' hperm) fun r s' hal => ?_
  obtain ⟨m, hs, hr, -⟩ := b.space.grow hal
  exact ⟨⟨b.moves.trans m, hs⟩, hr, fun c hf => hf.grow hperm (b.own h) hal⟩

/-- A user page can be accessed, unless it is the guard page. -/
theorem Building.accessible (hk : KERNBASE ≤ s₀.kend) (hva : va / PGSIZE < npages sz)
    (hg : guard ≠ some (va / PGSIZE)) :
    AccessibleAt s.mem root va ∧
      PTE2PA (ptEntry s.mem root (va / PGSIZE)) ∈ mapped (ptEntry s.mem root) 0 (npages sz) := by
  obtain ⟨h1, h2, h3, h4⟩ := vUSYSCALL_lt
  obtain ⟨hnp, -⟩ := b.space.npages_lt
  have hin : PTE2PA (ptEntry s.mem root (va / PGSIZE)) ∈
      mapped (ptEntry s.mem root) 0 (npages sz) :=
    mem_mapped.mpr ⟨_, zero_le _, by omega, rfl⟩
  refine ⟨⟨?_, ?_, ?_, fun hz => ?_⟩, hin⟩
  · unfold PGSIZE MAXVA at *
    omega
  · rw [Ne, and_V_eq_zero, (b.space.layout.user _ hva).1]
    decide
  · rw [Ne, and_U_eq_zero, b.space.user _ hva hg]
    decide
  · have hpage := (b.own h).isPage (mem_coe.mpr hin)
    have hle := hpage.2.1
    rw [hz, b.moves.touches.kend] at hle
    unfold KERNBASE at hk
    omega

/-- Different addresses of user memory are different bytes. -/
theorem Building.physAddr_inj (hva : va < npages sz * PGSIZE)
    (hva' : va' < npages sz * PGSIZE) (heq : physAddr s.mem root va = physAddr s.mem root va') :
    va = va' := by
  have hnd : (mapped (ptEntry s.mem root) 0 (npages sz)).Nodup :=
    coe_nodup.mp (nodup_of_le (le_add_left _ _) (b.own h).nodup)
  have hpage : PTE2PA (ptEntry s.mem root (va / PGSIZE)) = PTE2PA (ptEntry s.mem root (va' / PGSIZE)) := by
    rw [← PGROUNDDOWN_physAddr, heq, PGROUNDDOWN_physAddr]
  have hdiv := mapped_inj hnd (div_lt_npages.mpr hva) (div_lt_npages.mpr hva') hpage
  rw [physAddr, physAddr, hdiv] at heq
  rw [← div_add_mod va PGSIZE, ← div_add_mod va' PGSIZE, hdiv, add_left_cancel heq]

/-- Bytes are put into a page of the user, through its physical address. -/
theorem Building.wp_memput (src : Nat → Byte) (hva : PGSIZE ∣ va) (hn : n ≤ PGSIZE)
    (hlt : va < npages sz * PGSIZE) :
    wp (memput (PTE2PA (ptEntry s.mem root (va / PGSIZE))) src n) (fun _ s' =>
      Building s₀ root sz trapframe usyscall guard s' ∧
      ∀ c, Filled s.mem root sz guard c → Filled s'.mem root sz guard (Store.fill c va n src)) s := by
  have hdiv := div_lt_npages.mpr hlt
  set pa := PTE2PA (ptEntry s.mem root (va / PGSIZE)) with hpa
  have hin : pa ∈ (mapped (ptEntry s.mem root) 0 (npages sz)) :=
    mem_mapped.mpr ⟨_, zero_le _, by omega, rfl⟩
  have ht : Touches {pa} s { s with mem := Store.fill s.mem pa n src } :=
    ⟨rfl, rfl, eqOff_fill s.mem src (PTE2PA_dvd _) le_rfl (Nat.add_le_add_left hn pa)⟩
  have hend : va + n ≤ npages sz * PGSIZE := by
    have := mul_le_mul_right PGSIZE (succ_le_of_lt hdiv)
    rw [Nat.succ_mul, Nat.div_mul_cancel hva] at this
    omega
  -- the bytes of the page, by their addresses
  have hphys : ∀ x, va ≤ x → x < va + n → physAddr s.mem root x = pa + (x - va) := by
    intro x h1 h2
    obtain ⟨q, rfl⟩ := hva
    have hx : x / PGSIZE = PGSIZE * q / PGSIZE ∧ x % PGSIZE = x - PGSIZE * q := by
      unfold PGSIZE at *
      omega
    rw [physAddr, hx.1, hx.2]
  refine wp_modify ⟨b.write h (ht.mono (singleton_subset.mpr hin)) rfl rfl, fun c hf => ?_⟩
  refine hf.fill hend (fun w => ((b.own h).write hin ht rfl rfl).2 w) (fun x h1 h2 => ?_)
    fun x hx hout => ?_
  · rw [hphys x h1 h2]
    exact (fill_of_mem _ _ (Nat.le_add_right _ _) (by omega)).trans (by rw [Nat.add_sub_cancel_left])
  · refine fill_of_not_mem s.mem src ?_
    by_contra hno
    have hy := hphys (va + (physAddr s.mem root x - pa)) (by omega) (by omega)
    have := b.physAddr_inj h hx (by omega) (hy.trans (by omega)).symm
    omega

/-- `copyout` below the size writes user pages only. -/
theorem Building.wp_copyout (src : Nat → Byte) (hle : dst + len ≤ sz) :
    wp (copyout root dst src len) (fun r s' =>
      Building s₀ root sz trapframe usyscall guard s' ∧ (∀ c, Filled s.mem root sz guard c →
        ¬r < 0 → Filled s'.mem root sz guard (Store.fill c dst len src))) s := by
  have hidle := b.idle h
  rw [← add_assoc] at hidle
  have hsz := le_npages b.space.npages_lt.2
  refine wp_mono (b.space.apart hidle).wp_copyout fun r s' hc => ⟨b.write h ?_ ?_ ?_, fun c hf hr => ?_⟩
  · refine hc.touches fun va _ hlt ha => mem_mapped.mpr ⟨_, zero_le _, ?_, rfl⟩
    rw [zero_add]
    exact div_lt_npages.mpr ((hlt.trans_le hle).trans_le hsz)
  · rw [hc.state]
  · rw [hc.state]
  · obtain ⟨-, hall⟩ := hc.ret.resolve_right fun hno => hr (hno.1 ▸ by decide)
    refine hf.fill (hle.trans hsz) ((b.space.apart hidle).copied_entry hc) (fun x h1 h2 => ?_)
      fun x hx hout => hc.miss _ fun y hy hreach heq => ?_
    · exact hc.hit x h2 (reached_of_accessible h1 fun y hy hy' => hall y hy (by omega))
    · obtain rfl := b.physAddr_inj h ((hy.trans_le hle).trans_le hsz) hx heq
      have := hreach.1
      omega

end

end Xv6
