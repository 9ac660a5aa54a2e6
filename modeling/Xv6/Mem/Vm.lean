/-
# Xv6.Mem.Vm — user page tables (`kernel/vm.c`).

The functions of `kernel/vm.c` on physical memory.  A page table is named by the physical address of
its root page, and `walk` returns the address of an entry, so aliasing between page tables, data
pages and the free list is as possible here as it is in the kernel; that it does not happen is
proved, not built in.

A C loop is a recursion on the number of its iterations.  Where that number is not in the source a
comment says why it is enough.
-/
import Xv6.Mem.Kalloc

namespace Xv6

open Lib Lib.Store Lib.Prog

/-! ## Entries -/

/-- `*pte`. -/
def readPte (pte : Nat) : Prog Mach Pte := fun s => .ok (load 8 s.mem pte, s)

/-- `*pte = e`. -/
def writePte (pte : Nat) (e : Pte) : Prog Mach Unit :=
  modify fun s => { s with mem := store 8 s.mem pte e }

/-! ## Walking -/

/-- `walk`'s loop, from `level` down. -/
def walkFrom : (level : Nat) → (pagetable va : Nat) → (alloc : Bool) → Prog Mach (Option Nat)
  | 0, pagetable, va, _ => pure (some (pagetable + 8 * PX 0 va))
  | level + 1, pagetable, va, alloc => do
    let pte := pagetable + 8 * PX (level + 1) va
    let e ← readPte pte
    if e &&& PTE_V ≠ 0 then
      walkFrom level (PTE2PA e) va alloc
    else if alloc = false then
      pure none
    else
      match ← kalloc with
      | none => pure none
      | some page =>
        memset page 0 PGSIZE
        writePte pte (PA2PTE page ||| PTE_V)
        walkFrom level page va alloc

/-- The address of the PTE for `va`; with `alloc`, create any required page-table pages. -/
def walk (pagetable va : Nat) (alloc : Bool) : Prog Mach (Option Nat) :=
  if va ≥ MAXVA then
    kpanic "walk"
  else
    walkFrom 2 pagetable va alloc

/-- The physical address of the user page at `va`, or 0 if not mapped. -/
def walkaddr (pagetable va : Nat) : Prog Mach Nat :=
  if va ≥ MAXVA then
    pure 0
  else do
    match ← walk pagetable va false with
    | none => pure 0
    | some pte =>
      let e ← readPte pte
      if e &&& PTE_V = 0 then
        pure 0
      else if e &&& PTE_U = 0 then
        pure 0
      else
        pure (PTE2PA e)

/-! ## Mapping -/

/-- `mappages`' loop, with `a`, `last` and `pa` as in the C.  The address grows by a page with every
iteration and `walk` stops at `MAXVA`, which is where the loop ends when it never meets `last`. -/
def mappagesLoop (pagetable last : Nat) (perm : Pte) : Nat → Nat → Nat → Prog Mach Int
  | 0, _, _ => kpanic "walk"
  | fuel + 1, a, pa => do
    match ← walk pagetable a true with
    | none => pure (-1)
    | some pte =>
      let e ← readPte pte
      if e &&& PTE_V ≠ 0 then
        kpanic "mappages: remap"
      else
        writePte pte (PA2PTE pa ||| perm ||| PTE_V)
        if a = last then
          pure 0
        else
          mappagesLoop pagetable last perm fuel (a + PGSIZE) ((pa + PGSIZE) % 2 ^ 64)

/-- Map `size` bytes from `va` to physical addresses from `pa`; -1 if `walk` found no page. -/
def mappages (pagetable va size pa : Nat) (perm : Pte) : Prog Mach Int :=
  if size = 0 then
    kpanic "mappages: size"
  else
    mappagesLoop pagetable (PGROUNDDOWN ((va + size - 1) % 2 ^ 64)) perm (MAXVA / PGSIZE + 1)
      (PGROUNDDOWN va) pa

/-- `uvmunmap`'s loop: `n` pages from `a`. -/
def uvmunmapLoop (pagetable : Nat) (doFree : Bool) : Nat → Nat → Prog Mach Unit
  | 0, _ => pure ()
  | n + 1, a => do
    match ← walk pagetable a false with
    | none => kpanic "uvmunmap: walk"
    | some pte =>
      let e ← readPte pte
      if e &&& PTE_V = 0 then
        kpanic "uvmunmap: not mapped"
      else if PTE_FLAGS e = PTE_V then
        kpanic "uvmunmap: not a leaf"
      else
        (if doFree then kfree (PTE2PA e) else pure ())
        writePte pte 0
        uvmunmapLoop pagetable doFree n (a + PGSIZE)

/-- Remove `npages` mappings from `va`; the loop runs while `a < va + npages*PGSIZE`. -/
def uvmunmap (pagetable va npages : Nat) (doFree : Bool) : Prog Mach Unit :=
  if va % PGSIZE ≠ 0 then
    kpanic "uvmunmap: not aligned"
  else
    uvmunmapLoop pagetable doFree
      (((va + npages * PGSIZE) % 2 ^ 64 - va + PGSIZE - 1) / PGSIZE) va

/-- Mark a PTE invalid for user access. -/
def uvmclear (pagetable va : Nat) : Prog Mach Unit := do
  match ← walk pagetable va false with
  | none => kpanic "uvmclear"
  | some pte =>
    let e ← readPte pte
    writePte pte (e &&& ~~~PTE_U)

/-! ## User memory -/

/-- Create an empty user page table. -/
def uvmcreate : Prog Mach (Option Nat) := do
  match ← kalloc with
  | none => pure none
  | some pagetable =>
    memset pagetable 0 PGSIZE
    pure (some pagetable)

/-- Shrink user memory from `oldsz` to `newsz`; the new size. -/
def uvmdealloc (pagetable oldsz newsz : Nat) : Prog Mach Nat :=
  if newsz ≥ oldsz then
    pure oldsz
  else if PGROUNDUP newsz < PGROUNDUP oldsz then do
    -- `npages` is an `int`, converted back to `uint64` at the call
    let npages := BitVec.ofNat 32 ((PGROUNDUP oldsz - PGROUNDUP newsz) / PGSIZE)
    uvmunmap pagetable (PGROUNDUP newsz) (npages.signExtend 64).toNat true
    pure newsz
  else
    pure newsz

/-- `uvmalloc`'s loop: `n` pages from `a`.  `oldsz` is already rounded up. -/
def uvmallocLoop (pagetable oldsz newsz : Nat) (xperm : Pte) : Nat → Nat → Prog Mach Nat
  | 0, _ => pure newsz
  | n + 1, a => do
    match ← kalloc with
    | none =>
      let _ ← uvmdealloc pagetable a oldsz
      pure 0
    | some mem =>
      memset mem 0 PGSIZE
      if (← mappages pagetable a PGSIZE mem (PTE_R ||| PTE_U ||| xperm)) ≠ 0 then
        kfree mem
        let _ ← uvmdealloc pagetable a oldsz
        pure 0
      else
        uvmallocLoop pagetable oldsz newsz xperm n (a + PGSIZE)

/-- Grow user memory from `oldsz` to `newsz`; the new size, or 0 on error.  The loop runs while
`a < newsz`. -/
def uvmalloc (pagetable oldsz newsz : Nat) (xperm : Pte) : Prog Mach Nat :=
  if newsz < oldsz then
    pure oldsz
  else
    uvmallocLoop pagetable (PGROUNDUP oldsz) newsz xperm
      ((newsz - PGROUNDUP oldsz + PGSIZE - 1) / PGSIZE) (PGROUNDUP oldsz)

/-- `freewalk`'s loop over the entries `i, …, i + n - 1`. -/
def freewalkLoop (freeChild : Nat → Prog Mach Unit) (pagetable : Nat) :
    Nat → Nat → Prog Mach Unit
  | 0, _ => pure ()
  | n + 1, i => do
    let pte ← readPte (pagetable + 8 * i)
    if pte &&& PTE_V ≠ 0 ∧ pte &&& (PTE_R ||| PTE_W ||| PTE_X) = 0 then
      freeChild (PTE2PA pte)
      writePte (pagetable + 8 * i) 0
      freewalkLoop freeChild pagetable n (i + 1)
    else if pte &&& PTE_V ≠ 0 then
      kpanic "freewalk: leaf"
    else
      freewalkLoop freeChild pagetable n (i + 1)

/-- Free page-table pages, recursively.  A table has three levels, so the recursion is at most three
deep. -/
def freewalk : (depth : Nat) → (pagetable : Nat) → Prog Mach Unit
  | 0, _ => kpanic "freewalk: depth"
  | depth + 1, pagetable => do
    freewalkLoop (freewalk depth) pagetable 512 0
    kfree pagetable

/-- Free user memory pages, then free page-table pages. -/
def uvmfree (pagetable sz : Nat) : Prog Mach Unit := do
  (if sz > 0 then uvmunmap pagetable 0 (PGROUNDUP sz / PGSIZE) true else pure ())
  freewalk 3 pagetable

/-- `uvmcopy`'s loop: `n` pages from `i`. -/
def uvmcopyLoop (old new : Nat) : Nat → Nat → Prog Mach Int
  | 0, _ => pure 0
  | n + 1, i => do
    match ← walk old i false with
    | none => kpanic "uvmcopy: pte should exist"
    | some pte =>
      let e ← readPte pte
      if e &&& PTE_V = 0 then
        kpanic "uvmcopy: page not present"
      else
        match ← kalloc with
        | none =>
          uvmunmap new 0 (i / PGSIZE) true
          pure (-1)
        | some mem =>
          memmove mem (PTE2PA e) PGSIZE
          if (← mappages new i PGSIZE mem (PTE_FLAGS e)) ≠ 0 then
            kfree mem
            uvmunmap new 0 (i / PGSIZE) true
            pure (-1)
          else
            uvmcopyLoop old new n (i + PGSIZE)

/-- Copy a parent's memory into a child's page table; the loop runs while `i < sz`. -/
def uvmcopy (old new sz : Nat) : Prog Mach Int :=
  uvmcopyLoop old new ((sz + PGSIZE - 1) / PGSIZE) 0

/-- Load the first process's code into address 0. -/
def uvmfirst (pagetable : Nat) (src : List Byte) : Prog Mach Unit :=
  if src.length ≥ PGSIZE then
    kpanic "uvmfirst: more than a page"
  else do
    match ← kalloc with
    | none => kpanic "kerneltrap"  -- `memset` writes to address 0, which is not mapped
    | some mem =>
      memset mem 0 PGSIZE
      -- the result is not looked at
      let _ ← mappages pagetable 0 PGSIZE mem (PTE_W ||| PTE_R ||| PTE_X ||| PTE_U)
      memput mem (fun i => src.getD i 0) src.length

/-! ## Copying between kernel and user -/

/-- `copyout`'s loop; the bytes still to copy are `src off, …`.  Every iteration copies a byte at
least, so `len` iterations are enough. -/
def copyoutLoop (pagetable : Nat) (src : Nat → Byte) : Nat → Nat → Nat → Nat → Prog Mach Int
  | 0, _, _, _ => pure 0
  | fuel + 1, dstva, off, len =>
    if len = 0 then
      pure 0
    else do
      let va0 := PGROUNDDOWN dstva
      let pa0 ← walkaddr pagetable va0
      if pa0 = 0 then
        pure (-1)
      else
        let n := min (PGSIZE - (dstva - va0)) len
        memput (pa0 + (dstva - va0)) (fun i => src (off + i)) n
        copyoutLoop pagetable src fuel ((va0 + PGSIZE) % 2 ^ 64) (off + n) (len - n)

/-- Copy `len` bytes from `src` to virtual address `dstva`. -/
def copyout (pagetable dstva : Nat) (src : Nat → Byte) (len : Nat) : Prog Mach Int :=
  copyoutLoop pagetable src len dstva 0 len

/-- `copyin`'s loop; the result is the return value and the bytes stored at `dst`. -/
def copyinLoop (pagetable : Nat) : Nat → Nat → Nat → List Byte → Prog Mach (Int × List Byte)
  | 0, _, _, dst => pure (0, dst)
  | fuel + 1, srcva, len, dst =>
    if len = 0 then
      pure (0, dst)
    else do
      let va0 := PGROUNDDOWN srcva
      let pa0 ← walkaddr pagetable va0
      if pa0 = 0 then
        pure (-1, dst)
      else
        let n := min (PGSIZE - (srcva - va0)) len
        let mem := (← get).mem
        copyinLoop pagetable fuel ((va0 + PGSIZE) % 2 ^ 64) (len - n)
          (dst ++ (List.range n).map fun i => mem (pa0 + (srcva - va0) + i))

/-- Copy `len` bytes from virtual address `srcva`. -/
def copyin (pagetable srcva len : Nat) : Prog Mach (Int × List Byte) :=
  copyinLoop pagetable len srcva len []

/-- The bytes from `p` up to and with the first NUL, at most `n`, and whether there was one. -/
def scanstr (mem : Store) : Nat → Nat → List Byte × Bool
  | 0, _ => ([], false)
  | n + 1, p =>
    if mem p = 0 then
      ([0], true)
    else
      let r := scanstr mem n (p + 1)
      (mem p :: r.1, r.2)

/-- `copyinstr`'s loop. -/
def copyinstrLoop (pagetable : Nat) : Nat → Nat → Nat → List Byte → Prog Mach (Int × List Byte)
  | 0, _, _, dst => pure (-1, dst)
  | fuel + 1, srcva, max, dst =>
    if max = 0 then
      pure (-1, dst)
    else do
      let va0 := PGROUNDDOWN srcva
      let pa0 ← walkaddr pagetable va0
      if pa0 = 0 then
        pure (-1, dst)
      else
        let n := min (PGSIZE - (srcva - va0)) max
        let r := scanstr (← get).mem n (pa0 + (srcva - va0))
        if r.2 then
          pure (0, dst ++ r.1)
        else
          copyinstrLoop pagetable fuel ((va0 + PGSIZE) % 2 ^ 64) (max - n) (dst ++ r.1)

/-- Copy a null-terminated string of at most `max` bytes from virtual address `srcva`. -/
def copyinstr (pagetable srcva max : Nat) : Prog Mach (Int × List Byte) :=
  copyinstrLoop pagetable max srcva max []

end Xv6
