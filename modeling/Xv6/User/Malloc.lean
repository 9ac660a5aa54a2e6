/-
# Xv6.User.Malloc — the heap of a user program (`user/umalloc.c`).

Free blocks form a circular list in the order of their addresses, which starts at the static header `base`
below the heap.  `malloc` goes around the list from where it stopped last time and takes the tail of the
first block that is large enough; `free` looks for the place of a block and joins it with its neighbours.

A header is two words in memory, so a program that writes to its blocks writes next to the headers.  The
loops get more fuel than there can be headers in memory.
-/
import Xv6.Riscv
import Xv6.Lib.Bytes
import Xv6.Lib.Prog

namespace Xv6

open Lib Lib.Store Lib.Prog

/-- The memory of a user program, as `umalloc.c` sees it.  `base` is the address of the static header;
`fails` says which of the coming `sbrk` calls fail although there is memory. -/
structure Heap where
  mem : Store
  base : Nat
  freep : Nat
  brk : Nat
  fails : List Bool

/-- `sizeof(Header)`. -/
def HEADER : Nat := 16

/-- The size that the memory of a process can have: all of it is in RAM. -/
def USERMAX : Nat := PHYSTOP - KERNBASE

/-- More than there are headers in memory. -/
def maxHeaders : Nat := USERMAX / HEADER + 2

/-! ## Headers -/

/-- `p->s.ptr`. -/
def Heap.ptr (h : Heap) (p : Nat) : Nat := (load 8 h.mem p).toNat

/-- `p->s.size`. -/
def Heap.size (h : Heap) (p : Nat) : Nat := (load 4 h.mem (p + 8)).toNat

/-- `h` with `p->s.ptr = q`. -/
def Heap.withPtr (h : Heap) (p q : Nat) : Heap :=
  { h with mem := store 8 h.mem p (BitVec.ofNat 64 q) }

/-- `h` with `p->s.size = n`. -/
def Heap.withSize (h : Heap) (p n : Nat) : Heap :=
  { h with mem := store 4 h.mem (p + 8) (BitVec.ofNat 32 n) }

def setPtr (p q : Nat) : Prog Heap Unit := modify fun h => h.withPtr p q

def setSize (p n : Nat) : Prog Heap Unit := modify fun h => h.withSize p n

def setFreep (p : Nat) : Prog Heap Unit := modify fun h => { h with freep := p }

/-! ## `free` -/

/-- The loop of `free`: the block after which `bp` belongs. -/
def freeLoop (bp : Nat) : Nat → Nat → Prog Heap Nat
  | 0, _ => stop "free: no end"
  | fuel + 1, p => do
    let h ← get
    if bp > p ∧ bp < h.ptr p then
      pure p
    else if p ≥ h.ptr p ∧ (bp > p ∨ bp < h.ptr p) then
      pure p
    else
      freeLoop bp fuel (h.ptr p)

/-- Join `bp` with the block after `p`, if they touch. -/
def joinUpper (bp p : Nat) : Prog Heap Unit := do
  let h ← get
  if bp + HEADER * h.size bp = h.ptr p then
    setSize bp (h.size bp + h.size (h.ptr p))
    let h ← get
    setPtr bp (h.ptr (h.ptr p))
  else
    setPtr bp (h.ptr p)

/-- Join `bp` with the block `p`, if they touch. -/
def joinLower (bp p : Nat) : Prog Heap Unit := do
  let h ← get
  if p + HEADER * h.size p = bp then
    setSize p (h.size p + h.size bp)
    let h ← get
    setPtr p (h.ptr bp)
  else
    setPtr p bp

def free (ap : Nat) : Prog Heap Unit := do
  let bp := ap - HEADER
  let p ← freeLoop bp maxHeaders (← get).freep
  joinUpper bp p
  joinLower bp p
  setFreep p

/-! ## `malloc` -/

/-- `sbrk`, for a program that is alone with its memory: the old end, or `(char*)-1`.  Only a request
for more can fail; one that would leave less than nothing is ignored. -/
def sbrk (n : BitVec 32) : Prog Heap Nat := fun h =>
  let brk := h.brk + n.toInt
  if 0 < n.toInt ∧ (h.fails.headD false ∨ brk > USERMAX) then
    .ok (2 ^ 64 - 1, { h with fails := h.fails.tail })
  else
    .ok (h.brk, { h with brk := if brk < 0 then h.brk else brk.toNat, fails := h.fails.tail })

def morecore (nu : Nat) : Prog Heap Nat := do
  let nu := if nu < 4096 then 4096 else nu
  let p ← sbrk (BitVec.ofNat 32 (nu * HEADER))
  if p = 2 ^ 64 - 1 then
    pure 0
  else
    setSize p nu
    free (p + HEADER)
    pure (← get).freep

/-- Take `nunits` from the block `p`, which comes after `prevp`. -/
def takeBlock (nunits prevp p : Nat) : Prog Heap Nat := do
  let h ← get
  if h.size p = nunits then
    setPtr prevp (h.ptr p)
    setFreep prevp
    pure (p + HEADER)
  else
    setSize p (h.size p - nunits)
    let h ← get
    let p := p + HEADER * h.size p
    setSize p nunits
    setFreep prevp
    pure (p + HEADER)

/-- The loop of `malloc`. -/
def mallocLoop (nunits : Nat) : Nat → Nat → Nat → Prog Heap Nat
  | 0, _, _ => stop "malloc: no end"
  | fuel + 1, prevp, p => do
    let h ← get
    if h.size p ≥ nunits then
      takeBlock nunits prevp p
    else if p = h.freep then
      let p ← morecore nunits
      if p = 0 then
        pure 0
      else
        mallocLoop nunits fuel p ((← get).ptr p)
    else
      mallocLoop nunits fuel p (h.ptr p)

def malloc (nbytes : Nat) : Prog Heap Nat := do
  let nunits := ((nbytes + HEADER - 1) / HEADER + 1) % 2 ^ 32
  let h ← get
  if h.freep = 0 then
    setFreep h.base
    setPtr h.base h.base
    setSize h.base 0
  let prevp := (← get).freep
  mallocLoop nunits (2 * maxHeaders) prevp ((← get).ptr prevp)

/-! ## Headers that are written -/

variable {h : Heap} {p q r n : Nat}

/-- The headers at `p` and `q` are the same or do not overlap. -/
def HeadersApart (p q : Nat) : Prop := p = q ∨ p + HEADER ≤ q ∨ q + HEADER ≤ p

theorem ptr_withPtr (ha : HeadersApart p r) (hq : q < 2 ^ 64) :
    (h.withPtr p q).ptr r = if p = r then q else h.ptr r := by
  rw [HeadersApart, HEADER] at ha
  rw [Heap.ptr, Heap.withPtr]
  split
  · subst r
    rw [load_store, BitVec.toNat_ofNat, Nat.mod_eq_of_lt hq]
  · rw [load_store_of_disjoint _ _ (by omega)]
    rfl

theorem size_withPtr (ha : HeadersApart p r) : (h.withPtr p q).size r = h.size r := by
  rw [HeadersApart, HEADER] at ha
  rw [Heap.size, Heap.withPtr, load_store_of_disjoint _ _ (by omega)]
  rfl

theorem ptr_withSize (ha : HeadersApart p r) : (h.withSize p n).ptr r = h.ptr r := by
  rw [HeadersApart, HEADER] at ha
  rw [Heap.ptr, Heap.withSize, load_store_of_disjoint _ _ (by omega)]
  rfl

theorem size_withSize (ha : HeadersApart p r) (hn : n < 2 ^ 32) :
    (h.withSize p n).size r = if p = r then n else h.size r := by
  rw [HeadersApart, HEADER] at ha
  rw [Heap.size, Heap.withSize]
  split
  · subst r
    rw [load_store, BitVec.toNat_ofNat, Nat.mod_eq_of_lt hn]
  · rw [load_store_of_disjoint _ _ (by omega)]
    rfl

end Xv6
