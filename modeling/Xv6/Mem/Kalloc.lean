/-
# Xv6.Mem.Kalloc — physical memory and its allocator (`kernel/kalloc.c`).

Physical memory is a byte-addressed store; the kernel sees it through its direct map, so a kernel
pointer is a physical address.  The free list is the list of the pages on it, head first.

Two fields are not in the C.  `fails` says which of the coming `kalloc` calls return 0 although a
page is free: a statement about every `fails` covers every pattern of allocation failures.
`refreed` records whether `kfree` was ever called on a page that was already on the free list; no
function reads it.
-/
import Xv6.Lib.Bytes
import Xv6.Lib.Prog
import Xv6.Riscv
import Mathlib.Data.Multiset.AddSub
import Mathlib.Tactic.ByContra

namespace Xv6

open Lib Lib.Store Lib.Prog

variable {A : Multiset Nat} {p : Nat} {s : Mach}

/-- Physical memory with its allocator. -/
structure Mach where
  /-- first address after the kernel, the linker's `end` -/
  kend : Nat
  /-- physical address of the trampoline page, the linker's `trampoline` -/
  trampoline : Nat
  mem : Store
  freelist : List Nat
  fails : List Bool
  refreed : Bool

/-- `panic(s)`. -/
def kpanic {σ α : Type} (msg : String) : Prog σ α := stop msg

/-! ## `kernel/string.c` -/

/-- Fill `n` bytes from `dst` with `c`. -/
def memset (dst : Nat) (c : Byte) (n : Nat) : Prog Mach Unit :=
  modify fun s => { s with mem := fill s.mem dst n fun _ => c }

/-- Copy `n` bytes from `src` to `dst`. -/
def memmove (dst src n : Nat) : Prog Mach Unit :=
  modify fun s => { s with mem := fill s.mem dst n fun i => s.mem (src + i) }

/-- Copy `n` bytes that are not in a page of the allocator (the stack or the data of the kernel). -/
def memput (dst : Nat) (src : Nat → Byte) (n : Nat) : Prog Mach Unit :=
  modify fun s => { s with mem := fill s.mem dst n src }

/-! ## The allocator -/

/-- Free the page of physical memory at `pa`. -/
def kfree (pa : Nat) : Prog Mach Unit := fun s =>
  if pa % PGSIZE ≠ 0 ∨ pa < s.kend ∨ pa ≥ PHYSTOP then
    kpanic "kfree" s
  else
    -- fill with junk to catch dangling refs, then store the link in the page itself
    let mem := fill s.mem pa PGSIZE fun _ => 1
    .ok ((), { s with
      mem := store 8 mem pa (BitVec.ofNat 64 (s.freelist.headD 0))
      freelist := pa :: s.freelist
      refreed := s.refreed || s.freelist.contains pa })

/-- Allocate one page of physical memory; `none` if there is none. -/
def kalloc : Prog Mach (Option Nat) := fun s =>
  match s.fails.headD false, s.freelist with
  | false, r :: rest =>
    .ok (some r, { s with
      fails := s.fails.tail
      freelist := rest
      mem := fill s.mem r PGSIZE fun _ => 5 })
  | _, _ => .ok (none, { s with fails := s.fails.tail })

/-- Free `n` pages upwards from `p`. -/
def freerangeLoop : Nat → Nat → Prog Mach Unit
  | 0, _ => pure ()
  | n + 1, p => do
    kfree p
    freerangeLoop n (p + PGSIZE)

/-- Free every whole page between two addresses. -/
def freerange (paStart paEnd : Nat) : Prog Mach Unit :=
  freerangeLoop ((paEnd - PGROUNDUP paStart) / PGSIZE) (PGROUNDUP paStart)

/-- Hand all memory after the kernel to the allocator. -/
def kinit : Prog Mach Unit := do
  freerange (← get).kend PHYSTOP

/-! ## What a function may write -/

/-- The stores agree outside the pages of `A`. -/
def EqOff (A : Multiset Nat) (m m' : Store) : Prop :=
  ∀ x, PGROUNDDOWN x ∉ A → m' x = m x

theorem EqOff.refl (A : Multiset Nat) (m : Store) : EqOff A m m := fun _ _ => rfl

theorem EqOff.trans (h : EqOff A m₁ m₂) (h' : EqOff A m₂ m₃) : EqOff A m₁ m₃ :=
  fun x hx => (h' x hx).trans (h x hx)

theorem EqOff.mono (h : EqOff A m m') (hAB : A ⊆ B) :
    EqOff B m m' :=
  fun x hx => h x fun hA => hx (hAB hA)

theorem PGROUNDDOWN_of_mem (hp : PGSIZE ∣ p) (h₁ : p ≤ x) (h₂ : x < p + PGSIZE) :
    PGROUNDDOWN x = p := by
  obtain ⟨q, rfl⟩ := hp
  unfold PGROUNDDOWN PGSIZE at *
  omega

theorem eqOff_fill (m : Store) (f : Nat → Byte) (hp : PGSIZE ∣ p) (h₁ : p ≤ a)
    (h₂ : a + n ≤ p + PGSIZE) : EqOff {p} m (fill m a n f) := by
  intro x hx
  refine fill_of_not_mem m f ?_
  by_contra hin
  exact hx (Multiset.mem_singleton.mpr (PGROUNDDOWN_of_mem hp (by omega) (by omega)))

theorem eqOff_store (m : Store) (v : BitVec (8 * k)) (hp : PGSIZE ∣ p) (h₁ : p ≤ a)
    (h₂ : a + k ≤ p + PGSIZE) : EqOff {p} m (store k m a v) := by
  intro x hx
  refine store_of_not_mem m v ?_
  by_contra hin
  exact hx (Multiset.mem_singleton.mpr (PGROUNDDOWN_of_mem hp (by omega) (by omega)))

/-- From `s` to `s'` only pages of `A` were written, and the kernel image is the same. -/
structure Touches (A : Multiset Nat) (s s' : Mach) : Prop where
  kend : s'.kend = s.kend
  trampoline : s'.trampoline = s.trampoline
  mem : EqOff A s.mem s'.mem

theorem Touches.refl (A : Multiset Nat) (s : Mach) : Touches A s s :=
  ⟨rfl, rfl, EqOff.refl A s.mem⟩

theorem Touches.trans (h : Touches A s₁ s₂) (h' : Touches A s₂ s₃) :
    Touches A s₁ s₃ :=
  ⟨h'.kend.trans h.kend, h'.trampoline.trans h.trampoline, h.mem.trans h'.mem⟩

theorem Touches.mono (h : Touches A s s') (hAB : A ⊆ B) :
    Touches B s s' :=
  ⟨h.kend, h.trampoline, h.mem.mono hAB⟩

/-! ## What the allocator does -/

/-- The pages `kfree` accepts. -/
def Mach.IsPage (s : Mach) (p : Nat) : Prop :=
  PGSIZE ∣ p ∧ s.kend ≤ p ∧ p < PHYSTOP

theorem Touches.isPage (h : Touches A s s') : s'.IsPage p ↔ s.IsPage p := by
  rw [Mach.IsPage, Mach.IsPage, h.kend]

/-- **`kalloc`** fails and changes no page, or takes the head of the free list. -/
theorem kalloc_spec (s : Mach) :
    wp kalloc (fun r s' => s'.kend = s.kend ∧ s'.trampoline = s.trampoline ∧
      s'.refreed = s.refreed ∧
      ((r = none ∧ s'.freelist = s.freelist ∧ s'.mem = s.mem) ∨
        ∃ p, r = some p ∧ s.freelist = p :: s'.freelist ∧
          s'.mem = fill s.mem p PGSIZE fun _ => 5)) s := by
  cases hf : s.fails.headD false with
  | true =>
    refine ⟨none, { s with fails := s.fails.tail }, ?_, ?_⟩
    · simp only [kalloc, hf]
    · exact ⟨rfl, rfl, rfl, .inl ⟨rfl, rfl, rfl⟩⟩
  | false =>
    cases hl : s.freelist with
    | nil =>
      refine ⟨none, { s with fails := s.fails.tail }, ?_, ?_⟩
      · simp only [kalloc, hf, hl]
      · exact ⟨rfl, rfl, rfl, .inl ⟨rfl, hl, rfl⟩⟩
    | cons p rest =>
      refine ⟨some p, { s with fails := s.fails.tail, freelist := rest,
                               mem := fill s.mem p PGSIZE fun _ => 5 }, ?_, ?_⟩
      · simp only [kalloc, hf, hl]
      · exact ⟨rfl, rfl, rfl, .inr ⟨p, rfl, rfl, rfl⟩⟩

/-- **`kfree`** puts a page of the allocator's range on the free list, and writes to it only. -/
theorem kfree_spec (hp : s.IsPage p) :
    wp (kfree p) (fun _ s' => s'.freelist = p :: s.freelist ∧ Touches {p} s s' ∧
      s'.refreed = (s.refreed || s.freelist.contains p)) s := by
  obtain ⟨hdvd, hlo, hhi⟩ := hp
  refine ⟨(), _, if_neg ?_, rfl, ⟨rfl, rfl, ?_⟩, rfl⟩
  · have := Nat.mod_eq_zero_of_dvd hdvd
    omega
  · refine (eqOff_fill s.mem (fun _ => 1) hdvd le_rfl le_rfl).trans ?_
    exact eqOff_store (k := 8) _ _ hdvd le_rfl (by unfold PGSIZE; omega)

end Xv6
