/-
# Xv6.Proc.Pagetable — the page table of a process (`proc_pagetable`, `proc_freepagetable`).

A user address space is the pages below the process size and three pages at the top: the trampoline,
the trapframe and the page shared with the kernel.  `Layout` says that of an entry function.  The two
functions of `kernel/proc.c` that build and take apart such a table are specified against it, every
way out of the building included.
-/
import Xv6.Mem.Build

namespace Xv6

open Lib Lib.Store Lib.Prog

/-! ## `kernel/proc.c` -/

/-- Create a user page table with no user memory, but with trampoline, trapframe and usyscall
pages. -/
def procPagetable (trapframe usyscall : Nat) : Prog Mach (Option Nat) := do
  match ← uvmcreate with
  | none => pure none
  | some pagetable =>
    let trampoline := (← get).trampoline
    if (← mappages pagetable TRAMPOLINE PGSIZE trampoline (PTE_R ||| PTE_X)) < 0 then
      uvmfree pagetable 0
      pure none
    else if (← mappages pagetable TRAPFRAME PGSIZE trapframe (PTE_R ||| PTE_W)) < 0 then
      uvmunmap pagetable TRAMPOLINE 1 false
      uvmfree pagetable 0
      pure none
    else if (← mappages pagetable USYSCALL PGSIZE usyscall (PTE_R ||| PTE_U)) < 0 then
      uvmunmap pagetable TRAMPOLINE 1 false
      uvmunmap pagetable TRAPFRAME 1 false
      uvmfree pagetable 0
      pure none
    else
      pure (some pagetable)

/-- Free a process's page table, and free the physical memory it refers to. -/
def procFreepagetable (pagetable sz : Nat) : Prog Mach Unit := do
  uvmunmap pagetable TRAMPOLINE 1 false
  uvmunmap pagetable TRAPFRAME 1 false
  uvmunmap pagetable USYSCALL 1 false
  uvmfree pagetable sz

/-! ## The layout -/

/-- The page numbers of the three pages at the top. -/
def vTRAMPOLINE : Nat := TRAMPOLINE / PGSIZE
@[inherit_doc vTRAMPOLINE] def vTRAPFRAME : Nat := TRAPFRAME / PGSIZE
@[inherit_doc vTRAMPOLINE] def vUSYSCALL : Nat := USYSCALL / PGSIZE

/-- The entry maps the page `pa` with exactly the permissions `perm`; the bits that the hardware
sets are not looked at. -/
structure MapsTo (e : Pte) (pa : Nat) (perm : Pte) : Prop where
  page : PTE2PA e = pa
  perm : e &&& 0x1F#64 = perm ||| PTE_V

/-- A user address space: `np` readable pages from 0 on, the three pages at the top, nothing else. -/
structure Layout (f : Nat → Pte) (np trampoline trapframe usyscall : Nat) : Prop where
  bound : np ≤ vUSYSCALL
  user : ∀ v < np, (f v).getLsbD 0 = true ∧ (f v).getLsbD 1 = true
  none : ∀ v < NVPN, np ≤ v → v ≠ vUSYSCALL → v ≠ vTRAPFRAME → v ≠ vTRAMPOLINE → f v = 0
  trampoline : MapsTo (f vTRAMPOLINE) trampoline (PTE_R ||| PTE_X)
  trapframe : MapsTo (f vTRAPFRAME) trapframe (PTE_R ||| PTE_W)
  usyscall : MapsTo (f vUSYSCALL) usyscall (PTE_R ||| PTE_U)

theorem vUSYSCALL_lt : vUSYSCALL < vTRAPFRAME ∧ vTRAPFRAME < vTRAMPOLINE ∧
    vTRAMPOLINE + 1 = MAXVA / PGSIZE ∧ MAXVA / PGSIZE < NVPN := by decide

theorem MapsTo.getLsbD {e perm : Pte} {pa i : Nat} (h : MapsTo e pa perm) (hi : i < 5) :
    e.getLsbD i = (perm.getLsbD i || PTE_V.getLsbD i) := by
  have hm : (0x1F#64).getLsbD i = true := by
    interval_cases i <;> rfl
  have := congrArg (fun x : Pte => x.getLsbD i) h.perm
  simpa only [BitVec.getLsbD_and, hm, Bool.and_true, BitVec.getLsbD_or] using this

/-- A page that can be read is a leaf. -/
theorem MapsTo.isLeaf {e perm : Pte} {pa : Nat} (h : MapsTo e pa perm)
    (hR : perm.getLsbD 1 = true) : IsLeaf e := by
  refine isLeaf_of_getLsbD (i := 1) ?_ (by omega) (by omega) ?_
  · rw [h.getLsbD (by omega)]
    simp [PTE_V]
  · rw [h.getLsbD (by omega), hR]
    rfl

theorem mapsTo_leafPte (hpa : PGSIZE ∣ pa) (hlt : pa < 2 ^ 64)
    (hperm : perm &&& 0x1F#64 = perm) : MapsTo (leafPte pa perm) pa perm := by
  have hflags : IsFlags perm := by
    rw [IsFlags, PTE_FLAGS, ← hperm, BitVec.and_assoc]
    rfl
  constructor
  · rw [leafPte, BitVec.or_assoc, PTE2PA_or hlt (hflags.or (by decide)), PGROUNDDOWN,
      Nat.div_mul_cancel hpa]
  · have hsplit : ∀ x : Pte, x &&& 0x1F#64 = PTE_FLAGS x &&& 0x1F#64 := fun x => by
      rw [PTE_FLAGS, BitVec.and_assoc]
      rfl
    rw [hsplit, leafPte, BitVec.or_assoc, PTE_FLAGS_or pa (hflags.or (by decide))]
    rw [BitVec.and_or_distrib_right, hperm]
    rfl

variable {s₀ s s' : Mach} {root : Nat} {A F : Multiset Nat}

theorem TRAMPOLINE_eq : TRAMPOLINE = vTRAMPOLINE * PGSIZE := by decide
theorem TRAPFRAME_eq : TRAPFRAME = vTRAPFRAME * PGSIZE := by decide
theorem USYSCALL_eq : USYSCALL = vUSYSCALL * PGSIZE := by decide

/-! ## Taking it apart -/

/-- Unmapping one page without freeing it. -/
theorem Own.wp_unmap_one (h : Own s root A) (hv : v < MAXVA / PGSIZE)
    (hleaf : IsLeaf (ptEntry s.mem root v)) :
    wp (uvmunmap root (v * PGSIZE) 1 false) (fun _ s' => Uvm root A A s s' ∧
      ∀ w < NVPN, ptEntry s'.mem root w = if w = v then 0 else ptEntry s.mem root w) s := by
  refine wp_mono (h.wp_unmap_keep (n := 1) (by omega) fun w hw hw' => ?_) ?_
  · rwa [show w = v by omega]
  · rintro ⟨⟩ s' ⟨hu, hen⟩
    refine ⟨hu, fun w hw => ?_⟩
    rw [hen w hw, setRange_succ, setRange_zero]

/-- **`proc_freepagetable`** frees the user pages and the table; the three pages at the top are
only unmapped. -/
theorem Own.wp_procFreepagetable
    (h : Own s root (mapped (ptEntry s.mem root) 0 (npages sz)))
    (hl : Layout (ptEntry s.mem root) (npages sz) trampoline trapframe usyscall) :
    wp (procFreepagetable root sz) (fun _ s' =>
      Gone root (mapped (ptEntry s.mem root) 0 (npages sz)) s s') s := by
  obtain ⟨h1, h2, h3, h4⟩ := vUSYSCALL_lt
  have hb := hl.bound
  rw [procFreepagetable, TRAMPOLINE_eq, TRAPFRAME_eq, USYSCALL_eq]
  refine wp_seq (h.wp_unmap_one (by omega) (hl.trampoline.isLeaf (by decide))) ?_
  rintro ⟨⟩ t1 ⟨hu1, hen1⟩
  refine wp_seq ((h.uvm hu1).wp_unmap_one (v := vTRAPFRAME) (by omega) ?_) ?_
  · rw [hen1 _ (by omega), if_neg (by omega)]
    exact hl.trapframe.isLeaf (by decide)
  rintro ⟨⟩ t2 ⟨hu2, hen2⟩
  have hu2 := hu1.trans hu2
  refine wp_seq ((h.uvm hu2).wp_unmap_one (v := vUSYSCALL) (by omega) ?_) ?_
  · rw [hen2 _ (by omega), if_neg (by omega), hen1 _ (by omega), if_neg (by omega)]
    exact hl.usyscall.isLeaf (by decide)
  rintro ⟨⟩ t3 ⟨hu3, hen3⟩
  have hu3 := hu2.trans hu3
  -- only the user pages are left
  have hen : ∀ w < NVPN, ptEntry t3.mem root w =
      if w = vUSYSCALL ∨ w = vTRAPFRAME ∨ w = vTRAMPOLINE then 0 else ptEntry s.mem root w := by
    intro w hw
    rw [hen3 w hw, hen2 w hw, hen1 w hw]
    by_cases hU : w = vUSYSCALL
    · rw [if_pos hU, if_pos (.inl hU)]
    by_cases hT : w = vTRAPFRAME
    · rw [if_neg hU, if_pos hT, if_pos (.inr (.inl hT))]
    by_cases hP : w = vTRAMPOLINE
    · rw [if_neg hU, if_neg hT, if_pos hP, if_pos (.inr (.inr hP))]
    · rw [if_neg hU, if_neg hT, if_neg hP, if_neg (by tauto)]
  have huser : ∀ w < npages sz, ptEntry t3.mem root w = ptEntry s.mem root w := fun w hw => by
    rw [hen w (by omega), if_neg (by omega)]
  have hmap : mapped (ptEntry t3.mem root) 0 (npages sz) =
      mapped (ptEntry s.mem root) 0 (npages sz) := mapped_congr fun w _ hw => huser w (by omega)
  refine wp_mono (Own.wp_uvmfree sz (s := t3) ?_ (by omega)
    (fun w hw => ?_) fun w hw hge => ?_) ?_
  · rw [hmap]
    exact h.uvm hu3
  · rw [huser w hw]
    obtain ⟨hV, hR⟩ := hl.user w hw
    exact isLeaf_of_getLsbD hV (by omega) (by omega) hR
  · rw [hen w hw]
    split
    · rfl
    next hne => exact hl.none w hw hge (by tauto) (by tauto) (by tauto)
  · rintro ⟨⟩ s' hg
    rw [hmap] at hg
    exact hu3.gone hg

/-! ## Building it -/

/-- The entries of a new table. -/
def topEntries (trampoline trapframe usyscall : Nat) : Nat → Pte := fun w =>
  if w = vUSYSCALL then leafPte usyscall (PTE_R ||| PTE_U)
  else if w = vTRAPFRAME then leafPte trapframe (PTE_R ||| PTE_W)
  else if w = vTRAMPOLINE then leafPte trampoline (PTE_R ||| PTE_X)
  else 0

/-- Giving an empty table back. -/
theorem Built.wp_discard (h : Idle s₀ F) (b : Built root 0 s₀ s)
    (hnone : ∀ w < NVPN, ptEntry s.mem root w = 0) :
    wp (uvmfree root 0) (fun _ s' => Back s₀ s') s := by
  have hown : Own s root (mapped (ptEntry s.mem root) 0 (npages 0)) := b.own' h
  refine wp_mono (hown.wp_uvmfree 0 (by decide) (fun w hw => ?_) fun w hw _ => hnone w hw) ?_
  · rw [npages_zero] at hw
    omega
  · rintro ⟨⟩ s' hg
    exact b.gone hg

/-- One more page at the top of a new table. -/
theorem Built.wp_mapTop (h : Idle s₀ F) (b : Built root 0 s₀ s)
    (hv : v < MAXVA / PGSIZE) (hnone : ptEntry s.mem root v = 0) :
    wp (mappages root (v * PGSIZE) PGSIZE pa perm) (fun r s' => Built root 0 s₀ s' ∧
      ((r = 0 ∧ ∀ w < NVPN, ptEntry s'.mem root w =
          if w = v then leafPte pa perm else ptEntry s.mem root w) ∨
        (r = -1 ∧ ∀ w, ptEntry s'.mem root w = ptEntry s.mem root w))) s := by
  have hva : v * PGSIZE < MAXVA := by
    unfold PGSIZE MAXVA at *
    omega
  refine wp_mono (mappages_page pa perm (b.own' h).tblOk hva (by rw [hnone]; decide)) ?_
  rintro r s' ⟨hed, hres⟩
  exact ⟨b.uvm (hed.uvm 0), hres⟩

/-- **`proc_pagetable`** builds a table with the three pages at the top, or gives every page it took
back, wherever it ran out of memory. -/
theorem Idle.wp_procPagetable (h : Idle s F) :
    wp (procPagetable trapframe usyscall) (fun r s' => (r = none ∧ Back s s') ∨
      ∃ root, r = some root ∧ Built root 0 s s' ∧
        ∀ w < NVPN, ptEntry s'.mem root w = topEntries s.trampoline trapframe usyscall w) s := by
  obtain ⟨h1, h2, h3, h4⟩ := vUSYSCALL_lt
  rw [procPagetable, TRAMPOLINE_eq, TRAPFRAME_eq, USYSCALL_eq]
  refine wp_seq h.wp_uvmcreate ?_
  rintro r t (⟨rfl, hb⟩ | ⟨root, rfl, b, hnone⟩)
  · exact wp_pure (.inl ⟨rfl, hb⟩)
  refine wp_bind (wp_get ?_)
  rw [b.touches.trampoline]
  -- the trampoline
  refine wp_seq (b.wp_mapTop h (v := vTRAMPOLINE) (by omega) (hnone _)) ?_
  rintro r t1 ⟨b1, ⟨rfl, hen1⟩ | ⟨rfl, hen1⟩⟩
  swap
  · rw [if_pos (by decide)]
    refine wp_seq (b1.wp_discard h fun w hw => by rw [hen1, hnone]) ?_
    rintro ⟨⟩ s' hb
    exact wp_pure (.inl ⟨rfl, hb⟩)
  rw [if_neg (by decide)]
  -- the trapframe
  refine wp_seq (b1.wp_mapTop h (v := vTRAPFRAME) (by omega) ?_) ?_
  · rw [hen1 _ (by omega), if_neg (by omega), hnone]
  rintro r t2 ⟨b2, ⟨rfl, hen2⟩ | ⟨rfl, hen2⟩⟩
  swap
  · rw [if_pos (by decide)]
    refine wp_seq ((b2.own' h).wp_unmap_one (v := vTRAMPOLINE) (by omega) ?_) ?_
    · rw [hen2, hen1 _ (by omega), if_pos rfl]
      exact isLeaf_leafPte _ (by decide)
    rintro ⟨⟩ t3 ⟨hu3, hen3⟩
    refine wp_seq ((b2.uvm hu3).wp_discard h fun w hw => ?_) ?_
    · rw [hen3 w hw, hen2, hen1 w hw, hnone]
      split <;> rfl
    rintro ⟨⟩ s' hb
    exact wp_pure (.inl ⟨rfl, hb⟩)
  rw [if_neg (by decide)]
  -- the shared page
  refine wp_seq (b2.wp_mapTop h (v := vUSYSCALL) (by omega) ?_) ?_
  · rw [hen2 _ (by omega), if_neg (by omega), hen1 _ (by omega), if_neg (by omega), hnone]
  rintro r t3 ⟨b3, ⟨rfl, hen3⟩ | ⟨rfl, hen3⟩⟩
  swap
  · rw [if_pos (by decide)]
    refine wp_seq ((b3.own' h).wp_unmap_one (v := vTRAMPOLINE) (by omega) ?_) ?_
    · rw [hen3, hen2 _ (by omega), if_neg (by omega), hen1 _ (by omega), if_pos rfl]
      exact isLeaf_leafPte _ (by decide)
    rintro ⟨⟩ t4 ⟨hu4, hen4⟩
    have b4 := b3.uvm hu4
    refine wp_seq ((b4.own' h).wp_unmap_one (v := vTRAPFRAME) (by omega) ?_) ?_
    · rw [hen4 _ (by omega), if_neg (by omega), hen3, hen2 _ (by omega), if_pos rfl]
      exact isLeaf_leafPte _ (by decide)
    rintro ⟨⟩ t5 ⟨hu5, hen5⟩
    refine wp_seq ((b4.uvm hu5).wp_discard h fun w hw => ?_) ?_
    · rw [hen5 w hw, hen4 w hw, hen3, hen2 w hw, hen1 w hw, hnone]
      split
      · rfl
      · split <;> rfl
    rintro ⟨⟩ s' hb
    exact wp_pure (.inl ⟨rfl, hb⟩)
  rw [if_neg (by decide)]
  refine wp_pure (.inr ⟨root, rfl, b3, fun w hw => ?_⟩)
  rw [hen3 w hw, hen2 w hw, hen1 w hw, hnone]
  rfl

end Xv6
