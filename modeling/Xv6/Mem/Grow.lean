/-
# Xv6.Mem.Grow — growing and shrinking user memory is exact.

`uvmalloc` and `uvmdealloc` on the map that a page table stands for.  Growing inserts the pages
between the two sizes, each on a page that was free, or changes nothing; shrinking erases them and
frees exactly their pages.  Both are described by the two sizes alone, so one undoes the other and a
change of size may be made in steps.
-/
import Xv6.Mem.Uvm
import Xv6.Mem.Refine
import Xv6.Proc.Pagetable

namespace Xv6

open Lib Lib.Store Lib.Prog Multiset Nat PageMap

variable {perm : Pte} {v' w : Nat}

variable {s s' s'' : Mach} {root v n : Nat} {A : Multiset Nat}

/-! ## User memory -/

/-- The user memory of the table at `root` has size `sz`: the pages below are mapped to pages of the
allocator, no two of them to the same, and from there up to `USYSCALL` nothing is mapped. -/
structure UserMem (s : Mach) (root sz : Nat) : Prop where
  own : Own s root (mapped (ptEntry s.mem root) 0 (npages sz) : Multiset Nat)
  leaf : ∀ v < npages sz, IsLeaf (ptEntry s.mem root v)
  unmapped : ∀ v, npages sz ≤ v → v < npages USYSCALL → ptEntry s.mem root v &&& PTE_V = 0

/-- The page that page `v` is mapped to. -/
def pageOf (s : Mach) (root v : Nat) : Nat := PTE2PA (ptEntry s.mem root v)

/-- From `s` to `s'` the pages from `v` up to `v'` were mapped with `perm`, each to a page of its own
that was free and is now full of zeroes; nothing but the table and free pages was written. -/
structure Grows (root v v' : Nat) (perm : Pte) (s s' : Mach) : Prop where
  map : ptMap s' root = (ptMap s root).insertRange v (v' - v) fun i =>
    (pageOf s' root (v + i), perm ||| PTE_V)
  free : ∀ w, v ≤ w → w < v' → pageOf s' root w ∈ s.freelist ∧ pageOf s' root w ∉ s'.freelist ∧
    pageOf s' root w ∉ ptPages s'.mem root
  inj : ∀ w w', v ≤ w → w < v' → v ≤ w' → w' < v' → pageOf s' root w = pageOf s' root w' → w = w'
  zero : ∀ w, v ≤ w → w < v' → ∀ off < PGSIZE, s'.mem (pageOf s' root w + off) = 0
  pages : ptPages s'.mem root + (s'.freelist : Multiset Nat) +
    (mapped (ptEntry s'.mem root) v (v' - v) : Multiset Nat) =
      ptPages s.mem root + (s.freelist : Multiset Nat)
  touches : Touches (ptPages s.mem root + (s.freelist : Multiset Nat)) s s'
  suffix : s'.freelist <:+ s.freelist

/-- From `s` to `s'` the map stayed as it was; what is not free any more became part of the table. -/
structure Stays (root : Nat) (s s' : Mach) : Prop where
  map : ptMap s' root = ptMap s root
  pages : ptPages s'.mem root + (s'.freelist : Multiset Nat) =
    ptPages s.mem root + (s.freelist : Multiset Nat)
  touches : Touches (ptPages s.mem root + (s.freelist : Multiset Nat)) s s'

/-- From `s` to `s'` the pages from `v` up to `v'` were unmapped and freed, and nothing else. -/
structure Shrinks (root v v' : Nat) (s s' : Mach) : Prop where
  map : ptMap s' root = (ptMap s root).eraseRange v (v' - v)
  pages : ptPages s'.mem root + (s'.freelist : Multiset Nat) =
    ptPages s.mem root + (s.freelist : Multiset Nat) +
      (mapped (ptEntry s.mem root) v (v' - v) : Multiset Nat)
  touches : Touches (ptPages s.mem root + (s.freelist : Multiset Nat) +
    (mapped (ptEntry s.mem root) v (v' - v) : Multiset Nat)) s s'

/-! ## Maps from entries -/

theorem ptMap_congr (hf : ∀ w, MAXVA / PGSIZE ≤ w → f w = none)
    (h : ∀ w < MAXVA / PGSIZE, ptMapOf (ptEntry s.mem root w) = f w) : ptMap s root = f := by
  funext w
  rcases lt_or_ge w (MAXVA / PGSIZE) with hw | hw
  · rw [ptMap_eq hw, h w hw]
  · rw [ptMap_of_le hw, hf w hw]

theorem ptMapOf_invalid (h : e &&& PTE_V = 0) : ptMapOf e = none :=
  if_neg (not_not.mpr h)

theorem npages_le_USYSCALL (h : sz ≤ USYSCALL) :
    npages sz ≤ npages USYSCALL ∧ sz < 2 ^ 63 := by
  have hlt : USYSCALL < 2 ^ 63 := by decide
  exact ⟨npages_mono h hlt, by omega⟩

theorem npages_USYSCALL_le : npages USYSCALL ≤ MAXVA / PGSIZE := by decide

/-- Data pages that a run does not know of stay where they are. -/
theorem Uvm.beside (g : Uvm root 0 B s s') (C : Multiset Nat) :
    Uvm root C (B + C) s s' := by
  have := g.frame C
  rwa [zero_add] at this

/-! ## One step -/

variable {oldsz mid newsz : Nat} {xperm : Pte}

/-- The new pages of `uvmalloc`, read off the table. -/
theorem Alloced.entry (hal : Alloced root v n perm s s') (hperm : IsFlags perm) (hw : v ≤ w)
    (hw' : w < v + n) :
    pageOf s' root w ∈ s.freelist ∧ ptEntry s'.mem root w = leafPte (pageOf s' root w) perm ∧
      s.IsPage (pageOf s' root w) ∧ ∀ off < PGSIZE, s'.mem (pageOf s' root w + off) = 0 := by
  obtain ⟨pa, hfree, hpage, hpte, hz⟩ := hal.fresh w hw hw'
  have hpa : pageOf s' root w = pa := by
    rw [pageOf, hpte, PTE2PA_leafPte hpage hperm]
  rw [hpa]
  exact ⟨hfree, hpte, hpage, hz⟩

/-- A run that mapped `n` pages from `v` on and owns them. -/
theorem Alloced.grows (h : Own s root 0) (hperm : IsFlags perm) (hvv : v ≤ v')
    (hv' : v' ≤ MAXVA / PGSIZE) (hal : Alloced root v (v' - v) perm s s')
    (hu : Uvm root 0 (mapped (ptEntry s'.mem root) v (v' - v) + 0) s s') :
    Grows root v v' perm s s' := by
  have hN : MAXVA / PGSIZE ≤ NVPN := by decide
  have hown := h.uvm hu
  rw [add_zero] at hown
  have hnew : ∀ w, v ≤ w → w < v' → _ := fun w hw hw' =>
    hal.entry hperm (w := w) hw (by omega)
  have hin : ∀ w, v ≤ w → w < v' →
      pageOf s' root w ∈ (mapped (ptEntry s'.mem root) v (v' - v)) :=
    fun w hw hw' => mem_mapped.mpr ⟨w, hw, by omega, rfl⟩
  refine ⟨?_, fun w hw hw' => ?_, fun w w' hw h1 hw' h2 heq => ?_, fun w hw hw' => ?_, ?_,
    hal.touches, hal.suffix⟩
  · refine ptMap_congr (fun w hw => ?_) fun w hw => ?_
    · rw [insertRange, if_neg (by omega), ptMap_of_le hw]
    · rw [insertRange]
      split
      · obtain ⟨-, hpte, hpage, -⟩ := hnew w (by omega) (by omega)
        have hlt : pageOf s' root w < 2 ^ 64 := by
          have := hpage.2.2
          unfold PHYSTOP KERNBASE at this
          omega
        rw [hpte, ptMapOf_leafPte hperm, show v + (w - v) = w by omega, mod_eq_of_lt hlt,
          PGROUNDDOWN, Nat.div_mul_cancel hpage.1]
      · rw [hal.same w (by omega) (by omega), ptMap_eq hw]
  · exact ⟨(hnew w hw hw').1, (hown.notMem (hin w hw hw')).symm⟩
  · have hnd : (mapped (ptEntry s'.mem root) v (v' - v)).Nodup :=
      coe_nodup.mp (nodup_of_le (le_add_left _ _) hown.nodup)
    refine List.inj_on_of_nodup_map hnd ?_ ?_ heq
    · exact List.mem_range'_1.mpr ⟨hw, by omega⟩
    · exact List.mem_range'_1.mpr ⟨hw', by omega⟩
  · exact (hnew w hw hw').2.2.2
  · have := hu.pages
    rwa [add_zero, add_zero] at this

/-- `uvmalloc` grows user memory to the new size, or leaves it as it was. -/
theorem UserMem.wp_uvmalloc (h : UserMem s root oldsz) (hsz : oldsz ≤ newsz)
    (hnew : newsz ≤ USYSCALL) (hperm : IsFlags xperm) :
    wp (uvmalloc root oldsz newsz xperm) (fun r s' =>
      (r = newsz ∧ UserMem s' root newsz ∧
        Grows root (npages oldsz) (npages newsz) (PTE_R ||| PTE_U ||| xperm) s s') ∨
      (r = 0 ∧ UserMem s' root oldsz ∧ Stays root s s')) s := by
  obtain ⟨htop, hlt⟩ := npages_le_USYSCALL hnew
  have hU := npages_USYSCALL_le
  have hN : MAXVA / PGSIZE ≤ NVPN := by decide
  have hmono := npages_mono hsz hlt
  have hflags : IsFlags (PTE_R ||| PTE_U ||| xperm) := IsFlags.or (by decide) hperm
  have hcap : (newsz - npages oldsz * PGSIZE + PGSIZE - 1) / PGSIZE ≤
      npages newsz - npages oldsz := by
    unfold npages PGROUNDUP PGSIZE
    omega
  have hown : Own s root 0 := h.own.mono (zero_le _)
  refine wp_mono (hown.wp_uvmalloc newsz (npages USYSCALL) hperm hU (by omega) (by omega) h.unmapped) ?_
  rintro r s' (⟨hlt, -, -⟩ | ⟨-, hr, -, -, hal, hu⟩ | ⟨-, hr, hu, hsame⟩)
  · exact absurd hlt (by omega)
  · have hlow : ∀ w < npages oldsz, ptEntry s'.mem root w = ptEntry s.mem root w :=
      fun w hw => hal.same w (by omega) (.inl hw)
    refine .inl ⟨hr, ⟨?_, fun w hw => ?_, fun w hw hw' => ?_⟩,
      hal.grows hown hflags hmono (by omega) hu⟩
    · have hown' := h.own.uvm (hu.beside _)
      rw [add_zero, add_comm, coe_add,
        ← mapped_congr fun w _ hw => hlow w (by omega)] at hown'
      have hall := mapped_split (ptEntry s'.mem root) (zero_le _) hmono
      rw [Nat.sub_zero, Nat.sub_zero] at hall
      rwa [hall]
    · rcases lt_or_ge w (npages oldsz) with hold | hge
      · rw [hlow w hold]
        exact h.leaf w hold
      · obtain ⟨-, hpte, -⟩ := hal.entry hflags hge (by omega)
        rw [hpte]
        exact isLeaf_leafPte _ (by simp [PTE_R])
    · rw [hal.same w (by omega) (by omega)]
      exact h.unmapped w (by omega) hw'
  · have hlow : ∀ w < npages oldsz, ptEntry s'.mem root w = ptEntry s.mem root w := fun w hw => by
      rcases hsame w (by omega) with he | ⟨hge, -, -⟩
      · exact he
      · omega
    have hnone : ∀ w, npages oldsz ≤ w → w < npages USYSCALL →
        ptEntry s'.mem root w &&& PTE_V = 0 := fun w hw hw' => by
      rcases hsame w (by omega) with he | ⟨-, -, hz⟩
      · rw [he]
        exact h.unmapped w hw hw'
      · rw [hz]
        exact BitVec.zero_and
    refine .inr ⟨hr, ⟨?_, fun w hw => ?_, hnone⟩, ?_, ?_, ?_⟩
    · have hown' := h.own.uvm (hu.beside _)
      rwa [zero_add, ← mapped_congr fun w _ hw => hlow w (by omega)] at hown'
    · rw [hlow w hw]
      exact h.leaf w hw
    · refine ptMap_congr (fun w hw => ptMap_of_le hw) fun w hw => ?_
      rw [ptMap_eq hw]
      rcases hsame w (by omega) with he | ⟨hge, htop', hz⟩
      · rw [he]
      · rw [hz, ptMapOf_zero, ptMapOf_invalid (h.unmapped w hge htop')]
    · have := hu.pages
      rwa [add_zero, add_zero] at this
    · have := hu.touches
      rwa [add_zero] at this

/-- `uvmdealloc` shrinks user memory to the new size. -/
theorem UserMem.wp_uvmdealloc (h : UserMem s root newsz) (hsz : oldsz ≤ newsz)
    (hnew : newsz ≤ USYSCALL) :
    wp (uvmdealloc root newsz oldsz) (fun r s' => r = oldsz ∧ UserMem s' root oldsz ∧
      Shrinks root (npages oldsz) (npages newsz) s s') s := by
  obtain ⟨htop, hlt⟩ := npages_le_USYSCALL hnew
  have hU := npages_USYSCALL_le
  have hN : MAXVA / PGSIZE ≤ NVPN := by decide
  have hmono := npages_mono hsz hlt
  rcases eq_or_lt_of_le hsz with rfl | hsz
  · -- the size does not change
    have hnil : mapped (ptEntry s.mem root) (npages oldsz) (npages oldsz - npages oldsz) = [] := by
      rw [Nat.sub_self]
      rfl
    rw [uvmdealloc, if_pos le_rfl]
    refine wp_pure ⟨rfl, h, ?_, ?_, Touches.refl _ _⟩
    · funext w
      rw [eraseRange, if_neg (by omega)]
    · rw [hnil]
      exact (add_zero _).symm
  have hall := mapped_split (ptEntry s.mem root) (zero_le _) hmono
  rw [Nat.sub_zero, Nat.sub_zero] at hall
  have hown := h.own
  rw [hall, ← coe_add, add_comm] at hown
  have hrange := hown.mono (le_add_right _ _)
  rw [← add_zero (mapped _ _ _ : Multiset Nat)] at hrange
  refine wp_mono (hrange.wp_uvmdealloc hsz (by omega) hlt fun w _ hw => h.leaf w hw) ?_
  rintro r s' ⟨hr, hu, hen⟩
  have hlow : ∀ w < npages oldsz, ptEntry s'.mem root w = ptEntry s.mem root w := fun w hw => by
    rw [hen w (by omega), setRange_of_notMem (by omega)]
  refine ⟨hr, ⟨?_, fun w hw => ?_, fun w hw hw' => ?_⟩, ?_, ?_, ?_⟩
  · have hg := hu.frame (mapped (ptEntry s.mem root) 0 (npages oldsz))
    rw [add_zero, zero_add] at hg
    have hown' := hown.uvm hg
    rwa [← mapped_congr fun w _ hw => hlow w (by omega)] at hown'
  · rw [hlow w hw]
    exact h.leaf w (by omega)
  · rw [hen w (by omega)]
    rcases lt_or_ge w (npages newsz) with hin | hout
    · rw [setRange_of_mem hw (by omega)]
      exact BitVec.zero_and
    · rw [setRange_of_notMem (by omega)]
      exact h.unmapped w hout hw'
  · refine ptMap_congr (fun w hw => ?_) fun w hw => ?_
    · rw [eraseRange, if_neg (by omega), ptMap_of_le hw]
    · rw [hen w (by omega), setRange, eraseRange]
      split
      · exact ptMapOf_zero
      · rw [ptMap_eq hw]
  · have := hu.pages
    rwa [add_zero, add_zero] at this
  · have := hu.touches
    rwa [add_zero] at this

/-! ## Several steps -/

theorem UserMem.mapped_ne_none (h : UserMem s root sz) (hsz : sz ≤ USYSCALL)
    (hw : w < npages sz) : ptMap s root w ≠ none := by
  have hU := npages_USYSCALL_le
  have htop := (npages_le_USYSCALL hsz).1
  rw [ptMap_eq (by omega), ptMapOf, if_pos (h.leaf w hw).1]
  exact Option.some_ne_none _

/-- The page of a mapping. -/
theorem pageOf_eq (h : ptMap s root w = some x) : pageOf s root w = x.1 := by
  rcases lt_or_ge w (MAXVA / PGSIZE) with hw | hw
  · rw [ptMap_eq hw] at h
    exact (ptMapOf_eq_some.mp h).2.1
  · rw [ptMap_of_le hw] at h
    exact nomatch h

theorem Grows.mapped (h : Grows root v v' perm s s') (hw : v ≤ w) (hw' : w < v') :
    ptMap s' root w = some (pageOf s' root w, perm ||| PTE_V) := by
  rw [h.map, insertRange, if_pos (by omega), show v + (w - v) = w by omega]

/-- Growing in two steps is growing at once. -/
theorem Grows.trans (h₁₂ : v₁ ≤ v₂) (h₂₃ : v₂ ≤ v₃)
    (h : Grows root v₁ v₂ perm s s') (h' : Grows root v₂ v₃ perm s' s'') :
    Grows root v₁ v₃ perm s s'' := by
  -- the pages of the first step stay mapped, and are neither free nor in the table
  have hkeep : ∀ w, v₁ ≤ w → w < v₂ → pageOf s'' root w = pageOf s' root w := fun w h₁ h₂ => by
    refine pageOf_eq (x := (pageOf s' root w, perm ||| PTE_V)) ?_
    rw [h'.map, insertRange, if_neg (by omega), h.mapped h₁ h₂]
  have hout : ∀ w, v₁ ≤ w → w < v₂ →
      pageOf s' root w ∉ ptPages s'.mem root + s'.freelist := fun w h₁ h₂ => by
    rw [mem_add, not_or]
    exact (h.free w h₁ h₂).2.symm
  have hnot : ∀ w, v₁ ≤ w → w < v₂ → pageOf s' root w ∉ s''.freelist ∧
      pageOf s' root w ∉ ptPages s''.mem root ∧
      pageOf s' root w ∉ (Xv6.mapped (ptEntry s''.mem root) v₂ (v₃ - v₂)) := by
    intro w h₁ h₂
    have := hout w h₁ h₂
    rw [← h'.pages, mem_add, mem_add, not_or, not_or] at this
    exact ⟨this.1.2, this.1.1, this.2⟩
  have hne : ∀ w w', v₁ ≤ w → w < v₂ → v₂ ≤ w' → w' < v₃ →
      pageOf s'' root w ≠ pageOf s'' root w' := fun w w' h₁ h₂ h₃ h₄ heq => by
    rw [hkeep w h₁ h₂] at heq
    exact (hnot w h₁ h₂).2.2 (heq ▸ mem_mapped.mpr ⟨w', h₃, by omega, rfl⟩)
  refine ⟨?_, fun w hw hw' => ?_, fun w w' hw h₁ hw' h₂ heq => ?_, fun w hw hw' off hoff => ?_, ?_,
    ?_, h'.suffix.trans h.suffix⟩
  · funext w
    rw [h'.map, h.map, insertRange, insertRange, insertRange]
    by_cases h₃ : v₂ ≤ w ∧ w < v₃
    · rw [if_pos (by omega), if_pos (by omega), show v₂ + (w - v₂) = v₁ + (w - v₁) by omega]
    · rw [if_neg (by omega)]
      by_cases h₁ : v₁ ≤ w ∧ w < v₂
      · rw [if_pos (by omega), if_pos (by omega), hkeep _ (by omega) (by omega)]
      · rw [if_neg (by omega), if_neg (by omega)]
  · rcases lt_or_ge w v₂ with hlt | hge
    · rw [hkeep w hw hlt]
      exact ⟨(h.free w hw hlt).1, (hnot w hw hlt).1, (hnot w hw hlt).2.1⟩
    · obtain ⟨hin, hrest⟩ := h'.free w hge hw'
      exact ⟨h.suffix.subset hin, hrest⟩
  · rcases lt_or_ge w v₂ with hlt | hge <;> rcases lt_or_ge w' v₂ with hlt' | hge'
    · rw [hkeep w hw hlt, hkeep w' hw' hlt'] at heq
      exact h.inj w w' hw hlt hw' hlt' heq
    · exact absurd heq (hne w w' hw hlt hge' h₂)
    · exact absurd heq.symm (hne w' w hw' hlt' hge h₁)
    · exact h'.inj w w' hge h₁ hge' h₂ heq
  · rcases lt_or_ge w v₂ with hlt | hge
    · rw [hkeep w hw hlt, h'.touches.mem, h.zero w hw hlt off hoff]
      have hdvd : PGSIZE ∣ pageOf s' root w := PTE2PA_dvd _
      rw [PGROUNDDOWN_of_mem hdvd (le_add_right _ _) (by omega)]
      exact hout w hw hlt
    · exact h'.zero w hge hw' off hoff
  · have hmap : Xv6.mapped (ptEntry s''.mem root) v₁ (v₂ - v₁) =
        Xv6.mapped (ptEntry s'.mem root) v₁ (v₂ - v₁) :=
      mapped_congr_page fun w h₁ h₂ => hkeep w h₁ (by omega)
    rw [mapped_split _ h₁₂ h₂₃, hmap, ← coe_add, ← h.pages, ← h'.pages]
    abel
  · refine h.touches.trans (h'.touches.mono ?_)
    rw [← h.pages]
    exact subset_of_le (le_add_right _ _)

/-- Shrinking in two steps is shrinking at once. -/
theorem Shrinks.trans (h₁₂ : v₁ ≤ v₂) (h₂₃ : v₂ ≤ v₃)
    (hmapped : ∀ w, v₁ ≤ w → w < v₂ → ptMap s root w ≠ none)
    (h : Shrinks root v₂ v₃ s s') (h' : Shrinks root v₁ v₂ s' s'') :
    Shrinks root v₁ v₃ s s'' := by
  have hkeep : ∀ w, v₁ ≤ w → w < v₂ → pageOf s' root w = pageOf s root w := fun w h₁ h₂ => by
    obtain ⟨x, hx⟩ := Option.ne_none_iff_exists'.mp (hmapped w h₁ h₂)
    rw [pageOf_eq hx]
    refine pageOf_eq ?_
    rw [h.map, eraseRange, if_neg (by omega), hx]
  have hmap : mapped (ptEntry s'.mem root) v₁ (v₂ - v₁) = mapped (ptEntry s.mem root) v₁ (v₂ - v₁) :=
    mapped_congr_page fun w h₁ h₂ => hkeep w h₁ (by omega)
  have hsplit : (mapped (ptEntry s.mem root) v₁ (v₃ - v₁) : Multiset Nat) =
      (mapped (ptEntry s.mem root) v₂ (v₃ - v₂) : Multiset Nat) +
        (mapped (ptEntry s'.mem root) v₁ (v₂ - v₁) : Multiset Nat) := by
    rw [mapped_split _ h₁₂ h₂₃, hmap, ← coe_add, add_comm]
  refine ⟨?_, ?_, ?_⟩
  · funext w
    rw [h'.map, h.map, eraseRange, eraseRange, eraseRange]
    by_cases h₁ : v₁ ≤ w ∧ w < v₁ + (v₂ - v₁)
    · rw [if_pos h₁, if_pos (by omega)]
    · rw [if_neg h₁]
      exact if_congr (by omega) rfl rfl
  · rw [h'.pages, h.pages, hsplit, add_assoc]
  · rw [hsplit, ← add_assoc]
    refine (h.touches.mono (subset_of_le (le_add_right _ _))).trans ?_
    have := h'.touches
    rwa [h.pages] at this

/-- Growing and shrinking again: the map is the old one, and the pages are free again. -/
theorem Grows.undone (h : Grows root v v' perm s s')
    (hnone : ∀ w, v ≤ w → w < v' → ptMap s root w = none) (h' : Shrinks root v v' s' s'') :
    ptMap s'' root = ptMap s root ∧
    ptPages s''.mem root + s''.freelist =
      ptPages s.mem root + s.freelist := by
  refine ⟨?_, h'.pages.trans h.pages⟩
  funext w
  rw [h'.map, h.map, eraseRange, insertRange]
  by_cases hw : v ≤ w ∧ w < v + (v' - v)
  · rw [if_pos hw, hnone w hw.1 (by omega)]
  · rw [if_neg hw, if_neg hw]

/-- **Growing and shrinking user memory is exact.**  Whatever `kalloc` calls fail, `uvmalloc` maps
exactly the pages between the sizes, to fresh zero pages, or changes nothing; `uvmdealloc` unmaps and
frees exactly these, and so undoes it; and both may go through any size in between. -/
theorem resize_exact (root : Nat) {oldsz newsz : Nat} {xperm : Pte} (hsz : oldsz ≤ newsz)
    (hnew : newsz ≤ USYSCALL) (hperm : IsFlags xperm) :
    (∀ s, UserMem s root oldsz → wp (uvmalloc root oldsz newsz xperm) (fun r s' =>
      (r = newsz ∧ UserMem s' root newsz ∧
        Grows root (npages oldsz) (npages newsz) (PTE_R ||| PTE_U ||| xperm) s s' ∧
        wp (uvmdealloc root newsz oldsz) (fun r' s'' => r' = oldsz ∧ Stays root s s'') s') ∨
      (r = 0 ∧ UserMem s' root oldsz ∧ Stays root s s')) s) ∧
    (∀ s, UserMem s root newsz → wp (uvmdealloc root newsz oldsz) (fun r s' =>
      r = oldsz ∧ UserMem s' root oldsz ∧ Shrinks root (npages oldsz) (npages newsz) s s') s) ∧
    ∀ mid, oldsz ≤ mid → mid ≤ newsz →
      (∀ s, UserMem s root oldsz →
        wp (do
          let r ← uvmalloc root oldsz mid xperm
          if r = mid then uvmalloc root mid newsz xperm else pure 0) (fun r s' =>
          (r = newsz ∧ Grows root (npages oldsz) (npages newsz) (PTE_R ||| PTE_U ||| xperm) s s') ∨
          r = 0) s) ∧
      (∀ s, UserMem s root newsz →
        wp (do
          let r ← uvmdealloc root newsz mid
          uvmdealloc root r oldsz) (fun r s' =>
          r = oldsz ∧ Shrinks root (npages oldsz) (npages newsz) s s') s) := by
  obtain ⟨htop, hlt⟩ := npages_le_USYSCALL hnew
  have hU := npages_USYSCALL_le
  have hmono := npages_mono hsz hlt
  refine ⟨fun s h => ?_, fun s h => h.wp_uvmdealloc hsz hnew, fun mid h1 h2 =>
    ⟨fun s h => ?_, fun s h => ?_⟩⟩
  · refine wp_mono (h.wp_uvmalloc hsz hnew hperm) ?_
    rintro r s' (⟨hr, hm, hg⟩ | hfail)
    · refine .inl ⟨hr, hm, hg, wp_mono (hm.wp_uvmdealloc hsz hnew) ?_⟩
      rintro r' s'' ⟨hr', -, hs⟩
      have hnone : ∀ w, npages oldsz ≤ w → w < npages newsz → ptMap s root w = none := by
        intro w hw hw'
        rw [ptMap_eq (by omega), ptMapOf_invalid (h.unmapped w hw (by omega))]
      obtain ⟨hmap, hpages⟩ := hg.undone hnone hs
      refine ⟨hr', hmap, hpages, hg.touches.trans ?_⟩
      rw [← hg.pages]
      exact hs.touches
    · exact .inr hfail
  · have hm1 := npages_mono h1 (lt_of_le_of_lt h2 hlt)
    have hm2 := npages_mono h2 hlt
    rcases Nat.eq_zero_or_pos mid with rfl | hmid
    · -- nothing is asked for in the first step
      obtain rfl : oldsz = 0 := by omega
      refine wp_bind (wp_pure ?_)
      rw [if_pos rfl]
      refine wp_mono (h.wp_uvmalloc h2 hnew hperm) ?_
      rintro r s' (⟨hr, -, hg⟩ | ⟨hr, -⟩)
      · exact .inl ⟨hr, hg⟩
      · exact .inr hr
    refine wp_seq (h.wp_uvmalloc h1 (h2.trans hnew) hperm) ?_
    rintro r s' (⟨hr, hm, hg⟩ | ⟨hr, -⟩)
    · rw [if_pos hr]
      refine wp_mono (hm.wp_uvmalloc h2 hnew hperm) ?_
      rintro r' s'' (⟨hr', -, hg'⟩ | ⟨hr', -⟩)
      · exact .inl ⟨hr', hg.trans hm1 hm2 hg'⟩
      · exact .inr hr'
    · rw [if_neg (by omega)]
      exact wp_pure (.inr rfl)
  · have hm1 := npages_mono h1 (lt_of_le_of_lt h2 hlt)
    have hm2 := npages_mono h2 hlt
    refine wp_seq (h.wp_uvmdealloc h2 hnew) ?_
    rintro r s' ⟨rfl, hm, hs⟩
    refine wp_mono (hm.wp_uvmdealloc h1 (h2.trans hnew)) ?_
    rintro r' s'' ⟨hr', -, hs'⟩
    have hmapped : ∀ w, npages oldsz ≤ w → w < npages r → ptMap s root w ≠ none :=
      fun w _ hw => h.mapped_ne_none hnew (lt_of_lt_of_le hw hm2)
    exact ⟨hr', Shrinks.trans hm1 hm2 hmapped hs hs'⟩

/-- The machine `emptyTable` with four free pages. -/
def fourFree : Mach :=
  { emptyTable with freelist := (List.range 4).map fun i => KERNBASE + (i + 1) * PGSIZE }

theorem userMem_fourFree : UserMem fourFree KERNBASE 0 where
  own := by
    have hpages : ptPages fourFree.mem KERNBASE = {KERNBASE} := ptPages_blank read_emptyTable
    refine ⟨by decide, ?_, ?_, (Tree.blank read_emptyTable (by decide)).linked⟩
    · rw [hpages]
      decide
    · rw [hpages]
      show ∀ p ∈ _, PGSIZE ∣ p ∧ KERNBASE ≤ p ∧ p < PHYSTOP
      decide
  leaf v hv := absurd hv (by rw [npages_zero]; omega)
  unmapped v _ _ := by
    have hz : ptEntry fourFree.mem KERNBASE v = 0 := ptEntry_blank read_emptyTable v
    rw [hz]
    exact BitVec.zero_and

theorem uvmalloc_fourFree :
    ∃ s', uvmalloc KERNBASE 0 (PGSIZE + 1) PTE_W fourFree = .ok (PGSIZE + 1, s') := by
  obtain ⟨r, s', hrun, hr⟩ := of_test (P := fun r _ => decide (r = PGSIZE + 1)) (show
    (uvmalloc KERNBASE 0 (PGSIZE + 1) PTE_W).test fourFree _ = true by decide +kernel)
  cases of_decide_eq_true hr
  exact ⟨s', hrun⟩

/-- Two pages for one byte more than a page, through the size of one byte. -/
theorem resize_exact_fourFree :
    ∃ s', uvmalloc KERNBASE 0 (PGSIZE + 1) PTE_W fourFree = .ok (PGSIZE + 1, s') ∧
      Grows KERNBASE 0 2 (PTE_R ||| PTE_U ||| PTE_W) fourFree s' ∧
      wp (uvmdealloc KERNBASE (PGSIZE + 1) 0) (fun r s'' => r = 0 ∧ Stays KERNBASE fourFree s'')
        s' := by
  obtain ⟨s', hrun⟩ := uvmalloc_fourFree
  obtain ⟨r, s1, hrun1, hpost⟩ := (resize_exact KERNBASE (zero_le (PGSIZE + 1)) (by decide)
    (show IsFlags PTE_W by decide)).1 fourFree userMem_fourFree
  cases hrun.symm.trans hrun1
  rcases hpost with ⟨-, -, hg, hundo⟩ | ⟨hr, -⟩
  · exact ⟨s', hrun, hg, hundo⟩
  · exact absurd hr (by decide)

end Xv6
