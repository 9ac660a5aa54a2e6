/-
# Xv6.Mem.Build — building a page table from free pages.

While a new table is built, everything it consists of comes from the free list as it was at the
start: `Built` keeps the account.  When the building fails, everything goes back: `Back`.
-/
import Xv6.Mem.Free

namespace Xv6

open Lib Lib.Store Lib.Prog Multiset

/-- The free pages and the pages of `F` are pages of the allocator, none of them twice. -/
structure Idle (s : Mach) (F : Multiset Nat) : Prop where
  nodup : ((s.freelist : Multiset Nat) + F).Nodup
  page : ∀ p ∈ (s.freelist : Multiset Nat) + F, s.IsPage p

/-- From `s₀` to `s` a table at `root` with the data pages `A` was built from free pages. -/
structure Built (root : Nat) (A : Multiset Nat) (s₀ s : Mach) : Prop where
  root_dvd : PGSIZE ∣ root
  touches : Touches (s₀.freelist : Multiset Nat) s₀ s
  refreed : s.refreed = s₀.refreed
  pages : ptPages s.mem root + (s.freelist : Multiset Nat) + A = (s₀.freelist : Multiset Nat)
  linked : ptRadix.Linked IsDir s.mem 2 root

/-- From `s₀` to `s` only free pages were written, and they are free again. -/
structure Back (s₀ s : Mach) : Prop where
  touches : Touches (s₀.freelist : Multiset Nat) s₀ s
  refreed : s.refreed = s₀.refreed
  freelist : (s.freelist : Multiset Nat) = (s₀.freelist : Multiset Nat)

variable {s₀ s s' : Mach} {root : Nat} {A B F : Multiset Nat}

theorem Idle.mono (h : Idle s F) (hBF : B ≤ F) : Idle s B where
  nodup := nodup_of_le (add_le_add_right hBF _) h.nodup
  page p hp := h.page p (mem_of_le (add_le_add_right hBF _) hp)

theorem Built.own (h : Idle s₀ F) (b : Built root A s₀ s) : Own s root (A + F) where
  root_dvd := b.root_dvd
  nodup := by
    rw [← add_assoc, b.pages]
    exact h.nodup
  page p hp := by
    rw [← add_assoc, b.pages] at hp
    exact b.touches.isPage.mpr (h.page p hp)
  linked := b.linked

theorem Built.uvm (b : Built root A s₀ s) (g : Uvm root A B s s') : Built root B s₀ s' where
  root_dvd := b.root_dvd
  touches := b.touches.trans (b.pages ▸ g.touches)
  refreed := g.refreed.trans b.refreed
  pages := g.pages.trans b.pages
  linked := g.linked

theorem Built.gone (b : Built root A s₀ s) (g : Gone root A s s') : Back s₀ s' where
  touches := b.touches.trans (b.pages ▸ g.touches)
  refreed := g.refreed.trans b.refreed
  freelist := g.freelist.trans b.pages

/-- The table that is built does not use the pages of `F`. -/
theorem Built.own' (h : Idle s₀ F) (b : Built root A s₀ s) : Own s root A :=
  (b.own h).mono (le_add_right _ _)

/-- **`uvmcreate`** builds an empty table, or finds no page. -/
theorem Idle.wp_uvmcreate (h : Idle s F) :
    wp uvmcreate (fun r s' => (r = none ∧ Back s s') ∨
      ∃ root, r = some root ∧ Built root 0 s s' ∧ ∀ v, ptEntry s'.mem root v = 0) s := by
  rw [uvmcreate]
  refine wp_seq (kalloc_spec s) ?_
  rintro r t ⟨hkend, htramp, hre, ⟨rfl, hfree, hmem⟩ | ⟨p, rfl, hfree, hmem⟩⟩
  · refine wp_pure (.inl ⟨rfl, ⟨hkend, htramp, ?_⟩, hre, by rw [hfree]⟩)
    rw [hmem]
    exact EqOff.refl _ _
  · have hpf : p ∈ s.freelist := hfree ▸ List.mem_cons_self
    have hdvd : PGSIZE ∣ p := (h.page p (mem_add.mpr (.inl hpf))).1
    have hzero : ∀ i, ptRadix.read (fill t.mem p PGSIZE fun _ => 0) p i = 0 := fun i =>
      load_fill_zero (k := 8) _ (by omega) (by unfold PGSIZE; omega)
    refine wp_bind (wp_modify (wp_pure (.inr ⟨p, rfl, ⟨hdvd, ⟨hkend, htramp, ?_⟩, hre, ?_, ?_⟩, ?_⟩)))
    · rw [hmem]
      refine EqOff.mono ((eqOff_fill s.mem (fun _ => 5) hdvd le_rfl le_rfl).trans
        (eqOff_fill _ (fun _ => 0) hdvd le_rfl le_rfl)) ?_
      exact singleton_subset.mpr hpf
    · rw [ptPages_blank hzero, hfree, add_zero, ← cons_coe, singleton_add]
    · exact (Tree.blank hzero hdvd).linked
    · exact ptEntry_blank hzero

end Xv6
