/-
# Xv6.Mem.Own — who owns which page while a table is worked on.

While a function works on one page table, the pages in play are the table's own, the free ones and
some multiset `A` of data pages.  `Own` says that these are pages of the allocator, none twice.
`Uvm A B` says that a run from `s` to `s'` only moved pages between the three and wrote to no other
page; it composes, and with `Own` before it gives `Own` after.  Every function below is specified as
one such move, together with what it does to the entries.
-/
import Xv6.Mem.Map

namespace Xv6

open Lib Lib.Store Lib.Prog Multiset Radix

/-- The pages of the table at `root`, the free pages and the pages of `A` are pages of the allocator,
none of them twice. -/
structure Own (s : Mach) (root : Nat) (A : Multiset Nat) : Prop where
  root_dvd : PGSIZE ∣ root
  nodup : (ptPages s.mem root + (s.freelist : Multiset Nat) + A).Nodup
  page : ∀ p ∈ ptPages s.mem root + (s.freelist : Multiset Nat) + A, s.IsPage p
  linked : ptRadix.Linked IsDir s.mem 2 root

/-- From `s` to `s'` pages only moved between the table at `root`, the free list and the data pages,
which were `A` and are now `B`; no other page was written. -/
structure Uvm (root : Nat) (A B : Multiset Nat) (s s' : Mach) : Prop where
  touches : Touches (ptPages s.mem root + (s.freelist : Multiset Nat) + A) s s'
  refreed : s'.refreed = s.refreed
  pages : ptPages s'.mem root + (s'.freelist : Multiset Nat) + B =
    ptPages s.mem root + (s.freelist : Multiset Nat) + A
  linked : ptRadix.Linked IsDir s'.mem 2 root

variable {s s' s'' : Mach} {root p : Nat} {A B C : Multiset Nat}

section

variable (h : Own s root A)

include h

theorem Own.tblOk : TblOk s 2 root where
  root := h.root_dvd
  nodup := nodup_of_le (le_add_right _ _) h.nodup
  linked := h.linked
  free p hp := h.page p (mem_add.mpr (.inl (mem_add.mpr (.inr hp))))

theorem Own.tree : Tree s.mem root := h.tblOk.tree

/-- The data pages are neither pages of the table nor free. -/
theorem Own.notMem (hp : p ∈ A) : p ∉ ptPages s.mem root ∧ p ∉ s.freelist := by
  have hdis := disjoint_right.mp (nodup_add.mp h.nodup).2.2 hp
  rw [mem_add, not_or] at hdis
  exact hdis

theorem Own.isPage (hp : p ∈ A) : s.IsPage p :=
  h.page p (mem_add.mpr (.inr hp))

/-- Fewer data pages in view. -/
theorem Own.mono (hBA : B ≤ A) : Own s root B where
  root_dvd := h.root_dvd
  nodup := nodup_of_le (add_le_add_right hBA _) h.nodup
  page p hp := h.page p (mem_of_le (add_le_add_right hBA _) hp)
  linked := h.linked

theorem Own.uvm (g : Uvm root A B s s') : Own s' root B where
  root_dvd := h.root_dvd
  nodup := g.pages ▸ h.nodup
  page p hp := g.touches.isPage.mpr (h.page p (g.pages ▸ hp))
  linked := g.linked

omit h in
theorem Uvm.trans (g : Uvm root A B s s') (g' : Uvm root B C s' s'') : Uvm root A C s s'' where
  touches := g.touches.trans (g.pages ▸ g'.touches)
  refreed := g'.refreed.trans g.refreed
  pages := g'.pages.trans g.pages
  linked := g'.linked

theorem Uvm.refl : Uvm root A A s s :=
  ⟨Touches.refl _ _, rfl, rfl, h.linked⟩

end

/-- More data pages in view, which stay where they are. -/
theorem Uvm.frame (g : Uvm root A B s s') (C : Multiset Nat) :
    Uvm root (A + C) (B + C) s s' where
  touches := g.touches.mono (subset_of_le (by
    rw [← add_assoc]
    exact le_add_right _ _))
  refreed := g.refreed
  pages := by rw [← add_assoc, ← add_assoc, g.pages]
  linked := g.linked

/-- A page that joins the data pages comes from the other two. -/
theorem Uvm.of_cons (g : Uvm root A (p ::ₘ A) s s') :
    ptPages s'.mem root + s'.freelist + {p} =
      ptPages s.mem root + s.freelist := by
  refine add_right_cancel (b := A) ?_
  rw [← g.pages, ← singleton_add, add_assoc _ {p} A]

/-- Working on the table moves pages from the free list to it. -/
theorem Edited.uvm (g : Edited 2 root s s') (A : Multiset Nat) : Uvm root A A s s' where
  touches := g.touches.mono (subset_of_le (le_add_right _ _))
  refreed := g.refreed
  pages := by
    show _ + A = _ + A
    rw [ptPages, g.nodes]
  linked := g.linked

section

variable (h : Own s root A)

include h

/-- A write outside the table leaves the table alone. -/
theorem Own.agree (ht : Touches D s s')
    (hD : ∀ q ∈ D, q ∉ ptPages s.mem root) : ptRadix.Agree (ptPages s.mem root) s.mem s'.mem :=
  h.tree.agree ht.mem fun q hq hin => hD q hin hq

/-- A write to a data page. -/
theorem Own.write (hp : p ∈ A) (ht : Touches {p} s s')
    (hfree : s'.freelist = s.freelist) (hre : s'.refreed = s.refreed) :
    Uvm root A A s s' ∧ ∀ v, ptEntry s'.mem root v = ptEntry s.mem root v := by
  have hagree := h.agree ht fun q hq => by
    rw [mem_singleton.mp hq]
    exact (h.notMem hp).1
  refine ⟨⟨ht.mono ?_, hre, ?_, linked_congr hagree h.linked⟩, ptEntry_congr hagree⟩
  · exact singleton_subset.mpr (mem_add.mpr (.inr hp))
  · rw [hfree, ptPages, nodes_congr hagree]

/-! ## The allocator -/

/-- `kalloc` moves a page from the free list to the data pages, or finds none. -/
theorem Own.wp_kalloc :
    wp kalloc (fun r s' => (∀ v, ptEntry s'.mem root v = ptEntry s.mem root v) ∧
      ((r = none ∧ Uvm root A A s s' ∧ s'.freelist.length = s.freelist.length) ∨
        ∃ p, r = some p ∧ p ∈ s.freelist ∧ Touches {p} s s' ∧ Uvm root A (p ::ₘ A) s s' ∧
          s.freelist = p :: s'.freelist)) s := by
  refine wp_mono (kalloc_spec s) ?_
  rintro r s' ⟨hkend, htramp, hre, ⟨rfl, hfree, hmem⟩ | ⟨p, rfl, hfree, hmem⟩⟩
  · refine ⟨fun v => by rw [hmem], .inl ⟨rfl, ⟨?_, hre, ?_, hmem ▸ h.linked⟩, by rw [hfree]⟩⟩
    · exact ⟨hkend, htramp, hmem ▸ EqOff.refl _ _⟩
    · rw [hmem, hfree]
  · have hpf : p ∈ s.freelist := hfree ▸ List.mem_cons_self
    have htouch : Touches {p} s s' :=
      ⟨hkend, htramp, hmem ▸ eqOff_fill _ _ (h.tblOk.free p hpf).1 le_rfl le_rfl⟩
    have hagree := h.agree htouch fun q hq hin => by
      rw [mem_singleton.mp hq] at hin
      exact h.tblOk.notMem_freelist hin hpf
    refine ⟨ptEntry_congr hagree, .inr ⟨p, rfl, hpf, htouch, ⟨htouch.mono ?_, hre, ?_,
      linked_congr hagree h.linked⟩, hfree⟩⟩
    · exact singleton_subset.mpr (mem_add.mpr (.inl
        (mem_add.mpr (.inr hpf))))
    · rw [ptPages, nodes_congr hagree, hfree, ← cons_coe, add_cons,
        add_cons, cons_add]

end

/-- `kfree` moves a data page to the free list. -/
theorem Own.wp_kfree (h : Own s root (p ::ₘ A)) :
    wp (kfree p) (fun _ s' => Uvm root (p ::ₘ A) A s s' ∧
      ∀ v, ptEntry s'.mem root v = ptEntry s.mem root v) s := by
  have hp : p ∈ p ::ₘ A := mem_cons_self p A
  refine wp_mono (kfree_spec (h.isPage hp)) ?_
  rintro ⟨⟩ s' ⟨hfree, ht, hre⟩
  have hagree := h.agree ht fun q hq => by
    rw [mem_singleton.mp hq]
    exact (h.notMem hp).1
  refine ⟨⟨ht.mono ?_, ?_, ?_, linked_congr hagree h.linked⟩, ptEntry_congr hagree⟩
  · exact singleton_subset.mpr (mem_add.mpr (.inr hp))
  · rw [hre, List.contains_eq_mem, decide_eq_false (h.notMem hp).2, Bool.or_false]
  · rw [ptPages, nodes_congr hagree, hfree, ← cons_coe, add_cons,
      add_cons, cons_add]

end Xv6
