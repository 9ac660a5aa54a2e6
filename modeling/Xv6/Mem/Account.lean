/-
# Xv6.Mem.Account — keeping account of all pages.

`Moves A B s s'` is what every function does to memory, seen from outside: the free pages and the
pages of `A` became the free pages and the pages of `B`, no other page was written, and no page was
freed twice.  The specifications of the functions on page tables are brought into this form here;
what they say about the entries is kept apart.
-/
import Xv6.Mem.Fork
import Xv6.Mem.Copy

namespace Xv6

open Lib Lib.Store Lib.Prog Multiset

/-- From `s` to `s'` pages only moved between the free list and the pages in use, which were `A` and
are now `B`; no other page was written. -/
structure Moves (A B : Multiset Nat) (s s' : Mach) : Prop where
  touches : Touches ((s.freelist : Multiset Nat) + A) s s'
  refreed : s'.refreed = s.refreed
  pages : (s'.freelist : Multiset Nat) + B = (s.freelist : Multiset Nat) + A

variable {s s' s'' : Mach} {root p : Nat} {A B C F : Multiset Nat}

theorem Moves.refl (A : Multiset Nat) (s : Mach) : Moves A A s s := ⟨Touches.refl _ _, rfl, rfl⟩

theorem Moves.trans (h : Moves A B s s') (h' : Moves B C s' s'') : Moves A C s s'' where
  touches := h.touches.trans (h.pages ▸ h'.touches)
  refreed := h'.refreed.trans h.refreed
  pages := h'.pages.trans h.pages

/-- Pages that stay in use. -/
theorem Moves.frame (h : Moves A B s s') (C : Multiset Nat) : Moves (A + C) (B + C) s s' where
  touches := h.touches.mono (subset_of_le (by
    rw [← add_assoc]
    exact le_add_right _ _))
  refreed := h.refreed
  pages := by rw [← add_assoc, ← add_assoc, h.pages]

/-- Pages that stay in use, given as a sum. -/
theorem Moves.frame_eq (h : Moves A B s s') (C : Multiset Nat)
    (hA : A' = A + C) (hB : B' = B + C) : Moves A' B' s s' := by
  rw [hA, hB]
  exact h.frame C

theorem Uvm.moves (g : Uvm root A B s s') :
    Moves (ptPages s.mem root + A) (ptPages s'.mem root + B) s s' where
  touches := by
    rw [← add_assoc, add_comm (s.freelist : Multiset Nat)]
    exact g.touches
  refreed := g.refreed
  pages := by
    rw [← add_assoc, ← add_assoc, add_comm (s.freelist : Multiset Nat),
      add_comm (s'.freelist : Multiset Nat), g.pages]

theorem Gone.moves (g : Gone root A s s') : Moves (ptPages s.mem root + A) 0 s s' where
  touches := by
    rw [← add_assoc, add_comm (s.freelist : Multiset Nat)]
    exact g.touches
  refreed := g.refreed
  pages := by
    rw [add_zero, ← add_assoc, add_comm (s.freelist : Multiset Nat), g.freelist]

theorem Built.moves (b : Built root A s s') : Moves 0 (ptPages s'.mem root + A) s s' where
  touches := by
    rw [add_zero]
    exact b.touches
  refreed := b.refreed
  pages := by
    rw [add_zero, ← b.pages, ← add_assoc, add_comm (s'.freelist : Multiset Nat)]

theorem Back.moves (b : Back s s') : Moves 0 0 s s' where
  touches := by
    rw [add_zero]
    exact b.touches
  refreed := b.refreed
  pages := by rw [b.freelist]

/-- Writing to pages in use. -/
theorem Touches.moves (h : Touches A s s') (hfree : s'.freelist = s.freelist)
    (hre : s'.refreed = s.refreed) : Moves A A s s' :=
  ⟨h.mono (subset_of_le (le_add_left _ _)), hre, by rw [hfree]⟩

theorem Moves.isPage (h : Moves A B s s') : s'.IsPage p ↔ s.IsPage p := h.touches.isPage

theorem Idle.moves (h : Idle s A) (hm : Moves A B s s') : Idle s' B where
  nodup := hm.pages ▸ h.nodup
  page p hp := hm.isPage.mpr (h.page p (hm.pages ▸ hp))

/-- Pages in use that a function does not get are not written. -/
theorem Moves.eqOff_frame (hm : Moves A B s s') (h : Idle s (A + F))
    (hx : PGROUNDDOWN x ∈ F) : s'.mem x = s.mem x := by
  have hnd := h.nodup
  rw [← add_assoc] at hnd
  exact hm.touches.mem x (disjoint_right.mp (nodup_add.mp hnd).2.2 hx)

/-! ## All pages -/

/-- The pages that `freerange` hands to the allocator at boot. -/
def ramPages (kend : Nat) : List Nat :=
  (List.range ((PHYSTOP - PGROUNDUP kend) / PGSIZE)).map fun i => PGROUNDUP kend + i * PGSIZE

theorem mem_ramPages (h : kend ≤ PHYSTOP) :
    p ∈ ramPages kend ↔ PGSIZE ∣ p ∧ kend ≤ p ∧ p < PHYSTOP := by
  have hup : ∃ q, PGROUNDUP kend = q * PGSIZE ∧ kend ≤ q * PGSIZE ∧ q * PGSIZE < kend + PGSIZE := by
    unfold PHYSTOP KERNBASE at h
    refine ⟨PGROUNDUP kend / PGSIZE, ?_⟩
    unfold PGROUNDUP PGSIZE
    omega
  obtain ⟨q, hq, hle, hlt⟩ := hup
  have htop : PHYSTOP = PHYSTOP / PGSIZE * PGSIZE := by decide
  rw [ramPages, List.mem_map, hq, htop, ← Nat.sub_mul, Nat.mul_div_cancel _ (by decide)]
  generalize PHYSTOP / PGSIZE = top
  constructor
  · rintro ⟨i, hi, rfl⟩
    rw [List.mem_range] at hi
    refine ⟨⟨q + i, by rw [← Nat.add_mul, Nat.mul_comm]⟩, by omega, ?_⟩
    unfold PGSIZE
    omega
  · rintro ⟨⟨r, rfl⟩, hk, hp⟩
    refine ⟨r - q, List.mem_range.mpr ?_, ?_⟩
    · unfold PGSIZE at *
      omega
    · unfold PGSIZE at *
      omega

theorem nodup_ramPages (kend : Nat) : (ramPages kend).Nodup := by
  refine List.Nodup.map (fun i j hij => ?_) List.nodup_range
  have hij : PGROUNDUP kend + i * PGSIZE = PGROUNDUP kend + j * PGSIZE := hij
  unfold PGSIZE at hij
  omega

/-- There are not more pages than RAM has. -/
theorem Idle.card_le (h : Idle s A) (hk : KERNBASE ≤ s.kend) :
    s.freelist.length + card A ≤ (PHYSTOP - KERNBASE) / PGSIZE := by
  have hle : s.freelist + A ≤ (ramPages KERNBASE : Multiset Nat) := by
    refine (le_iff_subset h.nodup).mpr fun p hp => ?_
    obtain ⟨hdvd, hlo, hhi⟩ := h.page p hp
    exact (mem_ramPages (by decide)).mpr ⟨hdvd, hk.trans hlo, hhi⟩
  have := card_le_card hle
  rwa [card_add, coe_card, coe_card, ramPages, List.length_map,
    List.length_range, show PGROUNDUP KERNBASE = KERNBASE by decide] at this

/-! ## The allocator -/

theorem wp_kalloc_moves (h : Idle s F) :
    wp kalloc (fun r s' => (r = none ∧ Moves 0 0 s s') ∨
      ∃ p, r = some p ∧ s.IsPage p ∧ Moves 0 {p} s s') s := by
  refine wp_mono (kalloc_spec s) ?_
  rintro r s' ⟨hkend, htramp, hre, ⟨rfl, hfree, hmem⟩ | ⟨p, rfl, hfree, hmem⟩⟩
  · refine .inl ⟨rfl, ⟨hkend, htramp, ?_⟩, hre, by rw [hfree]⟩
    rw [hmem]
    exact EqOff.refl _ _
  · have hpf : p ∈ s.freelist := hfree ▸ List.mem_cons_self
    have hpage := h.page p (mem_add.mpr (.inl hpf))
    refine .inr ⟨p, rfl, hpage, ⟨hkend, htramp, ?_⟩, hre, ?_⟩
    · rw [hmem]
      refine (eqOff_fill s.mem (fun _ => 5) hpage.1 le_rfl le_rfl).mono ?_
      rw [add_zero]
      exact singleton_subset.mpr hpf
    · rw [hfree, add_zero, ← cons_coe, add_comm, singleton_add]

theorem wp_kfree_moves (h : Idle s (p ::ₘ F)) : wp (kfree p) (fun _ s' => Moves {p} 0 s s') s := by
  have hp : p ∈ p ::ₘ F := mem_cons_self p F
  refine wp_mono (kfree_spec (h.page p (mem_add.mpr (.inr hp)))) ?_
  rintro ⟨⟩ s' ⟨hfree, ht, hre⟩
  have hnot : p ∉ s.freelist :=
    disjoint_right.mp (nodup_add.mp h.nodup).2.2 hp
  refine ⟨ht.mono (subset_of_le (le_add_left _ _)), ?_, ?_⟩
  · rw [hre, List.contains_eq_mem, decide_eq_false hnot, Bool.or_false]
  · rw [hfree, ← cons_coe, add_zero, add_comm, singleton_add]

end Xv6
