/-
# Xv6.Mem.Walk — what `walk` does to a page table.

`walk` without allocation returns the address of the entry that the tree has for the key.  With
allocation it may add page-table pages on the way.  `Edited` says what that leaves alone: pages only
move from the free list into the tree, and no other page is written; `Grown` adds that every mapping
stays.  Both are transitive, and `Grown` lifts from a subtree to the tree, so the proof follows
`walk`'s loop level by level.
-/
import Xv6.Mem.Table

namespace Xv6

open Lib Lib.Store Lib.Prog Multiset Option Radix

/-! ## Tables that do not share pages -/

/-- The table of height `n` at `p` is a tree, and no page of it is on the free list. -/
structure TblOk (s : Mach) (n p : Nat) : Prop where
  root : PGSIZE ∣ p
  nodup : (ptRadix.nodes s.mem n p + (s.freelist : Multiset Nat)).Nodup
  linked : ptRadix.Linked IsDir s.mem n p
  free : ∀ q ∈ s.freelist, s.IsPage q

/-- From `s` to `s'` the table of height `n` at `p` may have got page-table pages from the free
list, and no page but its own and the free ones was written. -/
structure Edited (n p : Nat) (s s' : Mach) : Prop where
  touches : Touches (ptRadix.nodes s.mem n p + (s.freelist : Multiset Nat)) s s'
  refreed : s'.refreed = s.refreed
  suffix : s'.freelist <:+ s.freelist
  nodes : ptRadix.nodes s'.mem n p + (s'.freelist : Multiset Nat) =
    ptRadix.nodes s.mem n p + (s.freelist : Multiset Nat)
  linked : ptRadix.Linked IsDir s'.mem n p

/-- … and every mapping is as it was. -/
structure Grown (n p : Nat) (s s' : Mach) : Prop extends Edited n p s s' where
  get : ∀ k, ptRadix.get s'.mem n p k = ptRadix.get s.mem n p k ∨
    (ptRadix.get s.mem n p k = none ∧ ptRadix.get s'.mem n p k = some 0)

variable {s s' s'' : Mach} {n p c : Nat} {i : Fin 512}

theorem TblOk.nodes_nodup (h : TblOk s n p) : (ptRadix.nodes s.mem n p).Nodup :=
  (nodup_add.mp h.nodup).1

theorem TblOk.notMem_freelist (h : TblOk s n p) (hq : q ∈ ptRadix.nodes s.mem n p) :
    q ∉ s.freelist :=
  disjoint_left.mp (nodup_add.mp h.nodup).2.2 hq

theorem TblOk.child (h : TblOk s (n + 1) p)
    (hc : ptRadix.child (ptRadix.read s.mem p i) = some c) : TblOk s n c where
  root := (child_eq_some.mp hc).2 ▸ PTE2PA_dvd _
  nodup := nodup_of_le
    (by gcongr; exact (le_cons_self _ p).trans (nodes_child_le hc)) h.nodup
  linked := (linked_succ.mp h.linked i c hc).2
  free := h.free

theorem TblOk.edited (h : TblOk s n p) (g : Edited n p s s') : TblOk s' n p where
  root := h.root
  nodup := g.nodes ▸ h.nodup
  linked := g.linked
  free q hq := g.touches.isPage.mpr (h.free q (g.suffix.subset hq))

/-- A state with the same memory and free list. -/
theorem Grown.of_eq (h : TblOk s n p) (hmem : s'.mem = s.mem) (hfree : s'.freelist = s.freelist)
    (hkend : s'.kend = s.kend) (htramp : s'.trampoline = s.trampoline)
    (hre : s'.refreed = s.refreed) : Grown n p s s' where
  touches := ⟨hkend, htramp, hmem ▸ EqOff.refl _ _⟩
  refreed := hre
  suffix := hfree ▸ List.suffix_rfl
  nodes := by rw [hmem, hfree]
  linked := hmem ▸ h.linked
  get _ := .inl (by rw [hmem])

theorem Edited.trans (g : Edited n p s s') (g' : Edited n p s' s'') : Edited n p s s'' where
  touches := g.touches.trans (g.nodes ▸ g'.touches)
  refreed := g'.refreed.trans g.refreed
  suffix := g'.suffix.trans g.suffix
  nodes := g'.nodes.trans g.nodes
  linked := g'.linked

theorem Grown.trans (g : Grown n p s s') (g' : Grown n p s' s'') : Grown n p s s'' where
  toEdited := g.toEdited.trans g'.toEdited
  get k := by
    rcases g'.get k with h' | ⟨hn, hz⟩
    · rw [h']
      exact g.get k
    · rcases g.get k with h | ⟨_, hz'⟩
      · exact .inr ⟨h ▸ hn, hz⟩
      · rw [hn] at hz'
        cases hz'

/-- What a change below one child leaves of its parent. -/
theorem TblOk.agree_of_child (h : TblOk s (n + 1) p)
    (hc : ptRadix.child (ptRadix.read s.mem p i) = some c)
    (hm : EqOff (ptRadix.nodes s.mem n c + s.freelist) s.mem m') :
    (∀ j, ptRadix.read m' p j = ptRadix.read s.mem p j) ∧
      ∀ j d, j ≠ i → ptRadix.child (ptRadix.read s.mem p j) = some d →
        ptRadix.Agree (ptRadix.nodes s.mem n d) s.mem m' := by
  constructor
  · refine read_eqOff hm h.root ?_
    rw [mem_add, not_or]
    exact ⟨root_notMem_child h.nodes_nodup hc, h.notMem_freelist mem_nodes_self⟩
  · intro j d hij hd
    refine agree_eqOff hm fun q hq => ⟨dvd_of_mem_nodes (h.child hd).root hq, ?_⟩
    rw [mem_add, not_or]
    exact ⟨disjoint_child h.nodes_nodup hij hd hc hq, (h.child hd).notMem_freelist hq⟩

/-- Growing a subtree grows the tree. -/
theorem Grown.lift (h : TblOk s (n + 1) p)
    (hc : ptRadix.child (ptRadix.read s.mem p i) = some c) (g : Grown n c s s') :
    Grown (n + 1) p s s' ∧ ∀ j, ptRadix.read s'.mem p j = ptRadix.read s.mem p j := by
  obtain ⟨hread, hagree⟩ := h.agree_of_child hc g.touches.mem
  refine ⟨⟨⟨g.touches.mono ?_, g.refreed, g.suffix, ?_, ?_⟩, fun k => ?_⟩, hread⟩
  · exact subset_of_le
      (by gcongr; exact (le_cons_self _ p).trans (nodes_child_le hc))
  · -- the nodes change by the child's, and what the child gained the free list lost
    have hch := nodes_change_child (i := i) (n := n) (fun j _ => hread j)
      fun j d hij hd => nodes_congr (hagree j d hij hd)
    rw [hread, hc, elim_some, elim_some] at hch
    apply add_right_cancel (b := ptRadix.nodes s.mem n c)
    calc _ = ptRadix.nodes s'.mem (n + 1) p + ptRadix.nodes s.mem n c + s'.freelist := by abel
      _ = ptRadix.nodes s.mem (n + 1) p + (ptRadix.nodes s'.mem n c + s'.freelist) := by
        rw [hch, add_assoc]
      _ = _ := by
        rw [g.nodes]
        abel
  · refine linked_succ.mpr fun j d hd => ?_
    rw [hread] at hd ⊢
    refine ⟨(linked_succ.mp h.linked j d hd).1, ?_⟩
    by_cases hij : j = i
    · subst hij
      cases hd.symm.trans hc
      exact g.linked
    · exact linked_congr (hagree j d hij hd) (linked_succ.mp h.linked j d hd).2
  · rw [get_succ, get_succ, hread]
    cases hd : ptRadix.child (ptRadix.read s.mem p (k (n + 1))) with
    | none =>
      rw [bind_none, bind_none]
      exact .inl rfl
    | some d =>
      rw [bind_some, bind_some]
      by_cases hij : k (n + 1) = i
      · rw [hij] at hd
        cases hd.symm.trans hc
        exact g.get k
      · exact .inl (get_congr (hagree _ d hij hd) k)

/-- Memory after `walk` has linked the new page `c` into entry `i` of `p`. -/
theorem Grown.link (s' : Mach) (h : TblOk s (n + 1) p)
    (hnone : ptRadix.child (ptRadix.read s.mem p i) = none)
    (hfree : s.freelist = c :: s'.freelist) (hkend : s'.kend = s.kend)
    (htramp : s'.trampoline = s.trampoline) (hre : s'.refreed = s.refreed)
    (hmem : s'.mem = store 8 (fill (fill s.mem c PGSIZE fun _ => 5) c PGSIZE fun _ => 0)
      (p + 8 * i) (PA2PTE c ||| PTE_V)) :
    Grown (n + 1) p s s' ∧ ptRadix.child (ptRadix.read s'.mem p i) = some c := by
  have hcf : c ∈ s.freelist := hfree ▸ List.mem_cons_self
  obtain ⟨hdvd, -, hlt⟩ := h.free c hcf
  have hne : ∀ q ∈ ptRadix.nodes s.mem (n + 1) p, q ≠ c := by
    rintro q hq rfl
    exact h.notMem_freelist hq hcf
  have hpc : p ≠ c := hne p mem_nodes_self
  -- the new page, the linking entry, and everything else
  have hclear : EqOff {c} s.mem (fill (fill s.mem c PGSIZE fun _ => 5) c PGSIZE fun _ => 0) :=
    (eqOff_fill _ _ hdvd le_rfl le_rfl).trans (eqOff_fill _ _ hdvd le_rfl le_rfl)
  have hzero : ∀ j, ptRadix.read s'.mem c j = 0 := by
    intro j
    rw [hmem, read_store_ne _ _ hdvd h.root fun hh => hpc hh.1.symm]
    exact load_fill_zero (k := 8) _ (by omega) (by unfold PGSIZE; omega)
  have hlink : ptRadix.read s'.mem p i = PA2PTE c ||| PTE_V := by
    rw [hmem, read_store_self]
  have hother : ∀ q j, q ∈ ptRadix.nodes s.mem (n + 1) p → ¬(q = p ∧ j = i) →
      ptRadix.read s'.mem q j = ptRadix.read s.mem q j := by
    intro q j hq hqj
    have hq' := dvd_of_mem_nodes h.root hq
    rw [hmem, read_store_ne _ _ hq' h.root hqj, read_eqOff hclear hq']
    rw [mem_singleton]
    exact hne q hq
  have hblank : ∀ j, ptRadix.child (ptRadix.read s'.mem c j) = none := by
    intro j
    rw [hzero]
    exact child_zero
  have hchild : ptRadix.child (ptRadix.read s'.mem p i) = some c := by
    rw [hlink]
    exact child_link hdvd (by unfold PHYSTOP KERNBASE at hlt; omega)
  have hread : ∀ j, j ≠ i → ptRadix.read s'.mem p j = ptRadix.read s.mem p j := fun j hj =>
    hother p j mem_nodes_self fun hh => hj hh.2
  have hsub : ∀ j d, ptRadix.child (ptRadix.read s.mem p j) = some d →
      ptRadix.Agree (ptRadix.nodes s.mem n d) s.mem s'.mem := by
    intro j d hd q hq k
    refine hother q k (mem_nodes_succ.mpr (.inr ⟨j, d, hd, hq⟩)) ?_
    rintro ⟨rfl, -⟩
    exact root_notMem_child h.nodes_nodup hd hq
  refine ⟨⟨⟨⟨hkend, htramp, ?_⟩, hre, ⟨[c], hfree.symm⟩, ?_, ?_⟩, fun k => ?_⟩, hchild⟩
  · rw [hmem]
    refine (hclear.mono ?_).trans ((eqOff_store (k := 8) _ _ h.root (by omega)
      (by unfold PGSIZE; omega)).mono ?_)
    · exact singleton_subset.mpr (mem_add.mpr (.inr hcf))
    · exact singleton_subset.mpr (mem_add.mpr (.inl mem_nodes_self))
  · have hch := nodes_change_child (n := n) hread fun j d _ hd =>
      nodes_congr (hsub j d hd)
    rw [hnone, hchild, elim_none, elim_some, add_zero,
      nodes_of_blank hblank] at hch
    rw [hch, hfree, add_assoc]
    rfl
  · refine linked_succ.mpr fun j d hd => ?_
    by_cases hj : j = i
    · subst hj
      cases hd.symm.trans hchild
      rw [hlink]
      exact ⟨isDir_link c, linked_of_blank hblank⟩
    · rw [hread j hj] at hd ⊢
      obtain ⟨hdir, hl⟩ := linked_succ.mp h.linked j d hd
      exact ⟨hdir, linked_congr (hsub j d hd) hl⟩
  · rw [get_succ, get_succ]
    by_cases hk : k (n + 1) = i
    · rw [hk, hnone, hchild, bind_none, bind_some]
      refine (get_of_blank hblank).imp id fun hz => ⟨rfl, ?_⟩
      rw [hz, hzero]
    · rw [hread _ hk]
      left
      cases hd : ptRadix.child (ptRadix.read s.mem p (k (n + 1))) with
      | none => rw [bind_none, bind_none]
      | some d =>
        rw [bind_some, bind_some]
        exact get_congr (hsub _ d hd) k

/-! ## The loop -/

theorem readPte_eq (s : Mach) (level p va : Nat) :
    readPte (p + 8 * PX level va) s =
      .ok (ptRadix.read s.mem p (vkey (va / PGSIZE) level), s) := by
  rw [PX_eq]
  rfl

/-- Without allocation the loop returns the address of the entry the tree has. -/
theorem walkFrom_false (s : Mach) (n p va : Nat) :
    walkFrom n p va false s =
      .ok ((ptRadix.slot s.mem n p (vkey (va / PGSIZE))).map (· + 8 * PX 0 va), s) := by
  induction n generalizing p with
  | zero =>
    rw [slot_zero]
    rfl
  | succ n ih =>
    rw [walkFrom, bind_ok (readPte_eq s _ p va), slot_succ]
    by_cases hv : ptRadix.read s.mem p (vkey (va / PGSIZE) (n + 1)) &&& PTE_V = 0
    · rw [if_neg (not_not.mpr hv), if_pos rfl, child_eq_none.mpr hv]
      rfl
    · rw [if_pos hv, ih, child_of_valid hv, bind_some]

/-- What the loop promises for `va`: a grown table, and the entry it has there, unless no page was
left. -/
def Walked (n p va : Nat) (s : Mach) (r : Option Nat) (s' : Mach) : Prop :=
  Grown n p s s' ∧ ∀ a, r = some a →
    ∃ q, ptRadix.slot s'.mem n p (vkey (va / PGSIZE)) = some q ∧ a = q + 8 * PX 0 va

theorem Walked.lift (h : TblOk s (n + 1) p)
    (hc : ptRadix.child (ptRadix.read s.mem p (vkey (va / PGSIZE) (n + 1))) = some c)
    (hw : Walked n c va s r s') : Walked (n + 1) p va s r s' := by
  obtain ⟨hg, hread⟩ := hw.1.lift h hc
  refine ⟨hg, fun a ha => ?_⟩
  rw [slot_succ, hread, hc, bind_some]
  exact hw.2 a ha

/-- **The allocating walk.** -/
theorem walkFrom_true (h : TblOk s n p) (va : Nat) :
    wp (walkFrom n p va true) (Walked n p va s) s := by
  induction n generalizing p s with
  | zero =>
    refine wp_pure ⟨Grown.of_eq h rfl rfl rfl rfl rfl, fun a ha => ⟨p, slot_zero, ?_⟩⟩
    exact (some.inj ha).symm
  | succ n ih =>
    rw [walkFrom]
    refine wp_bind (wp_of_eq (readPte_eq s _ p va) ?_)
    by_cases hv : ptRadix.read s.mem p (vkey (va / PGSIZE) (n + 1)) &&& PTE_V = 0
    · rw [if_neg (not_not.mpr hv), if_neg (by decide)]
      refine wp_seq (kalloc_spec s) ?_
      rintro r t ⟨hkend, htramp, hre, ⟨rfl, hfree, hmem⟩ | ⟨c, rfl, hfree, hmem⟩⟩
      · exact wp_pure ⟨Grown.of_eq h hmem hfree hkend htramp hre, fun a ha => by cases ha⟩
      · refine wp_bind (wp_modify (wp_bind (wp_modify ?_)))
        obtain ⟨hg, hc⟩ := Grown.link
          { t with mem := store 8 (fill t.mem c PGSIZE fun _ => 0) (p + 8 * PX (n + 1) va)
                            (PA2PTE c ||| PTE_V) }
          h (child_eq_none.mpr hv) hfree hkend htramp hre (by rw [hmem, PX_eq])
        refine wp_mono (ih ((h.edited hg.toEdited).child hc)) fun r s' hw => ?_
        have hl := hw.lift (h.edited hg.toEdited) hc
        exact ⟨hg.trans hl.1, hl.2⟩
    · rw [if_pos hv]
      exact wp_mono (ih (h.child (child_of_valid hv))) fun r s' hw =>
        hw.lift h (child_of_valid hv)

end Xv6
