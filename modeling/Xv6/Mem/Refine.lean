/-
# Xv6.Mem.Refine — a page table is a finite map.

The meaning of a page table is the partial map from virtual page numbers below `MAXVA/PGSIZE` to
physical pages with flags that `walk` without allocation reads.  On tables that are trees
`mappages`, `uvmunmap` and `uvmclear` act on that map alone: set a range, remove a range, clear one
flag.
-/
import Xv6.Mem.Map

namespace Xv6

open Lib Lib.Store Lib.Prog Multiset

/-! ## The abstract map -/

/-- A finite map from virtual page numbers to physical pages with flags. -/
abbrev PageMap := Nat → Option (Nat × Pte)

namespace PageMap

/-- Map the `n` pages from `v` on to `g 0, g 1, …`. -/
def insertRange (f : PageMap) (v n : Nat) (g : Nat → Nat × Pte) : PageMap := fun w =>
  if v ≤ w ∧ w < v + n then some (g (w - v)) else f w

/-- Remove the `n` pages from `v` on. -/
def eraseRange (f : PageMap) (v n : Nat) : PageMap := fun w =>
  if v ≤ w ∧ w < v + n then none else f w

/-- Clear `PTE_U` of page `v`. -/
def clearUser (f : PageMap) (v : Nat) : PageMap := fun w =>
  if w = v then (f w).map fun x => (x.1, x.2 &&& ~~~PTE_U) else f w

end PageMap

/-! ## The meaning of a table -/

/-- The mapping that an entry stands for. -/
def ptMapOf (e : Pte) : Option (Nat × Pte) :=
  if e &&& PTE_V ≠ 0 then some (PTE2PA e, PTE_FLAGS e) else none

/-- The mapping of page `v` as `walk` finds it: the physical page and the flags. -/
def ptMap (s : Mach) (root : Nat) : PageMap := fun v =>
  match walk root (v * PGSIZE) false s with
  | .ok (some pte, _) => ptMapOf (load 8 s.mem pte)
  | _ => none

variable {s s' : Mach} {root v : Nat}

/-- The map is the entry function, read through the valid bit. -/
theorem ptMap_eq (hv : v < MAXVA / PGSIZE) :
    ptMap s root v = ptMapOf (ptEntry s.mem root v) := by
  have hva : v * PGSIZE < MAXVA := by
    unfold PGSIZE MAXVA at *
    omega
  rw [ptMap, walk_false _ _ hva, vpn_mul]
  cases hs : ptRadix.slot s.mem 2 root (vkey v) with
  | none =>
    rw [ptEntry_of_slot_none hs]
    rfl
  | some q =>
    rw [ptEntry_of_slot hs]
    rfl

/-- There is nothing at or above `MAXVA`. -/
theorem ptMap_of_le (hv : MAXVA / PGSIZE ≤ v) : ptMap s root v = none := by
  have hva : v * PGSIZE ≥ MAXVA := by
    unfold PGSIZE MAXVA at *
    omega
  rw [ptMap, walk, if_pos hva]
  rfl

theorem ptMapOf_zero : ptMapOf 0 = none := if_neg (by decide)

theorem ptMapOf_eq_some :
    ptMapOf e = some x ↔ e &&& PTE_V ≠ 0 ∧ PTE2PA e = x.1 ∧ PTE_FLAGS e = x.2 := by
  rw [ptMapOf]
  by_cases h : e &&& PTE_V = 0
  · rw [if_neg (not_not.mpr h)]
    constructor
    · intro h'
      cases h'
    · intro h'
      exact absurd h h'.1
  · rw [if_pos h, Option.some.injEq, Prod.ext_iff]
    exact ⟨fun h' => ⟨h, h'⟩, fun h' => h'.2⟩

theorem leafPte_valid (pa : Nat) (perm : Pte) : leafPte pa perm &&& PTE_V ≠ 0 := by
  rw [leafPte, Ne, and_V_eq_zero, BitVec.getLsbD_or]
  simp [PTE_V]

/-- The entry of a mapped page means that page with those flags. -/
theorem ptMapOf_leafPte (hperm : IsFlags perm) (pa : Nat) :
    ptMapOf (leafPte pa perm) = some (PGROUNDDOWN (pa % 2 ^ 64), perm ||| PTE_V) := by
  have hflags : IsFlags (perm ||| PTE_V) := hperm.or (by decide)
  refine ptMapOf_eq_some.mpr ⟨leafPte_valid pa perm, ?_, ?_⟩
  · rw [leafPte, BitVec.or_assoc, ← PA2PTE_mod,
      PTE2PA_or (Nat.mod_lt _ (by decide)) hflags]
  · rw [leafPte, BitVec.or_assoc, PTE_FLAGS_or pa hflags]

theorem ptMapOf_clear (e : Pte) :
    ptMapOf (e &&& ~~~PTE_U) = (ptMapOf e).map fun x => (x.1, x.2 &&& ~~~PTE_U) := by
  have hV : e &&& ~~~PTE_U &&& PTE_V = e &&& PTE_V := by
    rw [BitVec.and_assoc]
    rfl
  have hF : PTE_FLAGS (e &&& ~~~PTE_U) = PTE_FLAGS e &&& ~~~PTE_U := by
    rw [PTE_FLAGS, PTE_FLAGS, BitVec.and_assoc, BitVec.and_assoc, BitVec.and_comm (~~~PTE_U)]
  rw [ptMapOf, ptMapOf, hV, hF, PTE2PA_and_not (by decide)]
  by_cases h : e &&& PTE_V = 0
  · rw [if_neg (not_not.mpr h), if_neg (not_not.mpr h)]
    rfl
  · rw [if_pos h, if_pos h]
    rfl

/-- The tree property: page-table pages are pairwise distinct and distinct from every mapped page,
and interior entries carry no access bits. -/
structure IsTree (s : Mach) (root : Nat) : Prop where
  tree : Tree s.mem root
  data : ∀ v x, ptMap s root v = some x → x.1 ∉ ptPages s.mem root

/-- What the allocator promises `walk`: the free list holds pages of the allocator's range, none
twice, none that the table uses or maps. -/
structure FreeOk (s : Mach) (root : Nat) : Prop where
  nodup : s.freelist.Nodup
  page : ∀ p ∈ s.freelist, s.IsPage p
  table : ∀ p ∈ s.freelist, p ∉ ptPages s.mem root
  data : ∀ v x, ptMap s root v = some x → x.1 ∉ s.freelist

theorem IsTree.tblOk (h : IsTree s root) (hf : FreeOk s root) : TblOk s 2 root where
  root := h.tree.root_dvd
  nodup := by
    refine nodup_add.mpr ⟨h.tree.nodup, coe_nodup.mpr hf.nodup, ?_⟩
    exact disjoint_right.mpr fun hp => hf.table _ hp
  linked := h.tree.linked
  free := hf.page

/-- A map is determined by the entries below `MAXVA/PGSIZE`. -/
theorem ptMap_ext
    (hlow : ∀ v < MAXVA / PGSIZE, ptMapOf (ptEntry s.mem root v) = f v)
    (hhigh : ∀ v, MAXVA / PGSIZE ≤ v → f v = none) : ptMap s root = f := by
  funext v
  rcases Nat.lt_or_ge v (MAXVA / PGSIZE) with hv | hv
  · rw [ptMap_eq hv, hlow v hv]
  · rw [ptMap_of_le hv, hhigh v hv]

theorem lt_NVPN (hv : v < MAXVA / PGSIZE) : v < NVPN := hv.trans_le (by decide)

/-! ## `mappages` -/

/-- The number of pages from `PGROUNDDOWN(va)` up to `PGROUNDDOWN(va+size-1)`, in 64 bits. -/
def pageCount (va size : Nat) : Nat :=
  (PGROUNDDOWN ((va + size - 1) % 2 ^ 64) + 2 ^ 64 - PGROUNDDOWN va) % 2 ^ 64 / PGSIZE + 1

/-- The physical page of the `i`-th page of a mapping that starts at `pa`. -/
def physPage (pa i : Nat) : Nat := (PGROUNDDOWN pa + i * PGSIZE) % 2 ^ 64

theorem physPage_eq (pa i : Nat) :
    PGROUNDDOWN ((pa + i * PGSIZE) % 2 ^ 64) = physPage pa i := by
  unfold physPage PGROUNDDOWN PGSIZE
  omega

/-- The pages that a run of `mappages` set are pages of the range, and all of it if it returned
0. -/
theorem MapRun.count (hva : va < 2 ^ 64)
    (h : MapRun root (va / PGSIZE) ((va + size - 1) % 2 ^ 64 / PGSIZE) pa perm s r s') :
    ∃ j, (∀ w < NVPN, ptEntry s'.mem root w = setRange (ptEntry s.mem root) (va / PGSIZE) j
        (fun i => leafPte (pa + i * PGSIZE) perm) w) ∧
      va / PGSIZE + j ≤ MAXVA / PGSIZE ∧
      ((r = 0 ∧ j = pageCount va size) ∨ (r = -1 ∧ j < pageCount va size)) := by
  obtain ⟨-, j, hj, hle, hres⟩ := h
  refine ⟨j, hj, hle, ?_⟩
  rw [pageCount, PGROUNDDOWN, PGROUNDDOWN]
  have hlt : (va + size - 1) % 2 ^ 64 < 2 ^ 64 := Nat.mod_lt _ (by decide)
  generalize (va + size - 1) % 2 ^ 64 = last at *
  rcases hres with ⟨rfl, hpos, heq⟩ | ⟨rfl, hne⟩
  · refine .inl ⟨rfl, ?_⟩
    unfold PGSIZE MAXVA at *
    omega
  · refine .inr ⟨rfl, ?_⟩
    have := hne (last / PGSIZE - va / PGSIZE)
    unfold PGSIZE MAXVA at *
    omega

/-- **`mappages`** sets a prefix of the range, all of it if it returns 0, and keeps the tree. -/
theorem mappages_refines (h : IsTree s root)
    (hf : FreeOk s root) (hva : va < 2 ^ 64) (hperm : IsFlags perm)
    (hdata : ∀ i < pageCount va size,
      physPage pa i ∉ ptPages s.mem root ∧ physPage pa i ∉ s.freelist)
    (hrun : mappages root va size pa perm s = .ok (r, s')) :
    IsTree s' root ∧ ∃ j, ((r = 0 ∧ j = pageCount va size) ∨ (r = -1 ∧ j < pageCount va size)) ∧
      ptMap s' root = (ptMap s root).insertRange (va / PGSIZE) j
        fun i => (physPage pa i, perm ||| PTE_V) := by
  rw [mappages] at hrun
  by_cases hsize : size = 0
  · rw [if_pos hsize] at hrun
    cases hrun
  rw [if_neg hsize] at hrun
  have hmap := mappagesLoop_run (h.tblOk hf) r s' hrun
  obtain ⟨j, hj, hle, hres⟩ := hmap.count hva
  have hins : ptMap s' root = (ptMap s root).insertRange (va / PGSIZE) j
      fun i => (physPage pa i, perm ||| PTE_V) := by
    refine ptMap_ext (fun v hv => ?_) fun v hv => ?_
    · rw [hj v (lt_NVPN hv), setRange, PageMap.insertRange]
      split
      · rw [ptMapOf_leafPte hperm, physPage_eq]
      · rw [ptMap_eq hv]
    · rw [PageMap.insertRange, if_neg (by omega), ptMap_of_le hv]
  refine ⟨⟨((h.tblOk hf).edited hmap.edited).tree, fun v x hx hin => ?_⟩, j, hres, hins⟩
  -- a page-table page of `s'` was one of `s`, or free
  have hold : x.1 ∈ ptPages s.mem root + s.freelist :=
    hmap.edited.nodes ▸ mem_add.mpr (.inl hin)
  rw [mem_add] at hold
  rw [hins, PageMap.insertRange] at hx
  split at hx
  next hv =>
    cases hx
    have := hdata (v - va / PGSIZE) (by omega)
    exact hold.elim this.1 this.2
  next => exact hold.elim (h.data v x hx) (hf.data v x hx)

/-! ## `uvmunmap` and `uvmclear` -/

/-- **`uvmunmap`** of mapped leaves removes them, and keeps the tree. -/
theorem uvmunmap_refines (h : IsTree s root) (hva : PGSIZE ∣ va)
    (hmap : ∀ i < n, ∃ x, ptMap s root (va / PGSIZE + i) = some x ∧ x.2 ≠ PTE_V ∧
      (doFree = true → s.IsPage x.1)) :
    ∃ s', uvmunmap root va n doFree s = .ok ((), s') ∧ IsTree s' root ∧
      ptMap s' root = (ptMap s root).eraseRange (va / PGSIZE) n := by
  have hlt : ∀ i < n, va / PGSIZE + i < MAXVA / PGSIZE := by
    intro i hi
    obtain ⟨x, hx, -⟩ := hmap i hi
    by_contra hge
    rw [ptMap_of_le (Nat.le_of_not_lt hge)] at hx
    cases hx
  have hrange : n = 0 ∨ va / PGSIZE + n ≤ MAXVA / PGSIZE := by
    rcases Nat.eq_zero_or_pos n with hn | hn
    · exact .inl hn
    · have := hlt (n - 1) (by omega)
      omega
  have hrem : ∀ w, va / PGSIZE ≤ w → w < va / PGSIZE + n →
      Removable s root doFree (ptEntry s.mem root w) := by
    intro w hw hw'
    obtain ⟨x, hx, hleaf, hpage⟩ := hmap (w - va / PGSIZE) (by omega)
    have hwlt := hlt (w - va / PGSIZE) (by omega)
    rw [show va / PGSIZE + (w - va / PGSIZE) = w by omega] at hx hwlt
    have hnot := h.data w x hx
    rw [ptMap_eq hwlt] at hx
    obtain ⟨hvalid, hpa, hfl⟩ := ptMapOf_eq_some.mp hx
    exact ⟨hvalid, hfl ▸ hleaf, fun hd => hpa ▸ ⟨hpage hd, hnot⟩⟩
  obtain ⟨⟨⟩, s', hrun, hun⟩ : wp (uvmunmap root (va / PGSIZE * PGSIZE) n doFree)
      (fun _ s' => Unmapped root (va / PGSIZE) n doFree s s') s := by
    rcases hrange with rfl | hle
    · -- no iteration, whatever the address
      rw [uvmunmap, if_neg (by simp), show (va / PGSIZE * PGSIZE + 0 * PGSIZE) % 2 ^ 64 -
        va / PGSIZE * PGSIZE + PGSIZE - 1 = PGSIZE - 1 by unfold PGSIZE; omega]
      exact wp_pure (Unmapped.refl h.tree)
    · exact uvmunmap_spec h.tree hle hrem
  rw [Nat.div_mul_cancel hva] at hrun
  have herase : ptMap s' root = (ptMap s root).eraseRange (va / PGSIZE) n := by
    refine ptMap_ext (fun v hv => ?_) fun v hv => ?_
    · rw [hun.entry v (lt_NVPN hv), setRange, PageMap.eraseRange]
      split
      · exact ptMapOf_zero
      · rw [ptMap_eq hv]
    · rw [PageMap.eraseRange, ptMap_of_le hv, ite_self]
  refine ⟨s', hrun, ⟨hun.tree, fun v x hx => ?_⟩, herase⟩
  rw [herase, PageMap.eraseRange] at hx
  rw [hun.pages]
  split at hx
  next => cases hx
  next => exact h.data v x hx

/-- **`uvmclear`** clears `PTE_U` of one page, and keeps the tree. -/
theorem uvmclear_refines (h : IsTree s root)
    (hrun : uvmclear root va s = .ok ((), s')) :
    IsTree s' root ∧ ptMap s' root = (ptMap s root).clearUser (va / PGSIZE) := by
  have hva : va < MAXVA := by
    by_contra hge
    rw [uvmclear, bind_error (e := "walk") (by rw [walk, if_pos (by omega)]; rfl)] at hrun
    cases hrun
  rcases uvmclear_cases h.tree hva with ⟨-, heq⟩ | ⟨t, heq, hset⟩ <;> rw [heq] at hrun
  · cases hrun
  · cases hrun
    have hclear : ptMap s' root = (ptMap s root).clearUser (va / PGSIZE) := by
      refine ptMap_ext (fun v hv => ?_) fun v hv => ?_
      · rw [hset.entry v (lt_NVPN hv), PageMap.clearUser, ptMap_eq hv]
        split
        next hvv => rw [hvv, ptMapOf_clear]
        next => rfl
      · rw [PageMap.clearUser, ptMap_of_le hv, Option.map_none, ite_self]
    refine ⟨⟨hset.tree, fun v x hx => ?_⟩, hclear⟩
    rw [hset.pages]
    rw [hclear, PageMap.clearUser] at hx
    split at hx
    next =>
      obtain ⟨y, hy, rfl⟩ := Option.map_eq_some_iff.mp hx
      exact h.data v y hy
    next => exact h.data v x hx

/-! ## The refinement -/

/-- **A three-level table refines a finite map.** -/
theorem pageTable_refines_map (h : IsTree s root) (hf : FreeOk s root) :
    (∀ va size pa perm r s', va < 2 ^ 64 → IsFlags perm →
      (∀ i < pageCount va size,
        physPage pa i ∉ ptPages s.mem root ∧ physPage pa i ∉ s.freelist) →
      mappages root va size pa perm s = .ok (r, s') →
      IsTree s' root ∧
        ∃ j, ((r = 0 ∧ j = pageCount va size) ∨ (r = -1 ∧ j < pageCount va size)) ∧
          ptMap s' root = (ptMap s root).insertRange (va / PGSIZE) j
            fun i => (physPage pa i, perm ||| PTE_V)) ∧
    (∀ va n doFree, PGSIZE ∣ va →
      (∀ i < n, ∃ x, ptMap s root (va / PGSIZE + i) = some x ∧ x.2 ≠ PTE_V ∧
        (doFree = true → s.IsPage x.1)) →
      ∃ s', uvmunmap root va n doFree s = .ok ((), s') ∧ IsTree s' root ∧
        ptMap s' root = (ptMap s root).eraseRange (va / PGSIZE) n) ∧
    (∀ va s', uvmclear root va s = .ok ((), s') →
      IsTree s' root ∧ ptMap s' root = (ptMap s root).clearUser (va / PGSIZE)) :=
  ⟨fun _ _ _ _ _ _ hva hperm hdata hrun => mappages_refines h hf hva hperm hdata hrun,
    fun _ _ _ hva hmap => uvmunmap_refines h hva hmap,
    fun _ _ hrun => uvmclear_refines h hrun⟩

/-- A machine with an empty table at `KERNBASE` and two free pages. -/
def emptyTable : Mach where
  kend := KERNBASE
  trampoline := KERNBASE
  mem := fun _ => 0
  freelist := [KERNBASE + PGSIZE, KERNBASE + 2 * PGSIZE]
  fails := []
  refreed := false

theorem read_emptyTable (i : Fin 512) : ptRadix.read emptyTable.mem KERNBASE i = 0 := by
  apply BitVec.eq_of_getLsbD_eq
  intro j hj
  exact (getLsbD_load (k := 8) _ _ j hj).trans (by simp [emptyTable])

theorem ptMap_emptyTable (v : Nat) : ptMap emptyTable KERNBASE v = none := by
  rcases Nat.lt_or_ge v (MAXVA / PGSIZE) with hv | hv
  · rw [ptMap_eq hv, ptEntry_blank read_emptyTable]
    exact ptMapOf_zero
  · exact ptMap_of_le hv

theorem isTree_emptyTable : IsTree emptyTable KERNBASE where
  tree := Tree.blank read_emptyTable (by decide)
  data v x hx := by
    rw [ptMap_emptyTable] at hx
    cases hx

theorem freeOk_emptyTable : FreeOk emptyTable KERNBASE where
  nodup := by decide
  page := by
    show ∀ p ∈ [KERNBASE + PGSIZE, KERNBASE + 2 * PGSIZE], PGSIZE ∣ p ∧ KERNBASE ≤ p ∧ p < PHYSTOP
    decide
  table := by
    rw [ptPages_blank read_emptyTable]
    decide
  data v x hx := by
    rw [ptMap_emptyTable] at hx
    cases hx

/-- The refinement at work: on the empty table, the page after the free ones is mapped at address
0. -/
theorem pageTable_refines_map_emptyTable :
    ∃ s', mappages KERNBASE 0 PGSIZE (KERNBASE + 3 * PGSIZE) PTE_R emptyTable = .ok (0, s') ∧
      IsTree s' KERNBASE ∧
      ptMap s' KERNBASE = (ptMap emptyTable KERNBASE).insertRange 0 1
        fun i => (physPage (KERNBASE + 3 * PGSIZE) i, PTE_R ||| PTE_V) := by
  obtain ⟨r, s', hrun, hr⟩ := of_test (P := fun r _ => decide (r = 0)) (show
    (mappages KERNBASE 0 PGSIZE (KERNBASE + 3 * PGSIZE) PTE_R).test emptyTable _ = true by
      decide +kernel)
  cases of_decide_eq_true hr
  obtain ⟨htree, j, ⟨-, rfl⟩ | ⟨hr, -⟩, hmap⟩ :=
    (pageTable_refines_map isTree_emptyTable freeOk_emptyTable).1 0 PGSIZE _ _ _ _ (by decide)
      (by decide) (by rw [ptPages_blank read_emptyTable]; decide) hrun
  · exact ⟨s', hrun, htree, hmap⟩
  · cases hr

/-- **What the refinement needs.** On the empty table, `mappages` of the table's own root page
succeeds and leaves no tree; a permission word with a bit above the flags maps another page; and a
page mapped without access bits cannot be unmapped. -/
theorem pageTable_refinement_limits :
    IsTree emptyTable KERNBASE ∧ FreeOk emptyTable KERNBASE ∧
    (∃ s', mappages KERNBASE 0 PGSIZE KERNBASE PTE_R emptyTable = .ok (0, s') ∧
      ¬IsTree s' KERNBASE) ∧
    (∃ s', mappages KERNBASE 0 PGSIZE (KERNBASE + 4 * PGSIZE) 0x400#64 emptyTable = .ok (0, s') ∧
      ptMap s' KERNBASE 0 = some (KERNBASE + 5 * PGSIZE, PTE_V)) ∧
    (∃ s', mappages KERNBASE 0 PGSIZE (KERNBASE + 3 * PGSIZE) 0 emptyTable = .ok (0, s') ∧
      ptMap s' KERNBASE 0 = some (KERNBASE + 3 * PGSIZE, PTE_V) ∧
      uvmunmap KERNBASE 0 1 false s' = .error "uvmunmap: not a leaf") := by
  refine ⟨isTree_emptyTable, freeOk_emptyTable, ?_, ?_, ?_⟩
  · obtain ⟨r, s', hrun, ht⟩ := of_test (x := mappages KERNBASE 0 PGSIZE KERNBASE PTE_R)
      (s := emptyTable)
      (P := fun r s' => decide (r = 0 ∧ ptMap s' KERNBASE 0 = some (KERNBASE, PTE_R ||| PTE_V)))
      (by decide +kernel)
    obtain ⟨rfl, hmap⟩ := of_decide_eq_true ht
    exact ⟨s', hrun, fun h => h.data 0 _ hmap Radix.mem_nodes_self⟩
  · obtain ⟨r, s', hrun, ht⟩ := of_test
      (x := mappages KERNBASE 0 PGSIZE (KERNBASE + 4 * PGSIZE) 0x400#64) (s := emptyTable)
      (P := fun r s' => decide (r = 0 ∧ ptMap s' KERNBASE 0 = some (KERNBASE + 5 * PGSIZE, PTE_V)))
      (by decide +kernel)
    obtain ⟨rfl, hmap⟩ := of_decide_eq_true ht
    exact ⟨s', hrun, hmap⟩
  · obtain ⟨r, s', hrun, ht⟩ := of_test
      (x := mappages KERNBASE 0 PGSIZE (KERNBASE + 3 * PGSIZE) 0) (s := emptyTable)
      (P := fun r s' => decide (r = 0 ∧
        ptMap s' KERNBASE 0 = some (KERNBASE + 3 * PGSIZE, PTE_V) ∧
        (uvmunmap KERNBASE 0 1 false).stops s' "uvmunmap: not a leaf" = true))
      (by decide +kernel)
    obtain ⟨rfl, hmap, hstop⟩ := of_decide_eq_true ht
    exact ⟨s', hrun, hmap, of_stops hstop⟩

end Xv6
