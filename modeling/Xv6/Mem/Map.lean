/-
# Xv6.Mem.Map — `mappages`, `uvmunmap` and `uvmclear`.

Each loop is one step on the entry function: `mappages` sets the entry of the next page, `uvmunmap`
clears it and may free the page it named.  The run of a loop is the step, by induction on its
iterations.
-/
import Xv6.Mem.Entry

namespace Xv6

open Lib Lib.Store Lib.Prog Multiset Nat

variable {n : Nat} {f g : Nat → Pte} {doFree : Bool}

/-- `f` with the entries of the `n` pages from `v` on replaced by `g 0, g 1, …`. -/
def setRange (f : Nat → Pte) (v n : Nat) (g : Nat → Pte) : Nat → Pte := fun w =>
  if v ≤ w ∧ w < v + n then g (w - v) else f w

@[simp] theorem setRange_zero (f : Nat → Pte) (v : Nat) (g : Nat → Pte) :
    setRange f v 0 g = f := by
  funext w
  exact if_neg (by omega)

theorem setRange_of_mem (h₁ : v ≤ w) (h₂ : w < v + n) :
    setRange f v n g w = g (w - v) :=
  if_pos ⟨h₁, h₂⟩

theorem setRange_of_notMem (h : w < v ∨ v + n ≤ w) : setRange f v n g w = f w :=
  if_neg (by omega)

/-- One page, then the rest. -/
theorem setRange_succ (f g : Nat → Pte) (v n w : Nat) :
    setRange f v (n + 1) g w =
      setRange (fun u => if u = v then g 0 else f u) (v + 1) n (fun i => g (i + 1)) w := by
  rcases lt_trichotomy w v with h | rfl | h
  · rw [setRange_of_notMem (.inl h), setRange_of_notMem (.inl (by omega)), if_neg (by omega)]
  · rw [setRange_of_mem le_rfl (by omega), setRange_of_notMem (.inl (by omega)), if_pos rfl,
      Nat.sub_self]
  · by_cases hw : w < v + (n + 1)
    · rw [setRange_of_mem h.le hw, setRange_of_mem h (by omega),
        show w - (v + 1) + 1 = w - v by omega]
    · rw [setRange_of_notMem (.inr (by omega)), setRange_of_notMem (.inr (by omega)),
        if_neg (by omega)]

/-- The entry that `mappages` writes. -/
def leafPte (pa : Nat) (perm : Pte) : Pte := PA2PTE pa ||| perm ||| PTE_V

theorem PA2PTE_mod (pa : Nat) : PA2PTE (pa % 2 ^ 64) = PA2PTE pa := by
  have h : BitVec.ofNat 64 (pa % 2 ^ 64) = BitVec.ofNat 64 pa := by
    apply BitVec.eq_of_toNat_eq
    simp
  rw [PA2PTE, PA2PTE, h]

theorem leafPte_next (pa i : Nat) (perm : Pte) :
    leafPte ((pa + PGSIZE) % 2 ^ 64 + i * PGSIZE) perm = leafPte (pa + (i + 1) * PGSIZE) perm := by
  rw [leafPte, leafPte, ← PA2PTE_mod, mod_add_mod, PA2PTE_mod, succ_mul, add_assoc,
    add_comm PGSIZE]

variable {s s' : Mach} {root v : Nat} {perm : Pte}

theorem vpn_mul (v : Nat) : v * PGSIZE / PGSIZE = v := Nat.mul_div_cancel v (by decide)

/-! ## `mappages` -/

/-- One iteration of `mappages`: no page for the table, a page that is mapped already, or the entry
of the page set and the next iteration. -/
theorem mappagesLoop_step (h : TblOk s 2 root) (hv : v * PGSIZE < MAXVA) :
    (∃ s', Grown 2 root s s' ∧
      mappagesLoop root last perm (fuel + 1) (v * PGSIZE) pa s = .ok (-1, s')) ∨
    (ptEntry s.mem root v &&& PTE_V ≠ 0 ∧
      mappagesLoop root last perm (fuel + 1) (v * PGSIZE) pa s = .error "mappages: remap") ∨
    (∃ s', Edited 2 root s s' ∧
      (∀ w < NVPN, ptEntry s'.mem root w =
        if w = v then leafPte pa perm else ptEntry s.mem root w) ∧
      mappagesLoop root last perm (fuel + 1) (v * PGSIZE) pa s =
        (if v * PGSIZE = last then pure 0 else
          mappagesLoop root last perm fuel (v * PGSIZE + PGSIZE) ((pa + PGSIZE) % 2 ^ 64)) s') := by
  obtain ⟨r, t, hwalk, hg, hpte⟩ := walk_true h hv
  rw [mappagesLoop, bind_ok hwalk]
  cases r with
  | none => exact .inl ⟨t, hg, rfl⟩
  | some pte =>
    obtain ⟨hload, hstore⟩ := hpte pte rfl
    rw [vpn_mul] at hload hstore
    have hread : readPte pte t = .ok (ptEntry s.mem root v, t) := by rw [readPte, hload]
    right
    dsimp only
    rw [bind_ok hread]
    by_cases hfree : ptEntry s.mem root v &&& PTE_V = 0
    · rw [if_neg (not_not.mpr hfree)]
      exact .inr ⟨_, (hstore _).1, (hstore _).2, bind_ok rfl⟩
    · rw [if_pos hfree]
      exact .inl ⟨hfree, rfl⟩

/-- **One page.** `mappages` of one unmapped page sets its entry, or finds no page for the table and
changes no entry. -/
theorem mappages_page (pa : Nat) (perm : Pte) (h : TblOk s 2 root) (hv : v * PGSIZE < MAXVA)
    (hfree : ptEntry s.mem root v &&& PTE_V = 0) :
    wp (mappages root (v * PGSIZE) PGSIZE pa perm) (fun r s' => Edited 2 root s s' ∧
      ((r = 0 ∧ ∀ w < NVPN, ptEntry s'.mem root w =
          if w = v then leafPte pa perm else ptEntry s.mem root w) ∨
        (r = -1 ∧ ∀ w, ptEntry s'.mem root w = ptEntry s.mem root w))) s := by
  have hlast : PGROUNDDOWN ((v * PGSIZE + PGSIZE - 1) % 2 ^ 64) = v * PGSIZE := by
    unfold PGROUNDDOWN PGSIZE MAXVA at *
    omega
  have hdown : PGROUNDDOWN (v * PGSIZE) = v * PGSIZE := by rw [PGROUNDDOWN, vpn_mul]
  rw [mappages, if_neg (by decide), hlast, hdown]
  rcases mappagesLoop_step h hv with ⟨s', hg, heq⟩ | ⟨hmapped, -⟩ | ⟨s', hed, hentry, heq⟩
  · exact wp_of_eq heq ⟨hg.toEdited, .inr ⟨rfl, hg.ptEntry⟩⟩
  · exact absurd hfree hmapped
  · rw [if_pos rfl] at heq
    exact wp_of_eq heq ⟨hed, .inl ⟨rfl, hentry⟩⟩

/-- What a run of `mappages` over pages `v, …, u` promises: it set the entries of a prefix, all of it
if it returns 0. -/
structure MapRun (root v u pa : Nat) (perm : Pte) (s : Mach) (r : Int) (s' : Mach) : Prop where
  edited : Edited 2 root s s'
  run : ∃ j, (∀ w < NVPN, ptEntry s'.mem root w =
      setRange (ptEntry s.mem root) v j (fun i => leafPte (pa + i * PGSIZE) perm) w) ∧
    v + j ≤ MAXVA / PGSIZE ∧
    ((r = 0 ∧ 0 < j ∧ v + j = u + 1) ∨ (r = -1 ∧ ∀ i < j, v + i ≠ u))

/-- The loop of `mappages`, by induction on its iterations. -/
theorem mappagesLoop_run (h : TblOk s 2 root) :
    wlp (mappagesLoop root (u * PGSIZE) perm fuel (v * PGSIZE) pa) (MapRun root v u pa perm s)
      s := by
  induction fuel generalizing s v pa with
  | zero => exact wlp_stop
  | succ fuel ih =>
    by_cases hv : v * PGSIZE < MAXVA
    swap
    · rw [mappagesLoop, walk, if_pos (by omega)]
      exact wlp_bind wlp_stop
    have hv' : v + 1 ≤ MAXVA / PGSIZE := by
      unfold PGSIZE MAXVA at *
      omega
    intro r s' hrun
    rcases mappagesLoop_step h hv with ⟨t, hg, heq⟩ | ⟨-, heq⟩ | ⟨t, hed, hentry, heq⟩ <;>
      rw [heq] at hrun
    · cases hrun
      exact ⟨hg.toEdited, 0, fun w _ => by rw [setRange_zero, hg.ptEntry], by omega,
        .inr ⟨rfl, by omega⟩⟩
    · cases hrun
    · by_cases huv : v = u
      · rw [if_pos (by rw [huv])] at hrun
        cases hrun
        refine ⟨hed, 1, fun w hw => ?_, hv', .inl ⟨rfl, by omega, by omega⟩⟩
        rw [hentry w hw, setRange_succ, setRange_zero, zero_mul, add_zero]
      · have hne : v * PGSIZE ≠ u * PGSIZE := fun heq =>
          huv (eq_of_mul_eq_mul_right (by decide) heq)
        rw [if_neg hne, ← add_one_mul] at hrun
        obtain ⟨hed', j, hj, hle, hres⟩ := ih (h.edited hed) r s' hrun
        refine ⟨hed.trans hed', j + 1, fun w hw => ?_, by omega, ?_⟩
        · rw [hj w hw, setRange_succ, setRange, setRange, hentry w hw, zero_mul]
          simp only [leafPte_next, add_zero]
        · rcases hres with ⟨rfl, hpos, hu⟩ | ⟨rfl, hu⟩
          · exact .inl ⟨rfl, by omega, by omega⟩
          · refine .inr ⟨rfl, fun i hi => ?_⟩
            cases i with
            | zero => exact huv
            | succ i =>
              have := hu i (by omega)
              omega

/-! ## `uvmunmap` -/

/-- The physical pages that the `n` entries from `v` on name. -/
def mapped (f : Nat → Pte) (v n : Nat) : List Nat := (List.range' v n).map fun w => PTE2PA (f w)

theorem mapped_succ (f : Nat → Pte) (v n : Nat) :
    mapped f v (n + 1) = PTE2PA (f v) :: mapped f (v + 1) n := rfl

theorem mem_mapped : p ∈ mapped f v n ↔ ∃ w, v ≤ w ∧ w < v + n ∧ PTE2PA (f w) = p := by
  simp only [mapped, List.mem_map, List.mem_range'_1, and_assoc]

theorem mapped_congr_page (h : ∀ w, v ≤ w → w < v + n → PTE2PA (f w) = PTE2PA (g w)) :
    mapped f v n = mapped g v n := by
  refine List.map_congr_left fun w hw => ?_
  rw [List.mem_range'_1] at hw
  rw [h w hw.1 hw.2]

theorem mapped_congr (h : ∀ w, v ≤ w → w < v + n → f w = g w) :
    mapped f v n = mapped g v n :=
  mapped_congr_page fun w h1 h2 => by rw [h w h1 h2]

/-- What `uvmunmap` asks of an entry: a mapped leaf and, to free its page, a page of the allocator
that is not part of the table. -/
structure Removable (s : Mach) (root : Nat) (doFree : Bool) (e : Pte) : Prop where
  valid : e &&& PTE_V ≠ 0
  leaf : PTE_FLAGS e ≠ PTE_V
  page : doFree = true → s.IsPage (PTE2PA e) ∧ PTE2PA e ∉ ptPages s.mem root

/-- From `s` to `s'` the `n` mappings from `v` on were removed, and their pages freed if
`doFree`. -/
structure Unmapped (root v n : Nat) (doFree : Bool) (s s' : Mach) : Prop where
  touches : Touches (ptPages s.mem root +
    if doFree then (mapped (ptEntry s.mem root) v n : Multiset Nat) else 0) s s'
  pages : ptPages s'.mem root = ptPages s.mem root
  tree : Tree s'.mem root
  freelist : s'.freelist =
    (if doFree then (mapped (ptEntry s.mem root) v n).reverse else []) ++ s.freelist
  entry : ∀ w < NVPN, ptEntry s'.mem root w = setRange (ptEntry s.mem root) v n (fun _ => 0) w
  refreed : (doFree = true → (mapped (ptEntry s.mem root) v n ++ s.freelist).Nodup) →
    s'.refreed = s.refreed

/-- One iteration of `uvmunmap`. -/
theorem uvmunmapLoop_step (ht : Tree s.mem root) (hv : v * PGSIZE < MAXVA)
    (he : Removable s root doFree (ptEntry s.mem root v)) :
    ∃ s', Unmapped root v 1 doFree s s' ∧
      uvmunmapLoop root doFree (n + 1) (v * PGSIZE) s =
        uvmunmapLoop root doFree n (v * PGSIZE + PGSIZE) s' := by
  have hvpn := vpn_lt hv
  rw [vpn_mul] at hvpn
  have hwalk := walk_false s root hv
  rw [vpn_mul] at hwalk
  cases hs : ptRadix.slot s.mem 2 root (vkey v) with
  | none =>
    have := he.valid
    rw [ptEntry_of_slot_none hs] at this
    exact absurd (by decide) this
  | some q =>
    rw [hs, Option.map_some] at hwalk
    have hread : readPte (q + 8 * vkey v 0) s = .ok (ptEntry s.mem root v, s) := by
      rw [ptEntry_of_slot hs]
      rfl
    rw [uvmunmapLoop, bind_ok hwalk]
    dsimp only
    rw [bind_ok hread, if_neg he.valid, if_neg he.leaf]
    -- the page is freed first, which leaves the table alone; then the entry is cleared
    obtain ⟨t, hfree, htouch, hlist, hre⟩ : ∃ t,
        (if doFree then kfree (PTE2PA (ptEntry s.mem root v)) else pure ()) s = .ok ((), t) ∧
        Touches (if doFree then {PTE2PA (ptEntry s.mem root v)} else 0) s t ∧
        t.freelist = (if doFree then [PTE2PA (ptEntry s.mem root v)] else []) ++ s.freelist ∧
        ((doFree = true → PTE2PA (ptEntry s.mem root v) ∉ s.freelist) →
          t.refreed = s.refreed) := by
      cases doFree with
      | false => exact ⟨s, rfl, Touches.refl _ _, rfl, fun _ => rfl⟩
      | true =>
        obtain ⟨⟨⟩, t, hk, hl, hto, hr⟩ := kfree_spec (he.page rfl).1
        refine ⟨t, hk, hto, hl, fun hnot => ?_⟩
        rw [hr, List.contains_eq_mem, decide_eq_false (hnot rfl), Bool.or_false]
    have hagree : ptRadix.Agree (ptPages s.mem root) s.mem t.mem := by
      refine ht.agree htouch.mem fun p hp hin => ?_
      cases doFree with
      | false => simp at hin
      | true =>
        rw [if_pos rfl, mem_singleton] at hin
        exact (he.page rfl).2 (hin ▸ hp)
    have htt := ht.congr hagree
    have hst : ptRadix.slot t.mem 2 root (vkey v) = some q := by
      rw [Radix.slot_congr hagree, hs]
    have hpages : ptPages t.mem root = ptPages s.mem root := Radix.nodes_congr hagree
    refine ⟨{ t with mem := store 8 t.mem (q + 8 * vkey v 0) 0 },
      ⟨⟨htouch.kend, htouch.trampoline, ?_⟩, ?_, htt.set hst 0, ?_, fun w hw => ?_, ?_⟩,
      (bind_ok hfree).trans (bind_ok rfl)⟩
    · refine (htouch.mem.mono fun p hp => ?_).trans
        ((htt.eqOff_set hst 0).mono fun p hp => ?_)
      · refine mem_add.mpr (.inr ?_)
        cases doFree with
        | false => exact hp
        | true => exact hp
      · exact mem_add.mpr (.inl (hpages ▸ hp))
    · exact (htt.ptPages_set hst 0).trans hpages
    · cases doFree with
      | false | true => exact hlist
    · show ptEntry (store 8 t.mem (q + 8 * vkey v 0) 0) root w = _
      rw [htt.ptEntry_set hst 0 hvpn hw, setRange_succ, setRange_zero, ptEntry_congr hagree]
    · intro hnd
      refine hre fun hd => ?_
      exact (List.nodup_cons.mp (hnd hd)).1

theorem Unmapped.refl (ht : Tree s.mem root) : Unmapped root v 0 doFree s s where
  touches := Touches.refl _ _
  pages := rfl
  tree := ht
  freelist := by cases doFree <;> rfl
  entry w _ := by rw [setRange_zero]
  refreed _ := rfl

/-- One page, then the rest. -/
theorem Unmapped.cons {t : Mach} (hvn : v + (n + 1) ≤ NVPN) (h₁ : Unmapped root v 1 doFree s t)
    (h₂ : Unmapped root (v + 1) n doFree t s') : Unmapped root v (n + 1) doFree s s' := by
  have hlater : ∀ w, v + 1 ≤ w → w < v + 1 + n → ptEntry t.mem root w = ptEntry s.mem root w := by
    intro w hw hw'
    rw [h₁.entry w (by omega), setRange_of_notMem (.inr hw)]
  have hmap : mapped (ptEntry t.mem root) (v + 1) n = mapped (ptEntry s.mem root) (v + 1) n :=
    mapped_congr hlater
  have hfirst : mapped (ptEntry s.mem root) v 1 = [PTE2PA (ptEntry s.mem root v)] := rfl
  obtain ⟨hto1, hpg1, -, hfl1, hen1, hre1⟩ := h₁
  obtain ⟨hto2, hpg2, htr2, hfl2, hen2, hre2⟩ := h₂
  rw [hmap] at hto2 hfl2 hre2
  rw [hfirst] at hto1 hfl1 hre1
  refine ⟨(hto1.mono ?_).trans (hto2.mono ?_), hpg2.trans hpg1, htr2, ?_, fun w hw => ?_,
    fun hnd => ?_⟩
  · refine subset_of_le (add_le_add_right ?_ _)
    cases doFree with
    | false => exact le_rfl
    | true =>
      exact coe_le.mpr (List.singleton_sublist.mpr List.mem_cons_self).subperm
  · rw [hpg1]
    refine subset_of_le (add_le_add_right ?_ _)
    cases doFree with
    | false => exact le_rfl
    | true =>
      exact coe_le.mpr (List.sublist_cons_self _ _).subperm
  · rw [hfl2, hfl1]
    cases doFree with
    | false => rfl
    | true => simp [mapped_succ]
  · rw [hen2 w hw, setRange_succ, setRange, setRange, hen1 w hw, setRange_succ, setRange_zero]
  · cases doFree with
    | false => rw [hre2 (by simp), hre1 (by simp)]
    | true =>
      have hnd' := hnd rfl
      rw [mapped_succ, List.cons_append, List.nodup_cons] at hnd'
      rw [hre2, hre1]
      · intro _
        rw [List.singleton_append, List.nodup_cons]
        exact ⟨fun hin => hnd'.1 (List.mem_append_right _ hin), (List.nodup_append.mp hnd'.2).2.1⟩
      · intro _
        rw [hfl1, if_pos rfl, List.reverse_singleton, List.singleton_append]
        exact (List.perm_middle.nodup_iff).mpr (List.nodup_cons.mpr hnd')

section

variable (ht : Tree s.mem root) (hvn : v + n ≤ MAXVA / PGSIZE)
  (he : ∀ w, v ≤ w → w < v + n → Removable s root doFree (ptEntry s.mem root w))

include ht hvn he

/-- **The loop of `uvmunmap`**, by induction on its iterations. -/
theorem uvmunmapLoop_run :
    wp (uvmunmapLoop root doFree n (v * PGSIZE)) (fun _ s' => Unmapped root v n doFree s s') s := by
  induction n generalizing s v with
  | zero => exact wp_pure (Unmapped.refl ht)
  | succ n ih =>
    have hNVPN : v + (n + 1) ≤ NVPN := hvn.trans (by decide)
    have hv : v * PGSIZE < MAXVA := by
      unfold PGSIZE MAXVA at *
      omega
    obtain ⟨t, hstep, heq⟩ := uvmunmapLoop_step (n := n) ht hv (he v le_rfl (by omega))
    obtain ⟨⟨⟩, s', hrun, hun⟩ := ih (s := t) (v := v + 1) hstep.tree (by omega) fun w hw hw' => by
      obtain ⟨hvalid, hleaf, hpage⟩ := he w (by omega) (by omega)
      rw [hstep.entry w (by omega), setRange_of_notMem (.inr hw)]
      refine ⟨hvalid, hleaf, fun hd => ?_⟩
      rw [hstep.touches.isPage, hstep.pages]
      exact hpage hd
    rw [add_one_mul] at hrun
    exact wp_of_eq (heq.trans hrun) (hstep.cons hNVPN hun)

/-- **`uvmunmap`** of mapped pages removes exactly those. -/
theorem uvmunmap_spec :
    wp (uvmunmap root (v * PGSIZE) n doFree) (fun _ s' => Unmapped root v n doFree s s') s := by
  have hcount : ((v * PGSIZE + n * PGSIZE) % 2 ^ 64 - v * PGSIZE + PGSIZE - 1) / PGSIZE = n := by
    unfold PGSIZE MAXVA at *
    omega
  rw [uvmunmap, if_neg (by simp), hcount]
  exact uvmunmapLoop_run ht hvn he

end

/-! ## Setting one entry in place -/

/-- From `s` to `s'` the entry of page `v` became `e`. -/
structure EntrySet (root v : Nat) (e : Pte) (s s' : Mach) : Prop where
  touches : Touches (ptPages s.mem root) s s'
  pages : ptPages s'.mem root = ptPages s.mem root
  tree : Tree s'.mem root
  freelist : s'.freelist = s.freelist
  refreed : s'.refreed = s.refreed
  entry : ∀ w < NVPN, ptEntry s'.mem root w = if w = v then e else ptEntry s.mem root w

/-- A store through the pointer that a lookup returned. -/
theorem EntrySet.of_slot (ht : Tree s.mem root) (hv : v < NVPN)
    (hs : ptRadix.slot s.mem 2 root (vkey v) = some q) (e : Pte) :
    EntrySet root v e s { s with mem := store 8 s.mem (q + 8 * vkey v 0) e } where
  touches := ⟨rfl, rfl, ht.eqOff_set hs e⟩
  pages := ht.ptPages_set hs e
  tree := ht.set hs e
  freelist := rfl
  refreed := rfl
  entry _ hw := ht.ptEntry_set hs e hv hw

/-- **`uvmclear`** stops if the table has no entry for the address, and else clears `PTE_U` there. -/
theorem uvmclear_cases (ht : Tree s.mem root) (hva : va < MAXVA) :
    (ptEntry s.mem root (va / PGSIZE) = 0 ∧ uvmclear root va s = .error "uvmclear") ∨
    ∃ s', uvmclear root va s = .ok ((), s') ∧ EntrySet root (va / PGSIZE)
      (ptEntry s.mem root (va / PGSIZE) &&& ~~~PTE_U) s s' := by
  have hwalk := walk_false s root hva
  cases hs : ptRadix.slot s.mem 2 root (vkey (va / PGSIZE)) with
  | none =>
    rw [hs, Option.map_none] at hwalk
    rw [uvmclear, bind_ok hwalk]
    exact .inl ⟨ptEntry_of_slot_none hs, rfl⟩
  | some q =>
    rw [hs, Option.map_some] at hwalk
    have hread : readPte (q + 8 * vkey (va / PGSIZE) 0) s =
        .ok (ptEntry s.mem root (va / PGSIZE), s) := by
      rw [ptEntry_of_slot hs]
      rfl
    rw [uvmclear, bind_ok hwalk]
    dsimp only
    rw [bind_ok hread]
    exact .inr ⟨_, rfl, EntrySet.of_slot ht (vpn_lt hva) hs _⟩

end Xv6
