/-
# Xv6.Mem.Free — taking a page table apart.

`freewalk` frees the page-table pages of a table whose leaves are gone: it descends into every link,
clears the entry, and frees the page last.  The loop over the entries of one page keeps that the
subtrees still to come are untouched, because none of them shares a page with what was freed.
-/
import Xv6.Mem.Uvm
import Mathlib.Tactic.IntervalCases

namespace Xv6

open Lib Lib.Store Lib.Prog Multiset Radix

/-- A table of pages of the allocator, with no valid leaf. -/
structure Bare (s : Mach) (n p : Nat) : Prop where
  root : PGSIZE ∣ p
  page : ∀ q ∈ ptRadix.nodes s.mem n p, s.IsPage q
  linked : ptRadix.Linked IsDir s.mem n p
  empty : ∀ k e, ptRadix.get s.mem n p k = some e → e &&& PTE_V = 0

/-- From `s` to `s'` the pages of `P` were freed, and no other page was written. -/
structure Freed (P : Multiset Nat) (s s' : Mach) : Prop where
  touches : Touches P s s'
  refreed : s'.refreed = s.refreed
  freelist : (s'.freelist : Multiset Nat) = P + (s.freelist : Multiset Nat)

variable {s s' t : Mach} {n p c root : Nat} {P : Multiset Nat}

theorem Bare.congr (h : Bare s n p) (ha : ptRadix.Agree (ptRadix.nodes s.mem n p) s.mem t.mem)
    (hk : t.kend = s.kend) : Bare t n p where
  root := h.root
  page q hq := by
    rw [nodes_congr ha] at hq
    have := h.page q hq
    rwa [Mach.IsPage, hk]
  linked := linked_congr ha h.linked
  empty k e he := h.empty k e (get_congr ha k ▸ he)

theorem Bare.child (h : Bare s (n + 1) p)
    (hc : ptRadix.child (ptRadix.read s.mem p i) = some c) :
    IsDir (ptRadix.read s.mem p i) ∧ Bare s n c := by
  obtain ⟨hdir, hlinked⟩ := linked_succ.mp h.linked i c hc
  refine ⟨hdir, (child_eq_some.mp hc).2 ▸ PTE2PA_dvd _, fun q hq => ?_, hlinked, fun k e he => ?_⟩
  · exact h.page q (mem_nodes_succ.mpr (.inr ⟨i, c, hc, hq⟩))
  · -- the key that enters the child and then follows `k`
    refine h.empty (fun l => if l = n + 1 then i else k l) e ?_
    rw [get_succ, if_pos rfl, hc, Option.bind_some, ← he]
    exact get_congr_key fun l hl => if_neg (by omega)

/-- `kfree` of a page that is neither free nor written otherwise. -/
theorem wp_kfree_freed (hp : s.IsPage p) (hfree : p ∉ s.freelist) :
    wp (kfree p) (fun _ s' => Freed {p} s s') s := by
  refine wp_mono (kfree_spec hp) ?_
  rintro ⟨⟩ s' ⟨hlist, hto, hre⟩
  refine ⟨hto, ?_, ?_⟩
  · rw [hre, List.contains_eq_mem, decide_eq_false hfree, Bool.or_false]
  · rw [hlist, ← cons_coe, singleton_add]

/-! ## The entries of one page -/

/-- The entries of `p` from `i` on are still to be visited. -/
structure Pending (s : Mach) (n p i : Nat) : Prop where
  root : PGSIZE ∣ p
  nodup : (p ::ₘ (ptRadix.subsFrom s.mem n p i + (s.freelist : Multiset Nat))).Nodup
  child : ∀ (j : Fin 512) c, i ≤ j.val → ptRadix.child (ptRadix.read s.mem p j) = some c →
    IsDir (ptRadix.read s.mem p j) ∧ Bare s n c

/-- The rest of the loop is about the same subtrees after entry `i` is dealt with. -/
theorem Pending.next (hi : i < 512) (h : Pending s n p i)
    (hf : Freed ((ptRadix.child (ptRadix.read s.mem p ⟨i, hi⟩)).elim 0 (ptRadix.nodes s.mem n))
      s t)
    (hmem : s'.mem = t.mem ∨ s'.mem = store 8 t.mem (p + 8 * i) 0) (hk : s'.kend = s.kend)
    (hlist : s'.freelist = t.freelist) :
    Pending s' n p (i + 1) ∧
      ptRadix.subsFrom s'.mem n p (i + 1) = ptRadix.subsFrom s.mem n p (i + 1) := by
  set D := (ptRadix.child (ptRadix.read s.mem p ⟨i, hi⟩)).elim 0 (ptRadix.nodes s.mem n) with hD
  have hsucc := subsFrom_succ (R := ptRadix) (m := s.mem) (n := n) (p := p) hi
  have hnd := h.nodup
  rw [hsucc, ← hD, nodup_cons, mem_add, mem_add, not_or, not_or] at hnd
  obtain ⟨⟨⟨hpD, hpsub⟩, hpfree⟩, hnd⟩ := hnd
  -- `D` is disjoint from the later subtrees
  have hdis : ∀ q ∈ ptRadix.subsFrom s.mem n p (i + 1), q ∉ D := by
    intro q hq hqD
    rw [add_assoc] at hnd
    exact disjoint_left.mp (nodup_add.mp hnd).2.2 hqD
      (mem_add.mpr (.inl hq))
  have hread : ∀ j : Fin 512, i + 1 ≤ j.val →
      ptRadix.read s'.mem p j = ptRadix.read s.mem p j := by
    intro j hj
    have ht : ptRadix.read t.mem p j = ptRadix.read s.mem p j :=
      read_eqOff hf.touches.mem h.root hpD j
    rcases hmem with hm | hm <;> rw [hm, ← ht]
    refine read_store_ne (j := ⟨i, hi⟩) t.mem 0 h.root h.root ?_
    rintro ⟨-, hji⟩
    have := congrArg Fin.val hji
    simp at this
    omega
  have hagree : ∀ (j : Fin 512) c, i + 1 ≤ j.val →
      ptRadix.child (ptRadix.read s.mem p j) = some c →
      ptRadix.Agree (ptRadix.nodes s.mem n c) s.mem s'.mem := by
    intro j c hj hc q hq l
    have hqsub : q ∈ ptRadix.subsFrom s.mem n p (i + 1) :=
      mem_subsFrom.mpr ⟨j, c, hj, hc, hq⟩
    have hqdvd := dvd_of_mem_nodes (h.child j c (by omega) hc).2.root hq
    have ht : ptRadix.read t.mem q l = ptRadix.read s.mem q l :=
      read_eqOff hf.touches.mem hqdvd (hdis q hqsub) l
    rcases hmem with hm | hm <;> rw [hm, ← ht]
    refine read_store_ne (j := ⟨i, hi⟩) t.mem 0 hqdvd h.root ?_
    rintro ⟨rfl, -⟩
    exact hpsub hqsub
  have hsubs : ptRadix.subsFrom s'.mem n p (i + 1) = ptRadix.subsFrom s.mem n p (i + 1) :=
    subsFrom_congr hread fun j c hj hc => nodes_congr (hagree j c hj hc)
  refine ⟨⟨h.root, ?_, fun j c hj hc => ?_⟩, hsubs⟩
  · rw [hsubs, hlist, hf.freelist, nodup_cons, mem_add, mem_add,
      not_or, not_or]
    refine ⟨⟨hpsub, hpD, hpfree⟩, ?_⟩
    rwa [← add_assoc, add_comm _ D]
  · rw [hread j hj] at hc ⊢
    obtain ⟨hdir, hbare⟩ := h.child j c (by omega) hc
    exact ⟨hdir, hbare.congr (hagree j c hj hc) hk⟩

/-- The loop of `freewalk`, given that the children can be freed; by induction on the entries that
are left. -/
theorem freewalkLoop_run {freeChild : Nat → Prog Mach Unit}
    (hchild : ∀ {t : Mach} {c : Nat}, Bare t n c →
      (ptRadix.nodes t.mem n c + t.freelist).Nodup →
      wp (freeChild c) (fun _ t' => Freed (ptRadix.nodes t.mem n c) t t') t)
    (hik : i + k = 512) (h : Pending s n p i) :
    wp (freewalkLoop freeChild p k i) (fun _ s' =>
      Touches (p ::ₘ ptRadix.subsFrom s.mem n p i) s s' ∧ s'.refreed = s.refreed ∧
      s'.freelist =
        ptRadix.subsFrom s.mem n p i + s.freelist) s := by
  induction k generalizing s i with
  | zero =>
    refine wp_pure ⟨Touches.refl _ _, rfl, ?_⟩
    rw [subsFrom_of_le (by omega), zero_add]
  | succ k ih =>
    have hi : i < 512 := by omega
    have hsucc := subsFrom_succ (R := ptRadix) (m := s.mem) (n := n) (p := p) hi
    -- what is left to show once entry `i` is dealt with
    have next : ∀ {t s' : Mach}, Freed ((ptRadix.child (ptRadix.read s.mem p ⟨i, hi⟩)).elim 0
          (ptRadix.nodes s.mem n)) s t →
        (s'.mem = t.mem ∨ s'.mem = store 8 t.mem (p + 8 * i) 0) → s'.kend = s.kend →
        s'.trampoline = s.trampoline → s'.refreed = t.refreed → s'.freelist = t.freelist →
        wp (freewalkLoop freeChild p k (i + 1)) (fun _ s'' =>
          Touches (p ::ₘ ptRadix.subsFrom s.mem n p i) s s'' ∧ s''.refreed = s.refreed ∧
          s''.freelist =
            ptRadix.subsFrom s.mem n p i + s.freelist) s' := by
      intro t s' hf hmem hkend htramp hre hlist
      obtain ⟨hpend, hsubs⟩ := h.next hi hf hmem hkend hlist
      refine wp_mono (ih (by omega) hpend) ?_
      rintro ⟨⟩ s'' ⟨hto, hre', hlist'⟩
      rw [hsubs] at hto hlist'
      have hfirst : Touches (p ::ₘ ptRadix.subsFrom s.mem n p i) s s' := by
        have hD : EqOff (p ::ₘ ptRadix.subsFrom s.mem n p i) s.mem t.mem := by
          refine hf.touches.mem.mono fun q hq => ?_
          rw [hsucc]
          exact mem_cons_of_mem (mem_add.mpr (.inl hq))
        refine ⟨hkend, htramp, ?_⟩
        rcases hmem with hm | hm <;> rw [hm]
        · exact hD
        · refine hD.trans ((eqOff_store (k := 8) t.mem 0 h.root (by omega)
            (by unfold PGSIZE; omega)).mono ?_)
          exact singleton_subset.mpr (mem_cons_self p _)
      refine ⟨hfirst.trans (hto.mono ?_), ?_, ?_⟩
      · rw [hsucc]
        exact subset_of_le ((cons_le_cons_iff p).mpr (le_add_left _ _))
      · rw [hre', hre, hf.refreed]
      · rw [hlist', hlist, hf.freelist, hsucc]
        abel
    have hread : readPte (p + 8 * i) s = .ok (ptRadix.read s.mem p ⟨i, hi⟩, s) := rfl
    rw [freewalkLoop]
    refine wp_bind (wp_of_eq hread ?_)
    by_cases hv : ptRadix.read s.mem p ⟨i, hi⟩ &&& PTE_V = 0
    · rw [if_neg (fun hh => hh.1 hv), if_neg (not_not.mpr hv)]
      have hnone := child_eq_none.mpr hv
      exact next (t := s) ⟨Touches.refl _ _, rfl, by rw [hnone]; simp⟩ (.inl rfl) rfl rfl rfl rfl
    · have hc := child_of_valid hv
      obtain ⟨hdir, hbare⟩ := h.child ⟨i, hi⟩ _ le_rfl hc
      rw [if_pos ⟨hv, hdir⟩]
      refine wp_seq (hchild hbare ?_) ?_
      · have hnd := (nodup_cons.mp h.nodup).2
        rw [hsucc, hc, Option.elim_some, add_assoc, add_comm (ptRadix.subsFrom s.mem n p (i + 1)),
          ← add_assoc] at hnd
        exact nodup_of_le (le_add_right _ _) hnd
      · rintro ⟨⟩ t hf
        have hf' : Freed ((ptRadix.child (ptRadix.read s.mem p ⟨i, hi⟩)).elim 0
            (ptRadix.nodes s.mem n)) s t := by rwa [hc, Option.elim_some]
        exact wp_bind (wp_modify (next hf' (.inr rfl) hf.touches.kend hf.touches.trampoline rfl
          rfl))

/-- A page with no valid entry: the loop of `freewalk` passes it. -/
theorem freewalkLoop_skip {freeChild : Nat → Prog Mach Unit} (hik : i + k = 512)
    (h : ∀ j : Fin 512, ptRadix.read s.mem p j &&& PTE_V = 0) :
    freewalkLoop freeChild p k i s = .ok ((), s) := by
  induction k generalizing i with
  | zero => rfl
  | succ k ih =>
    have hread : readPte (p + 8 * i) s = .ok (ptRadix.read s.mem p ⟨i, by omega⟩, s) := rfl
    have hv := h ⟨i, by omega⟩
    rw [freewalkLoop, bind_ok hread, if_neg (fun hh => hh.1 hv), if_neg (not_not.mpr hv)]
    exact ih (by omega)

/-- **`freewalk`** frees the pages of a table without leaves, and nothing else; by induction on the
height of the table. -/
theorem freewalk_run (h : Bare s n p)
    (hnd : (ptRadix.nodes s.mem n p + s.freelist).Nodup) :
    wp (freewalk (n + 1) p) (fun _ s' => Freed (ptRadix.nodes s.mem n p) s s') s := by
  induction n generalizing s p with
  | zero =>
    rw [freewalk]
    refine wp_bind (wp_of_eq (freewalkLoop_skip rfl fun j => ?_) ?_)
    · exact h.empty (fun _ => j) _ get_zero
    · rw [nodes_zero] at hnd ⊢
      refine wp_kfree_freed (h.page p (nodes_zero ▸ mem_singleton_self p)) ?_
      rw [singleton_add, nodup_cons] at hnd
      exact hnd.1
  | succ n ih =>
    rw [nodes_eq_subsFrom] at hnd ⊢
    have hpend : Pending s n p 0 :=
      ⟨h.root, by rwa [← cons_add], fun j c _ hc => h.child hc⟩
    rw [freewalk]
    refine wp_seq (freewalkLoop_run (fun hb hd => ih hb hd) rfl hpend) ?_
    rintro ⟨⟩ t ⟨hto, hre, hlist⟩
    have hpage : t.IsPage p := hto.isPage.mpr (h.page p mem_nodes_self)
    have hfree : p ∉ (t.freelist : Multiset Nat) := by
      rw [hlist]
      rw [cons_add, nodup_cons] at hnd
      exact hnd.1
    refine wp_mono (wp_kfree_freed hpage hfree) ?_
    rintro ⟨⟩ s' hf
    refine ⟨hto.trans (hf.touches.mono ?_), hf.refreed.trans hre, ?_⟩
    · exact singleton_subset.mpr (mem_cons_self p _)
    · rw [hf.freelist, hlist, singleton_add, cons_add]

/-! ## Whole tables -/

/-- The page number with the digits of a key. -/
theorem exists_vkey (k : Nat → Fin 512) : ∃ v < NVPN, ∀ l ≤ 2, vkey v l = k l := by
  refine ⟨k 2 * 512 ^ 2 + k 1 * 512 + k 0, by unfold NVPN; omega, fun l hl => Fin.ext ?_⟩
  show (k 2 * 512 ^ 2 + k 1 * 512 + k 0 : Nat) / 512 ^ l % 512 = k l
  interval_cases l <;> omega

theorem Own.bare (h : Own s root A)
    (hnone : ∀ v < NVPN, ptEntry s.mem root v &&& PTE_V = 0) : Bare s 2 root where
  root := h.root_dvd
  page q hq := h.page q (mem_add.mpr (.inl (mem_add.mpr (.inl hq))))
  linked := h.linked
  empty k e he := by
    obtain ⟨v, hv, hk⟩ := exists_vkey k
    have := hnone v hv
    rwa [ptEntry, get_congr_key hk, he, Option.getD_some] at this

/-- From `s` to `s'` the table at `root` and the data pages `A` were freed. -/
structure Gone (root : Nat) (A : Multiset Nat) (s s' : Mach) : Prop where
  touches : Touches (ptPages s.mem root + (s.freelist : Multiset Nat) + A) s s'
  refreed : s'.refreed = s.refreed
  freelist : (s'.freelist : Multiset Nat) = ptPages s.mem root + (s.freelist : Multiset Nat) + A

theorem Uvm.gone (g : Uvm root A B s t) (h : Gone root B t s') :
    Gone root A s s' where
  touches := g.touches.trans (g.pages ▸ h.touches)
  refreed := h.refreed.trans g.refreed
  freelist := h.freelist.trans g.pages

/-- **`uvmfree`** frees the pages below the size, then the table. -/
theorem Own.wp_uvmfree (sz : Nat)
    (h : Own s root (mapped (ptEntry s.mem root) 0 (npages sz)))
    (hnp : npages sz ≤ MAXVA / PGSIZE)
    (hleaf : ∀ w < npages sz, IsLeaf (ptEntry s.mem root w))
    (hnone : ∀ w < NVPN, npages sz ≤ w → ptEntry s.mem root w = 0) :
    wp (uvmfree root sz) (fun _ s' =>
      Gone root (mapped (ptEntry s.mem root) 0 (npages sz)) s s') s := by
  -- unmapping first, whether or not there is anything to unmap
  have hunmap : wp (if sz > 0 then uvmunmap root 0 (PGROUNDUP sz / PGSIZE) true else pure ())
      (fun _ t => Uvm root (mapped (ptEntry s.mem root) 0 (npages sz)) 0 s t ∧
        ∀ w < NVPN, ptEntry t.mem root w &&& PTE_V = 0) s := by
    by_cases hsz : sz > 0
    · rw [if_pos hsz]
      have := Own.wp_unmap_free (A := 0) (v := 0) (n := npages sz) (by rwa [add_zero]) (by omega)
        fun w _ hw => hleaf w (by omega)
      rw [Nat.zero_mul, add_zero] at this
      refine wp_mono this ?_
      rintro ⟨⟩ t ⟨hu, hen⟩
      refine ⟨hu, fun w hw => ?_⟩
      rw [hen w hw, setRange]
      split
      · decide
      · rw [hnone w hw (by omega)]
        decide
    · have h0 : sz = 0 := by omega
      subst h0
      rw [if_neg hsz]
      refine wp_pure ⟨by simpa [mapped, npages_zero] using Uvm.refl h, fun w hw => ?_⟩
      rw [hnone w hw (Nat.zero_le w)]
      decide
  rw [uvmfree]
  refine wp_seq hunmap ?_
  rintro ⟨⟩ t ⟨hu, hnone'⟩
  have hown := h.uvm hu
  refine wp_mono (freewalk_run (hown.bare hnone') hown.tblOk.nodup) ?_
  rintro ⟨⟩ s' hf
  refine hu.gone ⟨hf.touches.mono (subset_of_le ?_), hf.refreed, ?_⟩
  · rw [add_zero]
    exact le_add_right _ _
  · rw [hf.freelist, add_zero]

end Xv6
