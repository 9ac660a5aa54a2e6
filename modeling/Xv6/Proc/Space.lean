/-
# Xv6.Proc.Space — the address space of a process.

`Space` says that a table is the address space of a process of some size.  The functions that build,
grow, shrink, copy, free and write to user memory are specified here as functions on address spaces:
what pages they move, and that they lead from address space to address space.
-/
import Xv6.Mem.Account
import Xv6.Proc.Pagetable

namespace Xv6

open Lib Lib.Store Lib.Prog Multiset Nat

variable {dst len newsz v : Nat} {f : Nat → Pte} {xperm : Pte}

/-! ## Pages that are kept -/

/-- The stores agree on the pages of `P`. -/
def Kept (P : Multiset Nat) (m m' : Store) : Prop := ∀ x, PGROUNDDOWN x ∈ P → m' x = m x

variable {m m' : Store} {root : Nat}

theorem Kept.mono (h : Kept P m m') (hQ : Q ⊆ P) : Kept Q m m' :=
  fun x hx => h x (hQ hx)

theorem Kept.load (h : Kept P m m') (hp : p ∈ P) (hdvd : PGSIZE ∣ p)
    (off : Nat) (hoff : off + n ≤ PGSIZE) : load n m' (p + off) = load n m (p + off) :=
  load_congr fun x h1 h2 => h x (by
    rwa [PGROUNDDOWN_of_mem hdvd (by omega) (by omega)])

theorem Kept.agree (h : Kept (ptPages m root) m m') (hroot : PGSIZE ∣ root) :
    ptRadix.Agree (ptPages m root) m m' := by
  intro p hp i
  refine load_congr fun x h1 h2 => h x ?_
  rwa [PGROUNDDOWN_of_mem (dvd_of_mem_nodes hroot hp) (by omega) (by unfold PGSIZE; omega)]

/-! ## Address spaces -/

/-- The table at `root` is the address space of a process of size `sz`.  Its pages are for the user
except the guard page below the stack. -/
structure Space (m : Store) (trampoline root sz trapframe usyscall : Nat) (guard : Option Nat) :
    Prop where
  root_dvd : PGSIZE ∣ root
  linked : ptRadix.Linked IsDir m 2 root
  size : sz ≤ MAXVA
  layout : Layout (ptEntry m root) (npages sz) trampoline trapframe usyscall
  user : ∀ v < npages sz, guard ≠ some v → (ptEntry m root v).getLsbD 4 = true

theorem Space.congr {trampoline sz trapframe usyscall : Nat} {guard : Option Nat}
    (h : Space m trampoline root sz trapframe usyscall guard)
    (ha : ptRadix.Agree (ptPages m root) m m') :
    Space m' trampoline root sz trapframe usyscall guard := by
  have hent : ptEntry m' root = ptEntry m root := funext (ptEntry_congr ha)
  refine ⟨h.root_dvd, Radix.linked_congr ha h.linked, h.size, ?_, ?_⟩
  · rw [hent]
    exact h.layout
  · rw [hent]
    exact h.user

/-- The pages of the address space at `root`, without the three at the top. -/
def spacePages (m : Store) (root sz : Nat) : Multiset Nat :=
  ptPages m root + (mapped (ptEntry m root) 0 (npages sz) : Multiset Nat)

theorem spacePages_congr (ha : ptRadix.Agree (ptPages m root) m m') (sz : Nat) :
    spacePages m' root sz = spacePages m root sz := by
  have hent : ptEntry m' root = ptEntry m root := funext (ptEntry_congr ha)
  rw [spacePages, spacePages, hent, ptPages, Radix.nodes_congr ha]

variable {s s' : Mach} {trampoline sz trapframe usyscall : Nat} {guard : Option Nat}
  {F : Multiset Nat}

/-- Other user pages, the same pages at the top. -/
theorem Layout.resize {f' : Nat → Pte}
    (hl : Layout f np trampoline trapframe usyscall) (hb : np' ≤ vUSYSCALL)
    (huser : ∀ v < np', (f' v).getLsbD 0 = true ∧ (f' v).getLsbD 1 = true)
    (hzero : ∀ v, np' ≤ v → v < vUSYSCALL → f' v = 0)
    (htop : ∀ v < NVPN, vUSYSCALL ≤ v → f' v = f v) :
    Layout f' np' trampoline trapframe usyscall := by
  obtain ⟨h1, h2, h3, h4⟩ := vUSYSCALL_lt
  have hnp := hl.bound
  refine ⟨hb, huser, fun v hv hge hU hF hP => ?_, ?_, ?_, ?_⟩
  · rcases lt_or_ge v vUSYSCALL with hlt | hle
    · exact hzero v hge hlt
    · rw [htop v hv hle]
      exact hl.none v hv (by omega) hU hF hP
  · rw [htop _ (by omega) (by omega)]
    exact hl.trampoline
  · rw [htop _ (by omega) (by omega)]
    exact hl.trapframe
  · rw [htop _ (by omega) (by omega)]
    exact hl.usyscall

section

variable (hs : Space m trampoline root sz trapframe usyscall guard)

include hs

theorem Space.npages_lt : npages sz ≤ vUSYSCALL ∧ sz < 2 ^ 63 := by
  refine ⟨hs.layout.bound, ?_⟩
  have := hs.size
  unfold MAXVA at this
  omega

theorem Space.isLeaf (hv : v < npages sz) : IsLeaf (ptEntry m root v) := by
  obtain ⟨hV, hR⟩ := hs.layout.user v hv
  exact isLeaf_of_getLsbD hV (by omega) (by omega) hR

/-- Above the size and below the top nothing is mapped. -/
theorem Space.unmapped (hv : npages sz ≤ v) (hlt : v < vUSYSCALL) : ptEntry m root v = 0 := by
  obtain ⟨h1, h2, h3, h4⟩ := vUSYSCALL_lt
  exact hs.layout.none v (by omega) hv (by omega) (by omega) (by omega)

/-- The same entries, perhaps in other pages. -/
theorem Space.same (hlinked : ptRadix.Linked IsDir m' 2 root)
    (hsame : ∀ w < NVPN, ptEntry m' root w = ptEntry m root w) :
    Space m' trampoline root sz trapframe usyscall guard ∧
      spacePages m' root sz =
        ptPages m' root + mapped (ptEntry m root) 0 (npages sz) := by
  obtain ⟨h1, h2, h3, h4⟩ := vUSYSCALL_lt
  obtain ⟨hnp, hlt⟩ := hs.npages_lt
  refine ⟨⟨hs.root_dvd, hlinked, hs.size, ?_, fun v hv hg => ?_⟩, ?_⟩
  · refine hs.layout.resize hnp (fun v hv => ?_) (fun v hv hlt => ?_) fun v hv _ => hsame v hv
    · rw [hsame v (by omega)]
      exact hs.layout.user v hv
    · rw [hsame v (by omega)]
      exact hs.unmapped hv hlt
  · rw [hsame v (by omega)]
    exact hs.user v hv hg
  · rw [spacePages, mapped_congr fun w _ hw => hsame w (by omega)]

/-- The pages with `PTE_U` are the user pages and the shared page. -/
theorem Space.user_page (hv : v < NVPN)
    (hU : (ptEntry m root v).getLsbD 4 = true) :
    (v < npages sz ∧ PTE2PA (ptEntry m root v) ∈ mapped (ptEntry m root) 0 (npages sz)) ∨
    (v = vUSYSCALL ∧ PTE2PA (ptEntry m root v) = usyscall) := by
  rcases lt_or_ge v (npages sz) with hlt | hge
  · exact .inl ⟨hlt, mem_mapped.mpr ⟨_, zero_le _, by omega, rfl⟩⟩
  by_cases h1 : v = vUSYSCALL
  · refine .inr ⟨h1, ?_⟩
    rw [h1]
    exact hs.layout.usyscall.page
  -- the two pages above are not for the user, and nothing else is mapped
  exfalso
  by_cases h2 : v = vTRAPFRAME
  · rw [h2, hs.layout.trapframe.getLsbD (by omega)] at hU
    revert hU
    decide
  by_cases h3 : v = vTRAMPOLINE
  · rw [h3, hs.layout.trampoline.getLsbD (by omega)] at hU
    revert hU
    decide
  rw [hs.layout.none _ hv hge h1 h2 h3] at hU
  revert hU
  decide

/-- The pages that the user may access are the user pages and the shared page. -/
theorem Space.accessible
    (ha : AccessibleAt m root va) :
    (va / PGSIZE < npages sz ∧
      PTE2PA (ptEntry m root (va / PGSIZE)) ∈ mapped (ptEntry m root) 0 (npages sz)) ∨
    (va / PGSIZE = vUSYSCALL ∧ PTE2PA (ptEntry m root (va / PGSIZE)) = usyscall) := by
  have hU := ha.2.2.1
  rw [Ne, and_U_eq_zero, Bool.not_eq_false] at hU
  exact hs.user_page (vpn_lt ha.1) hU

end

/-! ## Building and freeing -/

section

variable (hs : Space s.mem trampoline root sz trapframe usyscall guard)
  (h : Idle s (spacePages s.mem root sz + F))

include hs h

/-- An address space owns its pages. -/
theorem Space.own :
    Own s root (mapped (ptEntry s.mem root) 0 (npages sz) + F) := by
  have heq : ptPages s.mem root + s.freelist +
      (mapped (ptEntry s.mem root) 0 (npages sz) + F) =
      s.freelist + (spacePages s.mem root sz + F) := by
    rw [spacePages]
    abel
  refine ⟨hs.root_dvd, ?_, ?_, hs.linked⟩
  · rw [heq]
    exact h.nodup
  · rw [heq]
    exact h.page

theorem Space.own' :
    Own s root (mapped (ptEntry s.mem root) 0 (npages sz)) :=
  (hs.own h).mono (le_add_right _ _)

/-- **`proc_freepagetable`** gives all pages of an address space back. -/
theorem Space.wp_free :
    wp (procFreepagetable root sz) (fun _ s' => Moves (spacePages s.mem root sz) 0 s s') s :=
  wp_mono ((hs.own' h).wp_procFreepagetable hs.layout) fun _ _ g => g.moves

end

theorem layout_topEntries (hT : PGSIZE ∣ trampoline) (hT' : trampoline < 2 ^ 64)
    (htf : PGSIZE ∣ trapframe) (htf' : trapframe < 2 ^ 64) (hus : PGSIZE ∣ usyscall)
    (hus' : usyscall < 2 ^ 64) (hf : ∀ w < NVPN, f w = topEntries trampoline trapframe usyscall w) :
    Layout f 0 trampoline trapframe usyscall := by
  obtain ⟨h1, h2, h3, h4⟩ := vUSYSCALL_lt
  refine ⟨zero_le _, fun v hv => absurd hv (by omega), fun v hv _ hU hF hP => ?_, ?_, ?_, ?_⟩
  · rw [hf v hv, topEntries, if_neg hU, if_neg hF, if_neg hP]
  · rw [hf _ (by omega), topEntries, if_neg (by omega), if_neg (by omega), if_pos rfl]
    exact mapsTo_leafPte hT hT' (by decide)
  · rw [hf _ (by omega), topEntries, if_neg (by omega), if_pos rfl]
    exact mapsTo_leafPte htf htf' (by decide)
  · rw [hf _ (by omega), topEntries, if_pos rfl]
    exact mapsTo_leafPte hus hus' (by decide)

theorem Mach.IsPage.lt (h : s.IsPage p) : p < 2 ^ 64 := by
  have := h.2.2
  unfold PHYSTOP KERNBASE at this
  omega

/-- **`proc_pagetable`** builds an empty address space, or takes nothing. -/
theorem wp_newSpace (h : Idle s F) (hT : PGSIZE ∣ s.trampoline) (hT' : s.trampoline < 2 ^ 64)
    (htf : s.IsPage trapframe) (hus : s.IsPage usyscall) :
    wp (procPagetable trapframe usyscall) (fun r s' => (r = none ∧ Moves 0 0 s s') ∨
      ∃ root, r = some root ∧ Moves 0 (spacePages s'.mem root 0) s s' ∧
        Space s'.mem s.trampoline root 0 trapframe usyscall none) s := by
  refine wp_mono h.wp_procPagetable ?_
  rintro r s' (⟨rfl, hb⟩ | ⟨root, rfl, b, hen⟩)
  · exact .inl ⟨rfl, hb.moves⟩
  · refine .inr ⟨root, rfl, b.moves, b.root_dvd, b.linked, zero_le _, ?_, fun v hv => ?_⟩
    · exact layout_topEntries hT hT' htf.1 htf.lt hus.1 hus.lt hen
    · exact absurd hv (by rw [npages_zero]; omega)

/-! ## Growing and shrinking -/

/-- The pages of a process are pages of RAM. -/
theorem Idle.npages_le_ram (h : Idle s (spacePages s.mem root sz + F)) (hk : KERNBASE ≤ s.kend) :
    npages sz + s.freelist.length ≤ (PHYSTOP - KERNBASE) / PGSIZE := by
  have hcard := h.card_le hk
  rw [spacePages, card_add, card_add, coe_card, mapped, List.length_map,
    List.length_range'] at hcard
  omega

/-- The number of pages of a process is bounded by RAM, far below the pages at the top. -/
theorem Idle.npages_le (h : Idle s (spacePages s.mem root sz + F)) (hk : KERNBASE ≤ s.kend) :
    npages sz + s.freelist.length ≤ vUSYSCALL :=
  (h.npages_le_ram hk).trans (by decide)

theorem le_npages (h : sz < 2 ^ 63) : sz ≤ npages sz * PGSIZE := by
  rw [npages_eq h]
  unfold PGSIZE
  omega

/-- What `uvmalloc` returns, as a size: 0 means that the size is the old one. -/
def sizeAfter (sz r : Nat) : Nat := if r = 0 then sz else r

section

variable (hs : Space s.mem trampoline root sz trapframe usyscall guard)
  (h : Idle s (spacePages s.mem root sz + F))

include hs

/-- **`uvmalloc`** leads to an address space of the size it returns. -/
theorem Space.grow
    (hal : UvmAlloc root sz newsz vUSYSCALL (PTE_R ||| PTE_U ||| xperm)
      (mapped (ptEntry s.mem root) 0 (npages sz)) s r s') :
    Moves (spacePages s.mem root sz) (spacePages s'.mem root (sizeAfter sz r)) s s' ∧
      Space s'.mem trampoline root (sizeAfter sz r) trapframe usyscall guard ∧
      (r ≠ 0 → sz ≤ r ∧ newsz ≤ r ∧ (sz ≤ newsz → r = newsz)) ∧
      (r = 0 → ∀ w < NVPN, ptEntry s'.mem root w = ptEntry s.mem root w) := by
  obtain ⟨h1, h2, h3, h4⟩ := vUSYSCALL_lt
  obtain ⟨hnp, hlt⟩ := hs.npages_lt
  rcases hal with ⟨hsz, hr, hs'⟩ | ⟨hsz, hr, hlt', htop, hal, hu⟩ | ⟨hsz, hr, hu, hsame⟩
  · have hr' : sizeAfter sz r = sz := by
      rw [hr, sizeAfter, ite_self]
    rw [hr', hs', hr]
    exact ⟨Moves.refl _ _, hs, fun _ => ⟨le_rfl, hsz.le, fun hle => absurd hsz (by omega)⟩,
      fun _ _ _ => rfl⟩
  · have hr' : sizeAfter sz r = newsz := by
      rw [hr, sizeAfter]
      split <;> omega
    have hmono : npages sz ≤ npages newsz := npages_mono hsz hlt'
    rw [hr', hr]
    have hmap : mapped (ptEntry s'.mem root) 0 (npages newsz) =
        mapped (ptEntry s.mem root) 0 (npages sz) ++
          mapped (ptEntry s'.mem root) (npages sz) (npages newsz - npages sz) := by
      rw [← mapped_congr fun w _ hw => hal.same w (by omega) (.inl (by omega))]
      exact mapped_split _ (zero_le _) hmono
    refine ⟨?_, ⟨hs.root_dvd, hu.linked, ?_, ?_, ?_⟩, fun _ => ⟨hsz, le_rfl, fun _ => rfl⟩,
      fun hz w hw => ?_⟩
    · have := hu.moves
      rwa [spacePages, spacePages, hmap, ← coe_add, add_comm (mapped _ 0 _ : Multiset Nat)]
    · have hle := le_npages hlt'
      have hmul := mul_le_mul_right PGSIZE htop
      exact hle.trans (hmul.trans (by decide))
    · refine hs.layout.resize htop (fun v hv => ?_) (fun v hv hv' => ?_) fun v hv hge => ?_
      · rcases lt_or_ge v (npages sz) with hold | hnew
        · rw [hal.same v (by omega) (.inl hold)]
          exact hs.layout.user v hold
        · obtain ⟨pa, -, -, hpte, -⟩ := hal.fresh v hnew (by omega)
          rw [hpte, getLsbD_leafPte pa _ (by omega), getLsbD_leafPte pa _ (by omega)]
          simp [PTE_V, PTE_R]
      · rw [hal.same v (by omega) (.inr (by omega))]
        exact hs.unmapped (by omega) hv'
      · exact hal.same v hv (.inr (by omega))
    · intro v hv hg
      rcases lt_or_ge v (npages sz) with hold | hnew
      · rw [hal.same v (by omega) (.inl hold)]
        exact hs.user v hold hg
      · obtain ⟨pa, -, -, hpte, -⟩ := hal.fresh v hnew (by omega)
        rw [hpte, getLsbD_leafPte pa _ (by omega)]
        simp [PTE_U]
    · obtain rfl : sz = newsz := by omega
      exact hal.same w hw (by omega)
  · have hr' : sizeAfter sz r = sz := by
      rw [hr, sizeAfter, if_pos rfl]
    have hsame : ∀ w < NVPN, ptEntry s'.mem root w = ptEntry s.mem root w := fun w hw => by
      rcases hsame w hw with he | ⟨hge, htop, hz⟩
      · exact he
      · rw [hz, hs.unmapped hge htop]
    obtain ⟨hspace, hpages⟩ := hs.same hu.linked hsame
    rw [hr', hr, hpages]
    exact ⟨hu.moves, hspace, fun h0 => absurd rfl h0, fun _ => hsame⟩

include h

/-- `uvmalloc` on an address space finds the entries above it free. -/
theorem Space.wp_uvmalloc (hk : KERNBASE ≤ s.kend) (hperm : IsFlags xperm) :
    wp (uvmalloc root sz newsz xperm) (UvmAlloc root sz newsz vUSYSCALL (PTE_R ||| PTE_U ||| xperm)
      (mapped (ptEntry s.mem root) 0 (npages sz)) s) s := by
  obtain ⟨h1, h2, h3, h4⟩ := vUSYSCALL_lt
  obtain ⟨hnp, hlt⟩ := hs.npages_lt
  have hcap := h.npages_le hk
  exact (hs.own' h).wp_uvmalloc newsz vUSYSCALL hperm (by omega) hlt (by omega)
    fun w hw hw' => by rw [hs.unmapped hw hw']; exact BitVec.zero_and

theorem Space.wp_grow (hk : KERNBASE ≤ s.kend) (hperm : IsFlags xperm) :
    wp (uvmalloc root sz newsz xperm) (fun r s' =>
      Moves (spacePages s.mem root sz) (spacePages s'.mem root (sizeAfter sz r)) s s' ∧
      Space s'.mem trampoline root (sizeAfter sz r) trapframe usyscall guard ∧
      (r ≠ 0 → sz ≤ r ∧ newsz ≤ r ∧ (sz ≤ newsz → r = newsz)) ∧
      (r = 0 → ∀ w < NVPN, ptEntry s'.mem root w = ptEntry s.mem root w)) s :=
  wp_mono (hs.wp_uvmalloc h hk hperm) fun _ _ => hs.grow

/-- **`uvmdealloc`** leads to an address space of the size it returns. -/
theorem Space.wp_shrink :
    wp (uvmdealloc root sz newsz) (fun r s' => r = min sz newsz ∧
      Moves (spacePages s.mem root sz) (spacePages s'.mem root r) s s' ∧
      Space s'.mem trampoline root r trapframe usyscall guard) s := by
  obtain ⟨h1, h2, h3, h4⟩ := vUSYSCALL_lt
  obtain ⟨hnp, hlt⟩ := hs.npages_lt
  rcases lt_or_ge newsz sz with hsz | hsz
  · have hmono : npages newsz ≤ npages sz := npages_mono hsz.le hlt
    have hmap : mapped (ptEntry s.mem root) 0 (npages sz) =
        mapped (ptEntry s.mem root) 0 (npages newsz) ++
          mapped (ptEntry s.mem root) (npages newsz) (npages sz - npages newsz) :=
      mapped_split _ (zero_le _) hmono
    have hown := hs.own' h
    rw [hmap, ← coe_add, add_comm] at hown
    refine wp_mono (hown.wp_uvmdealloc hsz (by omega) hlt fun w _ hw => hs.isLeaf hw) ?_
    rintro r s' ⟨hr, hu, hen⟩
    rw [hr]
    have hlow : ∀ v < npages newsz, ptEntry s'.mem root v = ptEntry s.mem root v := fun v hv => by
      rw [hen v (by omega), setRange_of_notMem (by omega)]
    refine ⟨by omega, ?_, ⟨hs.root_dvd, hu.linked, ?_, ?_, fun v hv hg => ?_⟩⟩
    · have hmap' : mapped (ptEntry s'.mem root) 0 (npages newsz) =
          mapped (ptEntry s.mem root) 0 (npages newsz) :=
        mapped_congr fun w _ hw => hlow w (by omega)
      rw [spacePages, spacePages, hmap', hmap, ← coe_add,
        add_comm (mapped _ 0 _ : Multiset Nat)]
      exact hu.moves
    · have := hs.size
      omega
    · refine hs.layout.resize (by omega) (fun v hv => ?_) (fun v hv hv' => ?_) fun v hv hge => ?_
      · rw [hlow v hv]
        exact hs.layout.user v (by omega)
      · rw [hen v (by omega)]
        rcases lt_or_ge v (npages sz) with hin | hout
        · rw [setRange_of_mem (by omega) (by omega)]
        · rw [setRange_of_notMem (by omega)]
          exact hs.unmapped hout hv'
      · rw [hen v hv, setRange_of_notMem (by omega)]
    · rw [hlow v hv]
      exact hs.user v (by omega) hg
  · rw [uvmdealloc, if_pos hsz]
    exact wp_pure ⟨by omega, Moves.refl _ _, hs⟩

end

/-! ## Copying -/

theorem spacePages_zero (m : Store) (root : Nat) : spacePages m root 0 = ptPages m root := by
  rw [spacePages, npages_zero]
  exact add_zero _

section

variable {new trapframe' usyscall' : Nat}
  (hs : Space s.mem trampoline root sz trapframe usyscall guard)
  (hn : Space s.mem trampoline new 0 trapframe' usyscall' none)
  (h : Idle s (spacePages s.mem new 0 + F)) (hF : spacePages s.mem root sz ≤ F)

include hs hn h hF

/-- An address space among the pages of `F`, and a fresh one at `new`. -/
theorem Space.parent : Own s new F ∧ Parent s root (npages sz) F := by
  obtain ⟨h1, h2, h3, h4⟩ := vUSYSCALL_lt
  obtain ⟨hnp, -⟩ := hs.npages_lt
  have hsub := subset_of_le hF
  have hown' : Own s root (mapped (ptEntry s.mem root) 0 (npages sz)) := by
    have hle : spacePages s.mem root sz + 0 ≤ spacePages s.mem new 0 + F := by
      rw [add_zero]
      exact hF.trans (le_add_left _ _)
    exact hs.own' (h.mono hle)
  refine ⟨(hn.own h).mono (le_add_left _ _), hown'.tree,
    fun p hp => hsub (mem_add.mpr (.inl hp)), fun w hw => hsub ?_, hs.layout.user,
    by omega⟩
  exact mem_add.mpr (.inr (mem_mapped.mpr ⟨w, zero_le w, by omega, rfl⟩))

/-- **`uvmcopy`** makes the empty address space at `new` a copy, or leaves it empty. -/
theorem Space.wp_copy :
    wp (uvmcopy root new sz) (fun r s' =>
      (r = 0 ∧ Moves (spacePages s.mem new 0) (spacePages s'.mem new sz) s s' ∧
        Space s'.mem trampoline new sz trapframe' usyscall' guard ∧
        CopyInv root new (ptEntry s.mem new) s (npages sz) s') ∨
      (r = -1 ∧ Moves (spacePages s.mem new 0) (spacePages s'.mem new 0) s s' ∧
        Space s'.mem trampoline new 0 trapframe' usyscall' none)) s := by
  obtain ⟨h1, h2, h3, h4⟩ := vUSYSCALL_lt
  obtain ⟨hnp, hlt⟩ := hs.npages_lt
  obtain ⟨hown, hpar⟩ := hs.parent hn h hF
  refine wp_mono (hpar.wp_uvmcopy hlt hown fun w hw => hn.unmapped (zero_le w) (by omega)) ?_
  rintro r s' (⟨rfl, hc⟩ | ⟨rfl, hu, hsame⟩)
  · refine .inl ⟨rfl, ?_, ⟨hn.root_dvd, hc.uvm.linked, hs.size, ?_, fun v hv hg => ?_⟩, hc⟩
    · rw [spacePages_zero]
      have := hc.uvm.moves
      rwa [add_zero] at this
    · refine hn.layout.resize hnp (fun v hv => ?_) (fun v hv hv' => ?_) fun v hv hge => ?_
      · obtain ⟨pa, -, -, hpte, -⟩ := hc.low v hv
        obtain ⟨hV, hR⟩ := hs.layout.user v hv
        rw [hpte, getLsbD_leafPte pa _ (by omega), getLsbD_leafPte pa _ (by omega),
          getLsbD_PTE_FLAGS, getLsbD_PTE_FLAGS, hV, hR]
        exact ⟨rfl, rfl⟩
      · rw [hc.high v (by omega) hv]
        exact hn.unmapped (zero_le v) hv'
      · exact hc.high v hv (by omega)
    · obtain ⟨pa, -, -, hpte, -⟩ := hc.low v hv
      rw [hpte, getLsbD_leafPte pa _ (by omega), getLsbD_PTE_FLAGS, hs.user v hv hg]
      rfl
  · obtain ⟨hspace, -⟩ := hn.same hu.linked hsame
    refine .inr ⟨rfl, ?_, hspace⟩
    rw [spacePages_zero, spacePages_zero]
    have := hu.moves
    rwa [add_zero, add_zero] at this

end

/-! ## Writing to user memory -/

theorem mapped_inj (h : (mapped f 0 n).Nodup) (hv : v < n) (hw : w < n)
    (heq : PTE2PA (f v) = PTE2PA (f w)) : v = w := by
  refine List.inj_on_of_nodup_map h ?_ ?_ heq
  · exact List.mem_range'_1.mpr ⟨zero_le v, by omega⟩
  · exact List.mem_range'_1.mpr ⟨zero_le w, by omega⟩

/-- The pages that `copyout` may write. -/
def userPages (m : Store) (root sz usyscall : Nat) : Multiset Nat :=
  (mapped (ptEntry m root) 0 (npages sz) : Multiset Nat) + {usyscall}

/-- Bytes that `copyout` changes are in accessible pages. -/
theorem Copied.touches {src : Nat → Byte}
    (hc : Copied root dst src len r s s')
    (hA : ∀ va, dst ≤ va → va < dst + len → AccessibleAt s.mem root va →
      PTE2PA (ptEntry s.mem root (va / PGSIZE)) ∈ A) : Touches A s s' := by
  refine ⟨by rw [hc.state], by rw [hc.state], fun x hx => hc.miss x fun va hlt hre heq => hx ?_⟩
  have hin := hA va hre.1 hlt hre.accessible
  have hmod : va % PGSIZE < PGSIZE := mod_lt _ (by decide)
  rw [← heq, physAddr, PGROUNDDOWN_of_mem (PTE2PA_dvd (ptEntry s.mem root (va / PGSIZE)))
    (by omega) (by omega)]
  exact hin

/-- Writing to user pages changes no entry. -/
theorem Space.write (hs : Space s.mem trampoline root sz trapframe usyscall guard)
    (hown : Own s root A) (ht : Touches A s s') :
    Space s'.mem trampoline root sz trapframe usyscall guard ∧
      spacePages s'.mem root sz = spacePages s.mem root sz := by
  have hagree := hown.agree ht fun q hq => (hown.notMem hq).1
  exact ⟨hs.congr hagree, spacePages_congr hagree sz⟩

/-- The `len` bytes at `dst` are not in the page shared with the user. -/
def MissesShared (dst len : Nat) : Prop := dst + len ≤ USYSCALL ∨ USYSCALL + PGSIZE ≤ dst

instance (dst len : Nat) : Decidable (MissesShared dst len) := inferInstanceAs (Decidable (_ ∨ _))

section

variable (hs : Space s.mem trampoline root sz trapframe usyscall guard)
  (h : Idle s (spacePages s.mem root sz + {usyscall} + F))

include hs h

theorem Space.own_user :
    Own s root (userPages s.mem root sz usyscall) := by
  rw [add_assoc] at h
  refine (hs.own h).mono ?_
  rw [userPages, ← add_assoc]
  exact le_add_right _ _

theorem Space.apart : Apart s.mem root := by
  have hown := hs.own_user h
  have hnd : (userPages s.mem root sz usyscall).Nodup :=
    nodup_of_le (le_add_left _ _) hown.nodup
  obtain ⟨hmap, -, hdis⟩ := nodup_add.mp hnd
  have hus : usyscall ∉ mapped (ptEntry s.mem root) 0 (npages sz) :=
    disjoint_right.mp hdis (mem_singleton_self usyscall)
  refine ⟨hown.tree, fun va ha => ?_, fun va va' ha ha' heq => ?_⟩
  · refine (hown.notMem ?_).1
    rcases hs.accessible ha with ⟨-, hin⟩ | ⟨-, hin⟩
    · exact mem_add.mpr (.inl hin)
    · exact mem_add.mpr (.inr (mem_singleton.mpr hin))
  · rcases hs.accessible ha with ⟨hv, hin⟩ | ⟨hv, hin⟩ <;>
      rcases hs.accessible ha' with ⟨hv', hin'⟩ | ⟨hv', hin'⟩
    · exact mapped_inj (coe_nodup.mp hmap) hv hv' heq
    · exact absurd (hin' ▸ heq ▸ hin) hus
    · exact absurd (hin ▸ heq.symm ▸ hin') hus
    · rw [hv, hv']

/-- **`copyout`** writes to user pages and to nothing else. -/
theorem Space.wp_copyout (src : Nat → Byte) :
    wp (copyout root dst src len) (fun r s' => Copied root dst src len r s s' ∧
      Touches (userPages s.mem root sz usyscall) s s' ∧
      Space s'.mem trampoline root sz trapframe usyscall guard ∧
      spacePages s'.mem root sz = spacePages s.mem root sz) s := by
  refine wp_mono (hs.apart h).wp_copyout fun r s' hc => ?_
  have ht : Touches (userPages s.mem root sz usyscall) s s' := hc.touches fun va _ _ ha => by
    rcases hs.accessible ha with ⟨-, hin⟩ | ⟨-, hin⟩
    · exact mem_add.mpr (.inl hin)
    · exact mem_add.mpr (.inr (mem_singleton.mpr hin))
  exact ⟨hc, ht, hs.write (hs.own_user h) ht⟩

theorem Space.copied_kept {src : Nat → Byte} (hc : Copied root dst src len r s s')
    (hmiss : MissesShared dst len) : Kept {usyscall} s.mem s'.mem := by
  have hnd : (userPages s.mem root sz usyscall).Nodup :=
    nodup_of_le (le_add_left _ _) (hs.own_user h).nodup
  intro x hx
  refine hc.miss x fun va hva hreach heq => ?_
  have hpage : PTE2PA (ptEntry s.mem root (va / PGSIZE)) = usyscall := by
    rw [← mem_singleton.mp hx, ← heq, PGROUNDDOWN_physAddr]
  rcases hs.accessible hreach.accessible with ⟨-, hin⟩ | ⟨hv, -⟩
  · exact disjoint_left.mp (nodup_add.mp hnd).2.2 (hpage ▸ hin)
      (mem_singleton_self usyscall)
  · have := hreach.1
    unfold MissesShared vUSYSCALL USYSCALL TRAPFRAME TRAMPOLINE MAXVA PGSIZE at *
    omega

end

end Xv6
