/-
# Xv6.Mem.Uvm — growing and shrinking user memory.

`uvmunmap`, `uvmdealloc` and `uvmalloc` as moves of pages.  The loop of `uvmalloc` keeps what it has
mapped so far; when it runs out of memory it gives exactly that back, so a failed call leaves the
entries as they were.
-/
import Xv6.Mem.Own

namespace Xv6

open Lib Lib.Store Lib.Prog Multiset List

variable {perm : Pte} {k p : Nat} {g : Nat → Byte} {D : Multiset Nat}

/-- The number of pages that a size takes. -/
def npages (sz : Nat) : Nat := PGROUNDUP sz / PGSIZE

/-- A mapped page, as opposed to a link to a page-table page. -/
def IsLeaf (e : Pte) : Prop := e &&& PTE_V ≠ 0 ∧ PTE_FLAGS e ≠ PTE_V

variable {s s' s'' : Mach} {root v n : Nat} {A B : Multiset Nat}

/-! ## Sizes -/

theorem PGROUNDUP_eq (sz : Nat) : PGROUNDUP sz = npages sz * PGSIZE := by
  rw [npages, PGROUNDUP, vpn_mul]

theorem npages_eq (h : sz < 2 ^ 63) : npages sz = (sz + PGSIZE - 1) / PGSIZE := by
  unfold npages PGROUNDUP PGSIZE
  omega

theorem npages_mono (h : a ≤ b) (hb : b < 2 ^ 63) : npages a ≤ npages b := by
  unfold npages PGROUNDUP PGSIZE
  omega

@[simp] theorem npages_mul (h : v < 2 ^ 50) : npages (v * PGSIZE) = v := by
  unfold npages PGROUNDUP PGSIZE
  omega

theorem npages_zero : npages 0 = 0 := rfl

/-- `npages` of `uvmdealloc`: the detour over `int` keeps every number that fits. -/
theorem toNat_signExtend (h : n < 2 ^ 31) : ((BitVec.ofNat 32 n).signExtend 64).toNat = n := by
  have hmsb : (BitVec.ofNat 32 n).msb = false := by
    rw [BitVec.msb_eq_decide]
    simp
    omega
  rw [BitVec.signExtend_eq_setWidth_of_msb_false hmsb, BitVec.toNat_setWidth, BitVec.toNat_ofNat]
  omega

/-! ## Entries of user pages -/

theorem mapped_concat (f : Nat → Pte) (v n : Nat) :
    mapped f v (n + 1) = mapped f v n ++ [PTE2PA (f (v + n))] := by
  rw [mapped, List.range'_1_concat, List.map_append, List.map_singleton]
  rfl

theorem mapped_split (f : Nat → Pte) (hab : a ≤ b) (hbc : b ≤ c) :
    mapped f a (c - a) = mapped f a (b - a) ++ mapped f b (c - b) := by
  have := range'_append_1 (s := a) (m := b - a) (n := c - b)
  rw [Nat.add_sub_cancel' hab, show b - a + (c - b) = c - a by omega] at this
  rw [mapped, mapped, mapped, ← map_append, this]

theorem PTE2PA_leafPte (hpa : s.IsPage pa) (hperm : IsFlags perm) :
    PTE2PA (leafPte pa perm) = pa := by
  have hlt : pa < 2 ^ 64 := by
    have := hpa.2.2
    unfold PHYSTOP KERNBASE at this
    omega
  rw [leafPte, BitVec.or_assoc, PTE2PA_or hlt (hperm.or (by decide)), PGROUNDDOWN,
    Nat.div_mul_cancel hpa.1]

theorem getLsbD_leafPte (pa : Nat) (perm : Pte) (hi : i < 10) :
    (leafPte pa perm).getLsbD i = (perm.getLsbD i || PTE_V.getLsbD i) := by
  rw [leafPte, BitVec.or_assoc, getLsbD_or_of_lt pa _ hi, BitVec.getLsbD_or]

/-- An entry with the valid bit and another flag is a leaf. -/
theorem isLeaf_of_getLsbD (hV : e.getLsbD 0 = true) (hi : 0 < i)
    (hi' : i < 10) (he : e.getLsbD i = true) : IsLeaf e := by
  constructor
  · rw [Ne, and_V_eq_zero, hV]
    decide
  · intro h
    have := congrArg (fun x : Pte => x.getLsbD i) h
    simp only [getLsbD_PTE_FLAGS, he, hi', decide_true, Bool.and_self, PTE_V,
      BitVec.shiftLeft_zero, BitVec.getLsbD_one] at this
    simp at this
    omega

/-- A page mapped readable is a leaf. -/
theorem isLeaf_leafPte (pa : Nat) (hR : perm.getLsbD 1 = true) : IsLeaf (leafPte pa perm) := by
  refine isLeaf_of_getLsbD (i := 1) ?_ (by omega) (by omega) ?_
  · rw [getLsbD_leafPte pa perm (by omega)]
    simp [PTE_V]
  · rw [getLsbD_leafPte pa perm (by omega), hR]
    rfl

/-! ## Unmapping -/

/-- `uvmunmap` with freeing gives the pages back. -/
theorem Own.wp_unmap_free (h : Own s root (mapped (ptEntry s.mem root) v n + A))
    (hvn : v + n ≤ MAXVA / PGSIZE)
    (hleaf : ∀ w, v ≤ w → w < v + n → IsLeaf (ptEntry s.mem root w)) :
    wp (uvmunmap root (v * PGSIZE) n true) (fun _ s' =>
      Uvm root (mapped (ptEntry s.mem root) v n + A) A s s' ∧
      ∀ w < NVPN, ptEntry s'.mem root w = setRange (ptEntry s.mem root) v n (fun _ => 0) w) s := by
  have hin : ∀ w, v ≤ w → w < v + n →
      PTE2PA (ptEntry s.mem root w) ∈ (mapped (ptEntry s.mem root) v n) + A :=
    fun w hw hw' => mem_add.mpr (.inl (mem_mapped.mpr ⟨w, hw, hw', rfl⟩))
  refine wp_mono (uvmunmap_spec h.tree hvn fun w hw hw' => ⟨(hleaf w hw hw').1,
    (hleaf w hw hw').2, fun _ => ⟨h.isPage (hin w hw hw'), (h.notMem (hin w hw hw')).1⟩⟩) ?_
  rintro ⟨⟩ s' hun
  refine ⟨⟨hun.touches.mono ?_, hun.refreed fun _ => ?_, ?_, hun.tree.linked⟩, hun.entry⟩
  · refine subset_of_le ?_
    rw [if_pos rfl, add_assoc]
    exact add_le_add_right ((le_add_right _ A).trans (le_add_left _ _)) _
  · rw [← coe_nodup, ← coe_add, add_comm]
    refine nodup_of_le ?_ h.nodup
    rw [← add_assoc, add_assoc (ptPages s.mem root)]
    exact (le_add_left _ _).trans (le_add_right _ _)
  · rw [hun.pages, hun.freelist, if_pos rfl, ← coe_add, coe_reverse]
    abel

/-- `uvmunmap` without freeing moves no page. -/
theorem Own.wp_unmap_keep (h : Own s root A) (hvn : v + n ≤ MAXVA / PGSIZE)
    (hleaf : ∀ w, v ≤ w → w < v + n → IsLeaf (ptEntry s.mem root w)) :
    wp (uvmunmap root (v * PGSIZE) n false) (fun _ s' => Uvm root A A s s' ∧
      ∀ w < NVPN, ptEntry s'.mem root w = setRange (ptEntry s.mem root) v n (fun _ => 0) w) s := by
  refine wp_mono (uvmunmap_spec h.tree hvn fun w hw hw' => ⟨(hleaf w hw hw').1,
    (hleaf w hw hw').2, (fun hd => nomatch hd)⟩) ?_
  rintro ⟨⟩ s' hun
  refine ⟨⟨hun.touches.mono ?_, hun.refreed (fun hd => nomatch hd), ?_, hun.tree.linked⟩,
    hun.entry⟩
  · refine subset_of_le ?_
    rw [if_neg (by decide), add_zero, add_assoc]
    exact le_add_right _ _
  · rw [hun.pages, hun.freelist]
    rfl

/-- **`uvmdealloc`** gives back the pages between the two sizes. -/
theorem Own.wp_uvmdealloc (hsz : newsz < oldsz)
    (hold : npages oldsz ≤ MAXVA / PGSIZE) (hlt : oldsz < 2 ^ 63)
    (h : Own s root (mapped (ptEntry s.mem root) (npages newsz)
      (npages oldsz - npages newsz) + A))
    (hleaf : ∀ w, npages newsz ≤ w → w < npages oldsz → IsLeaf (ptEntry s.mem root w)) :
    wp (uvmdealloc root oldsz newsz) (fun r s' => r = newsz ∧
      Uvm root (mapped (ptEntry s.mem root) (npages newsz)
        (npages oldsz - npages newsz) + A) A s s' ∧
      ∀ w < NVPN, ptEntry s'.mem root w = setRange (ptEntry s.mem root) (npages newsz)
        (npages oldsz - npages newsz) (fun _ => 0) w) s := by
  have hmono : npages newsz ≤ npages oldsz := npages_mono hsz.le hlt
  rw [uvmdealloc, if_neg (by omega), PGROUNDUP_eq, PGROUNDUP_eq]
  by_cases hpg : npages newsz = npages oldsz
  · rw [if_neg (by rw [hpg]; omega)]
    refine wp_pure ⟨rfl, ?_, fun w _ => ?_⟩
    · rw [hpg, Nat.sub_self] at h ⊢
      simpa [mapped] using Uvm.refl h
    · rw [hpg, Nat.sub_self, setRange_zero]
  · have hltp : npages newsz * PGSIZE < npages oldsz * PGSIZE :=
      Nat.mul_lt_mul_of_pos_right (by omega) (by decide)
    have hcount : (npages oldsz * PGSIZE - npages newsz * PGSIZE) / PGSIZE =
        npages oldsz - npages newsz := by
      rw [← Nat.sub_mul, vpn_mul]
    rw [if_pos hltp, hcount]
    dsimp only
    rw [toNat_signExtend (by unfold MAXVA PGSIZE at hold; omega)]
    refine wp_seq (h.wp_unmap_free (by omega) fun w hw hw' => hleaf w hw (by omega)) ?_
    rintro ⟨⟩ s' ⟨hu, hen⟩
    exact wp_pure ⟨rfl, hu, hen⟩

/-! ## A new page -/

/-- From `s` to `s'` a free page `p` was filled with `g` and mapped at `v`; only the table and free
pages were written. -/
structure NewPage (root v p : Nat) (perm : Pte) (g : Nat → Byte) (D : Multiset Nat) (s s' : Mach) :
    Prop where
  page : s.IsPage p
  uvm : Uvm root D (p ::ₘ D) s s'
  touches : Touches (ptPages s.mem root + (s.freelist : Multiset Nat)) s s'
  entry : ∀ w < NVPN, ptEntry s'.mem root w = if w = v then leafPte p perm else ptEntry s.mem root w
  bytes : ∀ off < PGSIZE, s'.mem (p + off) = g off
  free : ∃ l, s.freelist = p :: l ∧ s'.freelist <:+ l

theorem NewPage.mem (h : NewPage root v p perm g D s s') : p ∈ s.freelist := by
  obtain ⟨l, hl, -⟩ := h.free
  exact hl ▸ mem_cons_self

theorem NewPage.suffix (h : NewPage root v p perm g D s s') : s'.freelist <:+ s.freelist := by
  obtain ⟨l, hl, hsuf⟩ := h.free
  exact hl ▸ hsuf.trans (suffix_cons p l)

theorem NewPage.length (h : NewPage root v p perm g D s s') : s'.freelist.length < s.freelist.length := by
  obtain ⟨l, hl, hsuf⟩ := h.free
  rw [hl, length_cons]
  exact Nat.lt_succ_of_le hsuf.length_le

/-- Filling and mapping the page `p` that `kalloc` has just returned, in state `t`. -/
theorem Own.wp_newPage (h : Own s root D) (perm : Pte) (hva : v * PGSIZE < MAXVA)
    (hfree : ptEntry s.mem root v &&& PTE_V = 0) (hpf : p ∈ s.freelist) (hto : Touches {p} s t)
    (hu : Uvm root D (p ::ₘ D) s t) (hsame : ∀ w, ptEntry t.mem root w = ptEntry s.mem root w)
    (hfl : s.freelist = p :: t.freelist) (g : Nat → Byte) :
    wp (mappages root (v * PGSIZE) PGSIZE p perm) (fun r s' =>
      (r = 0 ∧ NewPage root v p perm g D s s') ∨
      (r = -1 ∧ Uvm root D (p ::ₘ D) s s' ∧
        ∀ w, ptEntry s'.mem root w = ptEntry s.mem root w))
      { t with mem := fill t.mem p PGSIZE g } := by
  have hpage : s.IsPage p := h.tblOk.free p hpf
  have hto' : Touches {p} t { t with mem := fill t.mem p PGSIZE g } :=
    ⟨rfl, rfl, eqOff_fill t.mem g hpage.1 le_rfl le_rfl⟩
  obtain ⟨hu', hsame'⟩ := (h.uvm hu).write (mem_cons_self p D) hto' rfl rfl
  have hown := h.uvm (hu.trans hu')
  refine wp_mono (mappages_page p perm hown.tblOk hva ?_) ?_
  · rwa [hsame', hsame]
  rintro r s' ⟨hed, hres⟩
  have hus := (hu.trans hu').trans (hed.uvm _)
  rcases hres with ⟨rfl, hen⟩ | ⟨rfl, hen⟩
  · -- the pages in play are those of `s`, without the data pages
    have hall := (hu.trans hu').of_cons
    have hp := hown.notMem (mem_cons_self p D)
    refine .inl ⟨rfl, hpage, hus, ?_, fun w hw => ?_, fun off hoff => ?_, ?_⟩
    · refine ((hto.trans hto').mono ?_).trans (hed.touches.mono ?_)
      · exact singleton_subset.mpr (mem_add.mpr (.inr hpf))
      · rw [← hall]
        exact subset_of_le (le_add_right _ _)
    · rw [hen w hw, hsame', hsame]
    · rw [hed.touches.mem]
      · exact (fill_of_mem _ _ (by omega) (by omega)).trans (by rw [Nat.add_sub_cancel_left])
      · rw [PGROUNDDOWN_of_mem hpage.1 (by omega) (by omega), mem_add, not_or]
        exact hp
    · exact ⟨t.freelist, hfl, hed.suffix⟩
  · refine .inr ⟨rfl, hus, fun w => ?_⟩
    rw [hen, hsame', hsame]

/-! ## Allocating -/

/-- From `s` to `s'` the `n` pages from `v` on were mapped to fresh zero pages; only the table and
free pages were written. -/
structure Alloced (root v n : Nat) (perm : Pte) (s s' : Mach) : Prop where
  touches : Touches (ptPages s.mem root + (s.freelist : Multiset Nat)) s s'
  suffix : s'.freelist <:+ s.freelist
  same : ∀ w < NVPN, w < v ∨ v + n ≤ w → ptEntry s'.mem root w = ptEntry s.mem root w
  fresh : ∀ w, v ≤ w → w < v + n → ∃ pa, pa ∈ s.freelist ∧ s.IsPage pa ∧
    ptEntry s'.mem root w = leafPte pa perm ∧ ∀ off < PGSIZE, s'.mem (pa + off) = 0

/-- The way out of `uvmalloc`: the `k` pages mapped so far go back. -/
theorem Own.wp_undo (h : Own s root (mapped (ptEntry s.mem root) v k + A))
    (hvk : v + k ≤ MAXVA / PGSIZE) (hleaf : ∀ w, v ≤ w → w < v + k → IsLeaf (ptEntry s.mem root w)) :
    wp (uvmdealloc root ((v + k) * PGSIZE) (v * PGSIZE)) (fun _ s' =>
      Uvm root (mapped (ptEntry s.mem root) v k + A) A s s' ∧
      ∀ w < NVPN, ptEntry s'.mem root w = setRange (ptEntry s.mem root) v k (fun _ => 0) w) s := by
  rcases Nat.eq_zero_or_pos k with rfl | hk
  · rw [uvmdealloc, Nat.add_zero, if_pos le_rfl]
    refine wp_pure ⟨?_, fun w _ => by rw [setRange_zero]⟩
    simpa [mapped] using Uvm.refl h
  · have hb : v + k < 2 ^ 50 := by
      unfold MAXVA PGSIZE at hvk
      omega
    have e1 : npages ((v + k) * PGSIZE) = v + k := npages_mul hb
    have e2 : npages (v * PGSIZE) = v := npages_mul (by omega)
    have e3 : v + k - v = k := by omega
    refine wp_mono (Own.wp_uvmdealloc (A := A) ?_ ?_ ?_ ?_ ?_) ?_
    · exact Nat.mul_lt_mul_of_pos_right (by omega) (by decide)
    · rwa [e1]
    · unfold PGSIZE
      omega
    · rwa [e1, e2, e3]
    · rwa [e1, e2]
    · rintro r s' ⟨-, hu, hen⟩
      rw [e1, e2, e3] at hu hen
      exact ⟨hu, hen⟩

/-- The next page of `uvmalloc`, added to the `k` before it. -/
theorem NewPage.cons_eq
    (hnew : NewPage root (v + k) p perm g
      (mapped (ptEntry s.mem root) v k + A) s s')
    (hperm : IsFlags perm) (hvk : v + k < NVPN) :
    p ::ₘ (mapped (ptEntry s.mem root) v k + A) =
      mapped (ptEntry s'.mem root) v (k + 1) + A := by
  have hlast : PTE2PA (ptEntry s'.mem root (v + k)) = p := by
    rw [hnew.entry _ hvk, if_pos rfl, PTE2PA_leafPte hnew.page hperm]
  have hrest : mapped (ptEntry s'.mem root) v k = mapped (ptEntry s.mem root) v k :=
    mapped_congr fun w _ hw => by rw [hnew.entry w (by omega), if_neg (by omega)]
  rw [mapped_concat, hlast, hrest, ← coe_add, coe_singleton,
    ← singleton_add]
  abel

/-- What a run of the loop of `uvmalloc` promises when `k` pages are mapped and `n` are still to
come: all of them mapped, or none left. -/
def AllocRun (root v k n newsz top : Nat) (perm : Pte) (A : Multiset Nat) (s : Mach) (r : Nat)
    (s' : Mach) : Prop :=
  (r = newsz ∧ v + k + n ≤ top ∧ Alloced root (v + k) n perm s s' ∧
    Uvm root ((mapped (ptEntry s.mem root) v k : Multiset Nat) + A)
      ((mapped (ptEntry s'.mem root) v (k + n) : Multiset Nat) + A) s s') ∨
  (r = 0 ∧ Uvm root ((mapped (ptEntry s.mem root) v k : Multiset Nat) + A) A s s' ∧
    ∀ w < NVPN, ptEntry s'.mem root w = setRange (ptEntry s.mem root) v k (fun _ => 0) w ∨
      v + k ≤ w ∧ w < top ∧ ptEntry s'.mem root w = 0)

/-- One more page, then the rest. -/
theorem AllocRun.cons {newsz top r : Nat} {t : Mach} (hperm : IsFlags perm) (htop : top ≤ NVPN)
    (hvk : v + k < top) (h : Own s root (mapped (ptEntry s.mem root) v k + A))
    (hnew : NewPage root (v + k) p perm (fun _ => 0)
      (mapped (ptEntry s.mem root) v k + A) s t)
    (hrun : AllocRun root v (k + 1) n newsz top perm A t r s') :
    AllocRun root v k (n + 1) newsz top perm A s r s' := by
  have hD := hnew.cons_eq hperm (by omega)
  have hu : Uvm root (mapped (ptEntry s.mem root) v k + A)
      (mapped (ptEntry t.mem root) v (k + 1) + A) s t := by
    rw [← hD]
    exact hnew.uvm
  have hown := h.uvm hu
  rcases hrun with ⟨rfl, hle, hal, hu'⟩ | ⟨rfl, hu', hen⟩
  · refine .inl ⟨rfl, by omega, ⟨?_, hal.suffix.trans hnew.suffix, fun w hw hout => ?_,
      fun w hw hw' => ?_⟩, ?_⟩
    · refine hnew.touches.trans (hal.touches.mono ?_)
      rw [← hnew.uvm.of_cons]
      exact subset_of_le (le_add_right _ _)
    · rw [hal.same w hw (by omega), hnew.entry w hw, if_neg (by omega)]
    · rcases Nat.eq_or_lt_of_le hw with rfl | hlt
      · -- the page just mapped is a data page by now, and stays as it is
        refine ⟨p, hnew.mem, hnew.page, ?_, fun off hoff => ?_⟩
        · rw [hal.same _ (by omega) (by omega), hnew.entry _ (by omega), if_pos rfl]
        · rw [hal.touches.mem, hnew.bytes off hoff]
          rw [PGROUNDDOWN_of_mem hnew.page.1 (by omega) (by omega), mem_add, not_or]
          exact (h.uvm hnew.uvm).notMem (mem_cons_self p _)
      · obtain ⟨pa, hfr, hpa, hpte, hz⟩ := hal.fresh w (by omega) (by omega)
        exact ⟨pa, hnew.suffix.subset hfr, hnew.touches.isPage.mp hpa, hpte, hz⟩
    · rw [show k + (n + 1) = k + 1 + n by omega]
      exact hu.trans hu'
  · refine .inr ⟨rfl, hu.trans hu', fun w hw => ?_⟩
    rcases hen w hw with hen | ⟨h1, h2, hz⟩
    · rw [setRange, hnew.entry w hw] at hen
      by_cases hwk : w = v + k
      · rw [if_pos (by omega)] at hen
        exact .inr ⟨by omega, by omega, hen⟩
      · rw [if_neg hwk] at hen
        refine .inl (hen.trans ?_)
        rw [setRange]
        exact if_congr (by omega) rfl rfl
    · exact .inr ⟨by omega, h2, hz⟩

/-- **The loop of `uvmalloc`.** Every page it maps leaves the free list, so it stays below `top` if
the pages to come or the free pages do. -/
theorem uvmallocLoop_run (top newsz : Nat) (hperm : IsFlags xperm)
    (htop : top ≤ MAXVA / PGSIZE) (hcap : v + k + min n s.freelist.length ≤ top)
    (hnone : ∀ w, v + k ≤ w → w < top → ptEntry s.mem root w &&& PTE_V = 0)
    (h : Own s root (mapped (ptEntry s.mem root) v k + A))
    (hleaf : ∀ w, v ≤ w → w < v + k → IsLeaf (ptEntry s.mem root w)) :
    wp (uvmallocLoop root (v * PGSIZE) newsz xperm n ((v + k) * PGSIZE))
      (AllocRun root v k n newsz top (PTE_R ||| PTE_U ||| xperm) A s) s := by
  have hNVPN : MAXVA / PGSIZE ≤ NVPN := by decide
  have hflags : IsFlags (PTE_R ||| PTE_U ||| xperm) := IsFlags.or (by decide) hperm
  induction n generalizing s k with
  | zero =>
    refine wp_pure (.inl ⟨rfl, by omega, ⟨Touches.refl _ _, suffix_rfl, fun _ _ _ => rfl, ?_⟩,
      Uvm.refl h⟩)
    intro w hw hw'
    omega
  | succ n ih =>
    -- the entries stay as they are until the way out
    have undo : ∀ {t : Mach}, (∀ w, ptEntry t.mem root w = ptEntry s.mem root w) →
        Uvm root (mapped (ptEntry s.mem root) v k + A)
          (mapped (ptEntry s.mem root) v k + A) s t →
        wp (do let _ ← uvmdealloc root ((v + k) * PGSIZE) (v * PGSIZE); pure 0)
          (AllocRun root v k (n + 1) newsz top (PTE_R ||| PTE_U ||| xperm) A s) t := by
      intro t hsame hu
      have hmap : mapped (ptEntry t.mem root) v k = mapped (ptEntry s.mem root) v k :=
        mapped_congr fun w _ _ => hsame w
      refine wp_seq (Own.wp_undo (v := v) (k := k) (A := A) (hmap.symm ▸ h.uvm hu) (by omega)
        fun w hw hw' => hsame w ▸ hleaf w hw hw') ?_
      rintro r s' ⟨hu', hen⟩
      rw [hmap] at hu'
      refine wp_pure (.inr ⟨rfl, hu.trans hu', fun w hw => .inl ?_⟩)
      rw [hen w hw, setRange, setRange, hsame]
    rw [uvmallocLoop]
    refine wp_seq h.wp_kalloc ?_
    rintro r t ⟨hsame, ⟨rfl, hu, -⟩ | ⟨p, rfl, hpf, hto, hu, hfl⟩⟩
    · exact undo hsame hu
    refine wp_bind (wp_modify ?_)
    have hlen : 0 < s.freelist.length := length_pos_of_mem hpf
    have hva : (v + k) * PGSIZE < MAXVA := by
      unfold PGSIZE MAXVA at *
      omega
    refine wp_seq (h.wp_newPage (PTE_R ||| PTE_U ||| xperm) hva (hnone _ le_rfl (by omega)) hpf
      hto hu hsame hfl fun _ => 0) ?_
    rintro r t' (⟨rfl, hnew⟩ | ⟨rfl, hu', hsame'⟩)
    · rw [if_neg (by decide), ← Nat.add_one_mul, Nat.add_assoc]
      have hD := hnew.cons_eq hflags (by omega)
      have hlen' := hnew.length
      refine wp_mono (ih (k := k + 1) ?_ ?_ ?_ ?_) fun r s' hrun => ?_
      · omega
      · intro w hw hw'
        rw [hnew.entry w (by omega), if_neg (by omega)]
        exact hnone w (by omega) hw'
      · exact hD ▸ h.uvm hnew.uvm
      · intro w hw hw'
        rw [hnew.entry w (by omega)]
        split
        · exact isLeaf_leafPte p (by simp [PTE_R])
        · exact hleaf w hw (by omega)
      · exact hrun.cons hflags (by omega) (by omega) h hnew
    · rw [if_pos (by decide)]
      refine wp_seq (h.uvm hu').wp_kfree ?_
      rintro ⟨⟩ t'' ⟨hu'', hsame''⟩
      exact undo (fun w => (hsame'' w).trans (hsame' w)) (hu'.trans hu'')

/-- What `uvmalloc` does: nothing if the size does not grow, all the pages, or none. -/
inductive UvmAlloc (root oldsz newsz top : Nat) (perm : Pte) (A : Multiset Nat) (s : Mach) (r : Nat)
    (s' : Mach) : Prop
  | shrink (hsz : newsz < oldsz) (hr : r = oldsz) (hs : s' = s)
  | grown (hsz : oldsz ≤ newsz) (hr : r = newsz) (hlt : newsz < 2 ^ 63) (htop : npages newsz ≤ top)
      (hal : Alloced root (npages oldsz) (npages newsz - npages oldsz) perm s s')
      (hu : Uvm root A ((mapped (ptEntry s'.mem root) (npages oldsz)
        (npages newsz - npages oldsz) : Multiset Nat) + A) s s')
  | failed (hsz : oldsz ≤ newsz) (hr : r = 0) (hu : Uvm root A A s s')
      (hsame : ∀ w < NVPN, ptEntry s'.mem root w = ptEntry s.mem root w ∨
        npages oldsz ≤ w ∧ w < top ∧ ptEntry s'.mem root w = 0)

/-- **`uvmalloc`.** -/
theorem Own.wp_uvmalloc (h : Own s root A) (newsz top : Nat)
    (hperm : IsFlags xperm) (htop : top ≤ MAXVA / PGSIZE) (hold : oldsz < 2 ^ 63)
    (hcap : npages oldsz +
      min ((newsz - npages oldsz * PGSIZE + PGSIZE - 1) / PGSIZE) s.freelist.length ≤ top)
    (hnone : ∀ w, npages oldsz ≤ w → w < top → ptEntry s.mem root w &&& PTE_V = 0) :
    wp (uvmalloc root oldsz newsz xperm)
      (UvmAlloc root oldsz newsz top (PTE_R ||| PTE_U ||| xperm) A s) s := by
  rw [uvmalloc]
  by_cases hsz : newsz < oldsz
  · rw [if_pos hsz]
    exact wp_pure (.shrink hsz rfl rfl)
  rw [if_neg hsz, PGROUNDUP_eq]
  have hrun := uvmallocLoop_run top newsz (v := npages oldsz) (k := 0) (A := A)
    (n := (newsz - npages oldsz * PGSIZE + PGSIZE - 1) / PGSIZE) hperm htop hcap hnone
    (by simpa [mapped] using h) (by omega)
  refine wp_mono hrun ?_
  rintro r s' (⟨hr, hle, hal, hu⟩ | ⟨hr, hu, hen⟩)
  · have hnew : newsz < 2 ^ 63 := by
      unfold MAXVA PGSIZE at *
      omega
    have hn : (newsz - npages oldsz * PGSIZE + PGSIZE - 1) / PGSIZE =
        npages newsz - npages oldsz := by
      unfold npages PGROUNDUP PGSIZE
      omega
    have hmono := npages_mono (Nat.le_of_not_lt hsz) hnew
    rw [hn] at hle hal hu
    rw [Nat.zero_add] at hu
    refine .grown (Nat.le_of_not_lt hsz) hr hnew (by omega) hal ?_
    simpa [mapped] using hu
  · refine .failed (Nat.le_of_not_lt hsz) hr (by simpa [mapped] using hu) fun w hw => ?_
    rcases hen w hw with hen | hen
    · exact .inl (by rw [hen, setRange_zero])
    · exact .inr hen

end Xv6
