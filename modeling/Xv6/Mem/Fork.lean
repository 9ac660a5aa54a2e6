/-
# Xv6.Mem.Fork — `uvmcopy`.

The loop copies one page at a time into a table without user pages.  It writes to that table and to
pages that were free at the start, so the parent's pages keep their contents; when it fails it unmaps
and frees what it has copied.
-/
import Xv6.Mem.Uvm

namespace Xv6

open Lib Lib.Store Lib.Prog Multiset

/-- The first `k` pages of the table at `old`, as they were in `s₀`, are copied to the table at
`new`; its other entries are those of `f₀`. -/
structure CopyInv (old new : Nat) (f₀ : Nat → Pte) (s₀ : Mach) (k : Nat) (s : Mach) : Prop where
  uvm : Uvm new 0 (mapped (ptEntry s.mem new) 0 k : Multiset Nat) s₀ s
  suffix : s.freelist <:+ s₀.freelist
  low : ∀ w < k, ∃ pa, pa ∈ s₀.freelist ∧ s₀.IsPage pa ∧
    ptEntry s.mem new w = leafPte pa (PTE_FLAGS (ptEntry s₀.mem old w)) ∧
    ∀ off < PGSIZE, s.mem (pa + off) = s₀.mem (PTE2PA (ptEntry s₀.mem old w) + off)
  high : ∀ w < NVPN, k ≤ w → ptEntry s.mem new w = f₀ w

/-- The pages of the parent that `uvmcopy` reads. -/
structure Parent (s₀ : Mach) (old np : Nat) (F : Multiset Nat) : Prop where
  tree : Tree s₀.mem old
  table : ∀ p ∈ ptPages s₀.mem old, p ∈ F
  data : ∀ w < np, PTE2PA (ptEntry s₀.mem old w) ∈ F
  readable : ∀ w < np, (ptEntry s₀.mem old w).getLsbD 0 = true ∧
    (ptEntry s₀.mem old w).getLsbD 1 = true
  bound : np ≤ MAXVA / PGSIZE

variable {old new np k n : Nat} {f₀ : Nat → Pte} {s₀ s s' : Mach} {F : Multiset Nat}

/-- The pages of `F` keep their contents. -/
theorem Uvm.eqOff_frame (g : Uvm new 0 A s₀ s) (h : Own s₀ new F)
    (hx : PGROUNDDOWN x ∈ F) : s.mem x = s₀.mem x := by
  refine g.touches.mem x ?_
  rw [add_zero, mem_add, not_or]
  exact h.notMem hx

theorem Parent.agree (hp : Parent s₀ old np F) (h : Own s₀ new F)
    (g : Uvm new 0 A s₀ s) : ptRadix.Agree (ptPages s₀.mem old) s₀.mem s.mem := by
  refine hp.tree.agree g.touches.mem fun p hin => ?_
  rw [add_zero, mem_add, not_or]
  exact h.notMem (hp.table p hin)

theorem Parent.flags (hp : Parent s₀ old np F) (hw : w < np) :
    (PTE_FLAGS (ptEntry s₀.mem old w)).getLsbD 1 = true := by
  rw [getLsbD_PTE_FLAGS, (hp.readable w hw).2]
  rfl

/-- The way out of `uvmcopy`: the `k` pages copied so far go back. -/
theorem Own.wp_uncopy (h : Own s new (mapped (ptEntry s.mem new) 0 k))
    (hk : k ≤ MAXVA / PGSIZE) (hleaf : ∀ w < k, IsLeaf (ptEntry s.mem new w)) :
    wp (uvmunmap new 0 k true) (fun _ s' =>
      Uvm new (mapped (ptEntry s.mem new) 0 k) 0 s s' ∧
      ∀ w < NVPN, ptEntry s'.mem new w = if w < k then 0 else ptEntry s.mem new w) s := by
  have := Own.wp_unmap_free (A := 0) (v := 0) (n := k) (by simpa using h) (by omega)
    fun w _ hw => hleaf w (by omega)
  rw [Nat.zero_mul, add_zero] at this
  refine wp_mono this ?_
  rintro ⟨⟩ s' ⟨hu, hen⟩
  refine ⟨hu, fun w hw => ?_⟩
  rw [hen w hw, setRange, Nat.zero_add]
  exact if_congr (and_iff_right (Nat.zero_le w)) rfl rfl

theorem CopyInv.own (h : Own s₀ new F) (hc : CopyInv old new f₀ s₀ k s) :
    Own s new (mapped (ptEntry s.mem new) 0 k) :=
  (h.mono (zero_le F)).uvm hc.uvm

/-- One more page copied. -/
theorem CopyInv.cons {p : Nat} (h : Own s₀ new F) (hp : Parent s₀ old np F) (hk : k < np)
    (hc : CopyInv old new f₀ s₀ k s)
    (hnew : NewPage new k p (PTE_FLAGS (ptEntry s₀.mem old k))
      (fun i => s₀.mem (PTE2PA (ptEntry s₀.mem old k) + i))
      (mapped (ptEntry s.mem new) 0 k) s s') :
    CopyInv old new f₀ s₀ (k + 1) s' := by
  have hb := hp.bound
  have hN : MAXVA / PGSIZE ≤ NVPN := by decide
  have hown := hc.own h
  have hD := NewPage.cons_eq (A := 0) (v := 0) (k := k) (by simpa using hnew)
    (isFlags_PTE_FLAGS _) (by omega)
  rw [add_zero, add_zero] at hD
  have hu := hnew.uvm
  rw [hD] at hu
  refine ⟨hc.uvm.trans hu, hnew.suffix.trans hc.suffix, fun w hw => ?_, fun w hw hge => ?_⟩
  · rcases Nat.lt_succ_iff_lt_or_eq.mp hw with hlt | rfl
    · obtain ⟨pa, hfr, hpa, hpte, hbytes⟩ := hc.low w hlt
      have hin : pa ∈ (mapped (ptEntry s.mem new) 0 k) := by
        refine mem_mapped.mpr ⟨w, Nat.zero_le w, by omega, ?_⟩
        rw [hpte, PTE2PA_leafPte hpa (isFlags_PTE_FLAGS _)]
      refine ⟨pa, hfr, hpa, ?_, fun off hoff => ?_⟩
      · rw [hnew.entry w (by omega), if_neg (by omega), hpte]
      · rw [hnew.touches.mem, hbytes off hoff]
        rw [PGROUNDDOWN_of_mem hpa.1 (by omega) (by omega), mem_add, not_or]
        exact hown.notMem hin
    · exact ⟨p, hc.suffix.subset hnew.mem, hc.uvm.touches.isPage.mp hnew.page,
        by rw [hnew.entry w (by omega), if_pos rfl], hnew.bytes⟩
  · rw [hnew.entry w hw, if_neg (by omega)]
    exact hc.high w hw (by omega)

/-- **The loop of `uvmcopy`**: all pages are copied, or none is left. -/
theorem uvmcopyLoop_run (h : Own s₀ new F) (hp : Parent s₀ old np F) (hzero : ∀ w < np, f₀ w = 0)
    (hkn : k + n = np) (hc : CopyInv old new f₀ s₀ k s) :
    wp (uvmcopyLoop old new n (k * PGSIZE)) (fun r s' =>
      (r = 0 ∧ CopyInv old new f₀ s₀ np s') ∨
      (r = -1 ∧ Uvm new 0 0 s₀ s' ∧ ∀ w < NVPN, ptEntry s'.mem new w = f₀ w)) s := by
  have hb := hp.bound
  have hN : MAXVA / PGSIZE ≤ NVPN := by decide
  induction n generalizing s k with
  | zero =>
    obtain rfl : k = np := by omega
    exact wp_pure (.inl ⟨rfl, hc⟩)
  | succ n ih =>
    have hk : k < np := by omega
    have hva : k * PGSIZE < MAXVA := by
      unfold PGSIZE MAXVA at *
      omega
    have hold : ptEntry s.mem old k = ptEntry s₀.mem old k :=
      ptEntry_congr (hp.agree h hc.uvm) k
    have hV : ptEntry s₀.mem old k &&& PTE_V ≠ 0 := by
      rw [Ne, and_V_eq_zero, (hp.readable k hk).1]
      decide
    obtain ⟨pte, hwalk, hread⟩ := walk_of_ne_zero s old hva (by
      rw [vpn_mul, hold]
      rintro h0
      exact hV (by rw [h0]; rfl))
    rw [vpn_mul, hold] at hread
    have hown := hc.own h
    rw [uvmcopyLoop]
    refine wp_bind (wp_of_eq hwalk ?_)
    refine wp_bind (wp_of_eq hread ?_)
    rw [if_neg hV, vpn_mul]
    -- the entries of the new table stay as they are until the way out
    have undo : ∀ {t : Mach}, (∀ w, ptEntry t.mem new w = ptEntry s.mem new w) →
        Uvm new (mapped (ptEntry s.mem new) 0 k)
          (mapped (ptEntry s.mem new) 0 k) s t →
        wp (do uvmunmap new 0 k true; pure (-1)) (fun r s' =>
          (r = 0 ∧ CopyInv old new f₀ s₀ np s') ∨
          (r = -1 ∧ Uvm new 0 0 s₀ s' ∧ ∀ w < NVPN, ptEntry s'.mem new w = f₀ w)) t := by
      intro t hsame hu
      have hmap : mapped (ptEntry t.mem new) 0 k = mapped (ptEntry s.mem new) 0 k :=
        mapped_congr fun w _ _ => hsame w
      have hown' := hown.uvm hu
      rw [← hmap] at hown'
      have hleaf : ∀ w < k, IsLeaf (ptEntry t.mem new w) := fun w hw => by
        obtain ⟨pa, -, -, hpte, -⟩ := hc.low w hw
        rw [hsame, hpte]
        exact isLeaf_leafPte pa (hp.flags (by omega))
      refine wp_seq (hown'.wp_uncopy (by omega) hleaf) ?_
      rintro ⟨⟩ s' ⟨hu', hen⟩
      rw [hmap] at hu'
      refine wp_pure (.inr ⟨rfl, (hc.uvm.trans hu).trans hu', fun w hw => ?_⟩)
      rw [hen w hw, hsame]
      split
      · rw [hzero w (by omega)]
      · exact hc.high w hw (by omega)
    refine wp_seq hown.wp_kalloc ?_
    rintro r t ⟨hsame, ⟨rfl, hu, -⟩ | ⟨p, rfl, hpf, hto, hu, hlen⟩⟩
    · exact undo hsame hu
    refine wp_bind (wp_modify ?_)
    refine wp_seq (hown.wp_newPage _ hva ?_ hpf hto hu hsame hlen
      fun i => t.mem (PTE2PA (ptEntry s₀.mem old k) + i)) ?_
    · rw [hc.high k (by omega) le_rfl, hzero k hk]
      decide
    rintro r t' (⟨rfl, hnew⟩ | ⟨rfl, hu', hsame'⟩)
    · rw [if_neg (by decide), ← Nat.add_one_mul]
      -- the page that is copied was not free at the start
      have hsrc : ∀ off < PGSIZE, t.mem (PTE2PA (ptEntry s₀.mem old k) + off) =
          s₀.mem (PTE2PA (ptEntry s₀.mem old k) + off) := by
        intro off hoff
        have hin : PGROUNDDOWN (PTE2PA (ptEntry s₀.mem old k) + off) ∈ F := by
          rw [PGROUNDDOWN_of_mem (PTE2PA_dvd (ptEntry s₀.mem old k)) (by omega) (by omega)]
          exact hp.data k hk
        exact (hc.uvm.trans hu).eqOff_frame h hin
      exact ih (by omega) (hc.cons h hp hk
        { hnew with bytes := fun off hoff => (hnew.bytes off hoff).trans (hsrc off hoff) })
    · rw [if_pos (by decide)]
      refine wp_seq (hown.uvm hu').wp_kfree ?_
      rintro ⟨⟩ t'' ⟨hu'', hsame''⟩
      exact undo (fun w => (hsame'' w).trans (hsame' w)) (hu'.trans hu'')

/-- **`uvmcopy`** gives the new table its own copy of every page, or leaves it as it was. -/
theorem Parent.wp_uvmcopy (hsz : sz < 2 ^ 63) (h : Own s₀ new F)
    (hp : Parent s₀ old (npages sz) F)
    (hzero : ∀ w < npages sz, ptEntry s₀.mem new w = 0) :
    wp (uvmcopy old new sz) (fun r s' =>
      (r = 0 ∧ CopyInv old new (ptEntry s₀.mem new) s₀ (npages sz) s') ∨
      (r = -1 ∧ Uvm new 0 0 s₀ s' ∧
        ∀ w < NVPN, ptEntry s'.mem new w = ptEntry s₀.mem new w)) s₀ := by
  have := uvmcopyLoop_run (k := 0) (n := npages sz) h hp hzero (by omega)
    ⟨Uvm.refl (h.mono (zero_le F)), List.suffix_rfl, fun w hw => absurd hw (by omega),
      fun w _ _ => rfl⟩
  rw [Nat.zero_mul] at this
  rwa [uvmcopy, ← npages_eq hsz]

end Xv6
