/-
# Xv6.Proc.Isolation — address spaces along a run.

Between calls every page table is laid out as `proc_pagetable`, `uvmalloc` and `exec` mean it to be;
a call leaves the memory of the other processes alone; and `copyout` writes user pages only.  It does
write pages that the program itself may only read: `walkaddr` asks for `PTE_U` and not for `PTE_W`.
-/
import Xv6.Proc.Owner

namespace Xv6

open Lib Lib.Store Lib.Prog Multiset

variable {k k' : Kernel} {X : Multiset Nat} {Y : Fin NFILE → Int} {E : Finset (Fin NPROC)}
  {pages : List Nat} {i q : Fin NPROC} {m : Store} {root sz trampoline tf us : Nat}
  {guard : Option Nat}

/-! ## Layout -/

/-- What is mapped at a page, for each of the pages that are mapped. -/
theorem Space.valid_page (hs : Space m trampoline root sz tf us guard) (hv : v < NVPN)
    (hV : (ptEntry m root v).getLsbD 0 = true) :
    (v < npages sz ∧ PTE2PA (ptEntry m root v) ∈ mapped (ptEntry m root) 0 (npages sz)) ∨
    (v = vUSYSCALL ∧ PTE2PA (ptEntry m root v) = us) ∨
    (v = vTRAPFRAME ∧ PTE2PA (ptEntry m root v) = tf) ∨
    (v = vTRAMPOLINE ∧ PTE2PA (ptEntry m root v) = trampoline) := by
  by_cases hnp : v < npages sz
  · exact .inl ⟨hnp, List.mem_map_of_mem (List.mem_range'_1.mpr ⟨Nat.zero_le v, by omega⟩)⟩
  by_cases hU : v = vUSYSCALL
  · exact .inr (.inl ⟨hU, hU ▸ hs.layout.usyscall.page⟩)
  by_cases hF : v = vTRAPFRAME
  · exact .inr (.inr (.inl ⟨hF, hF ▸ hs.layout.trapframe.page⟩))
  by_cases hP : v = vTRAMPOLINE
  · exact .inr (.inr (.inr ⟨hP, hP ▸ hs.layout.trampoline.page⟩))
  · rw [hs.layout.none v hv (by omega) hU hF hP] at hV
    exact absurd hV (by decide)

/-- **No physical page is mapped twice** in one table. -/
theorem KInv.entry_inj (h : KInv k X Y E) (hr : (k.proc i).pagetable = some root)
    (hv : v < NVPN) (hw : w < NVPN) (hV : (ptEntry k.mach.mem root v).getLsbD 0 = true)
    (hW : (ptEntry k.mach.mem root w).getLsbD 0 = true)
    (heq : PTE2PA (ptEntry k.mach.mem root v) = PTE2PA (ptEntry k.mach.mem root w)) : v = w := by
  obtain ⟨tf, us, htf, hus, hs⟩ := (h.proc i).space root hr
  have hidle := h.idle_space hr htf hus
  set mp := mapped (ptEntry k.mach.mem root) 0 (npages (k.proc i).sz) with hmp
  -- the pages of the process are distinct, and none of them is in the kernel image
  have hpart : (mp : Multiset Nat) + {us} + {tf} ≤
      k.mach.freelist + (spacePages k.mach.mem root (k.proc i).sz + {us} +
        ({tf} + (X + k.rest i))) := by
    refine le_trans ?_ (le_add_left _ _)
    rw [spacePages, ← hmp, ← add_assoc _ ({tf} : Multiset Nat)]
    refine le_trans ?_ (le_add_right _ _)
    exact add_le_add (add_le_add (le_add_left _ _) le_rfl) le_rfl
  have hnd := nodup_of_le hpart hidle.nodup
  have hram : ∀ p ∈ (mp : Multiset Nat) + {us} + {tf}, p ≠ k.mach.trampoline := by
    rintro p hp rfl
    have := (hidle.page _ (subset_of_le hpart hp)).2.1
    exact absurd h.trampoline.2 (by omega)
  obtain ⟨hnd, -, hdis⟩ := nodup_add.mp hnd
  obtain ⟨hmap, -, hdis'⟩ := nodup_add.mp hnd
  have htf' : tf ∉ (mp : Multiset Nat) + {us} :=
    disjoint_right.mp hdis (mem_singleton_self tf)
  have hus' : us ∉ mp := disjoint_right.mp hdis' (mem_singleton_self us)
  simp only [mem_add, mem_coe, mem_singleton, not_or] at htf' hram
  have hinj := fun hv hw => mapped_inj (v := v) (w := w) (coe_nodup.mp hmap) hv hw heq
  rcases hs.valid_page hv hV with ⟨hv, hp⟩ | ⟨hv, hp⟩ | ⟨hv, hp⟩ | ⟨hv, hp⟩ <;>
    rcases hs.valid_page hw hW with ⟨hw, hq⟩ | ⟨hw, hq⟩ | ⟨hw, hq⟩ | ⟨hw, hq⟩ <;> grind

/-- The table at `root` is the address space of `p`: the mapped pages are the pages below the size and
the three at the top; the former are distinct, readable and, but for the guard page that `exec` made,
for the user; the trampoline and the trapframe are not for the user. -/
structure Proc.LaidOut (m : Store) (p : Proc) (root : Nat) : Prop where
  valid : ∀ v < NVPN, ptEntry m root v &&& PTE_V ≠ 0 ↔
    v < PGROUNDUP p.sz / PGSIZE ∨ v = vUSYSCALL ∨ v = vTRAPFRAME ∨ v = vTRAMPOLINE
  distinct : ∀ v < PGROUNDUP p.sz / PGSIZE, ∀ w < PGROUNDUP p.sz / PGSIZE,
    PTE2PA (ptEntry m root v) = PTE2PA (ptEntry m root w) → v = w
  readable : ∀ v < PGROUNDUP p.sz / PGSIZE, ptEntry m root v &&& PTE_R ≠ 0
  user : ∀ v < PGROUNDUP p.sz / PGSIZE, p.guard ≠ some v → ptEntry m root v &&& PTE_U ≠ 0
  trampoline : ptEntry m root vTRAMPOLINE &&& PTE_U = 0
  trapframe : ptEntry m root vTRAPFRAME &&& PTE_U = 0

theorem KInv.laidOut (h : KInv k X Y E) (hr : (k.proc i).pagetable = some root) :
    (k.proc i).LaidOut k.mach.mem root := by
  obtain ⟨tf, us, htf, hus, hs⟩ := (h.proc i).space root hr
  obtain ⟨h1, h2, h3, h4⟩ := vUSYSCALL_lt
  have hnp := hs.layout.bound
  have htop : ∀ v < npages (k.proc i).sz, v < NVPN := fun v hv => by omega
  have hvalid : ∀ v < NVPN, (ptEntry k.mach.mem root v).getLsbD 0 = true ↔
      v < npages (k.proc i).sz ∨ v = vUSYSCALL ∨ v = vTRAPFRAME ∨ v = vTRAMPOLINE := by
    intro v hv
    constructor
    · intro hV
      rcases hs.valid_page hv hV with ⟨g, -⟩ | ⟨g, -⟩ | ⟨g, -⟩ | ⟨g, -⟩
      · exact .inl g
      · exact .inr (.inl g)
      · exact .inr (.inr (.inl g))
      · exact .inr (.inr (.inr g))
    · rintro (g | rfl | rfl | rfl)
      · exact (hs.layout.user v g).1
      · exact (hs.layout.usyscall.getLsbD (by omega)).trans (by decide)
      · exact (hs.layout.trapframe.getLsbD (by omega)).trans (by decide)
      · exact (hs.layout.trampoline.getLsbD (by omega)).trans (by decide)
  refine ⟨fun v hv => ?_, fun v hv w hw heq => ?_, fun v hv => ?_, fun v hv hg => ?_, ?_, ?_⟩
  · rw [Ne, and_V_eq_zero, Bool.not_eq_false]
    exact hvalid v hv
  · exact h.entry_inj hr (htop v hv) (htop w hw) ((hvalid v (htop v hv)).mpr (.inl hv))
      ((hvalid w (htop w hw)).mpr (.inl hw)) heq
  · rw [Ne, and_R_eq_zero, Bool.not_eq_false]
    exact (hs.layout.user v hv).2
  · rw [Ne, and_U_eq_zero, Bool.not_eq_false]
    exact hs.user v hv hg
  · rw [and_U_eq_zero]
    exact (hs.layout.trampoline.getLsbD (by omega)).trans (by decide)
  · rw [and_U_eq_zero]
    exact (hs.layout.trapframe.getLsbD (by omega)).trans (by decide)

/-- Fork, grow, exit, reap: a run of the small machine. -/
def lifeCycle : List Action :=
  [(.fork ⟨0, by decide⟩, []), (.growproc ⟨1, by decide⟩ 5000, [true]),
   (.growproc ⟨1, by decide⟩ 100, []), (.exit ⟨1, by decide⟩ 3, []), (.wait ⟨0, by decide⟩ 0, [])]

/-- Process `q` sees the same memory: its page table maps the same pages, and the bytes it may access
are the same. -/
structure SameMemory (k k' : Kernel) (q : Fin NPROC) (root : Nat) : Prop where
  pagetable : (k'.proc q).pagetable = some root
  map : ∀ v, ptEntry k'.mach.mem root v = ptEntry k.mach.mem root v
  bytes : ∀ va, AccessibleAt k.mach.mem root va →
    k'.mach.mem (physAddr k.mach.mem root va) = k.mach.mem (physAddr k.mach.mem root va)

theorem Same.sameMemory (same : Same k k' q) (h : KInv k X Y E)
    (hr : (k.proc q).pagetable = some root) : SameMemory k k' q root := by
  obtain ⟨tf, us, htf, hus, hs⟩ := (h.proc q).space root hr
  refine ⟨same.pagetable.trans hr, ptEntry_congr ((h.proc q).agree same.kept hr), fun va hva => ?_⟩
  refine same.kept _ ?_
  rw [PGROUNDDOWN_physAddr, Proc.pages_eq hr htf hus, spacePages]
  simp only [mem_add, mem_coe, mem_singleton]
  rcases hs.accessible hva with ⟨-, hin⟩ | ⟨-, hin⟩
  · exact .inl (.inl (.inr hin))
  · exact .inr hin

/-- **Isolation.** A call other than `wait` leaves the memory of every other process as it is, and what
`copyout` changes is in a page that the caller's table maps for the user.  (`wait` frees a child that
has exited.) -/
theorem memory_isolated (h : Reachable pages k) {op : Op} (hop : op.Enabled k)
    (hreap : op.reaps = false) (fails : List Bool) :
    wp op.call (fun _ k' =>
      (∀ q ≠ op.caller, ∀ root, (k.proc q).pagetable = some root → SameMemory k k' q root) ∧
      (∀ i dst src len, op = .copyout i dst src len → ∃ root, (k.proc i).pagetable = some root ∧
        ∀ x, k'.mach.mem x ≠ k.mach.mem x → ∃ v < NVPN, ptEntry k.mach.mem root v &&& PTE_V ≠ 0 ∧
          ptEntry k.mach.mem root v &&& PTE_U ≠ 0 ∧
          PTE2PA (ptEntry k.mach.mem root v) = PGROUNDDOWN x)) (k.failing fails) := by
  have hk := h.kinv.failing fails
  obtain ⟨r, k', hcall, -, hspare⟩ := wp_call hk op hop
  refine ⟨r, k', hcall, fun q hq root hr => ?_, ?_⟩
  · have hlive : (k.proc q).state ≠ .UNUSED := fun hun =>
      absurd ((h.kinv.settled q (Finset.notMem_empty q)).unused hun).1 (hr ▸ Option.some_ne_none root)
    rcases hspare q hq hlive with same | ⟨hr', -⟩
    · have hsame := same.sameMemory hk hr
      exact ⟨hsame.pagetable, hsame.map, hsame.bytes⟩
    · exact absurd (hreap.symm.trans hr') Bool.false_ne_true
  · rintro i dst src len rfl
    have hrun : (k.proc i).state ≠ .UNUSED := fun hun => nomatch hop.1.symm.trans hun
    obtain ⟨r', k'', hcopy, -, root, hr, hc⟩ := wp_procCopyout hk (i := i) hrun dst src len
    have hcall' : Op.call (.copyout i dst src len) (k.failing fails) = .ok (some r', k'') := by
      rw [Op.call, map_eq_pure_bind, bind_ok hcopy]
      rfl
    cases hcall.symm.trans hcall'
    refine ⟨root, hr, fun x hx => ?_⟩
    obtain ⟨va, -, hreach, rfl⟩ : ∃ va < dst + len, Reached k.mach.mem root dst va ∧
        physAddr k.mach.mem root va = x := by
      by_contra hno
      exact hx (hc.miss x fun va hva hreach heq => hno ⟨va, hva, hreach, heq⟩)
    obtain ⟨hva, hV, hU, -⟩ := hreach.accessible
    exact ⟨va / PGSIZE, vpn_lt hva, hV, hU, (PGROUNDDOWN_physAddr _ _ _).symm⟩

theorem memory_isolated_small : ∃ pages k, Reachable pages k ∧
    ∃ op : Op, op.Enabled k ∧ op.reaps = false ∧ wp op.call (fun _ k' =>
      (∀ q ≠ op.caller, ∀ root, (k.proc q).pagetable = some root → SameMemory k k' q root) ∧
      (∀ i dst src len, op = .copyout i dst src len → ∃ root, (k.proc i).pagetable = some root ∧
        ∀ x, k'.mach.mem x ≠ k.mach.mem x → ∃ v < NVPN, ptEntry k.mach.mem root v &&& PTE_V ≠ 0 ∧
          ptEntry k.mach.mem root v &&& PTE_U ≠ 0 ∧
          PTE2PA (ptEntry k.mach.mem root v) = PGROUNDDOWN x)) (k.failing []) := by
  obtain ⟨pages, k, hb, hrun⟩ := small_booted
  have hreach : Reachable pages k := ⟨k, [], hb, rfl⟩
  let op : Op := .copyout ⟨0, by decide⟩ 0 (fun _ => 7) 3
  have hop : op.Enabled k := ⟨hrun, trivial⟩
  exact ⟨pages, k, hreach, op, hop, rfl, memory_isolated hreach hop rfl []⟩

/-! ## Protection -/

/-- What `copyout` owes to page protection: no byte of a page that is mapped without `PTE_W` changes,
and a range with such a page is refused. -/
def Protects (m : Store) (root dst len : Nat) (r : Int) (m' : Store) : Prop :=
  (∀ v < NVPN, ptEntry m root v &&& PTE_V ≠ 0 → ptEntry m root v &&& PTE_W = 0 →
    ∀ x, PGROUNDDOWN x = PTE2PA (ptEntry m root v) → m' x = m x) ∧
  ((∃ va, dst ≤ va ∧ va < dst + len ∧ va / PGSIZE < NVPN ∧
    ptEntry m root (va / PGSIZE) &&& PTE_V ≠ 0 ∧ ptEntry m root (va / PGSIZE) &&& PTE_W = 0) → r = -1)

/-- **`copyout` and page protection.** `copyout` respects the protection of the pages, whatever the
data, iff every page of the range that it reaches is mapped with `PTE_W`. -/
theorem copyout_protects_iff (h : Reachable pages k) (hr : (k.proc i).pagetable = some root)
    (dst len : Nat) :
    (∀ src, wp (copyout root dst src len)
      (fun r s => Protects k.mach.mem root dst len r s.mem) k.mach) ↔
    ∀ va < dst + len, Reached k.mach.mem root dst va →
      ptEntry k.mach.mem root (va / PGSIZE) &&& PTE_W ≠ 0 := by
  obtain ⟨tf, us, htf, hus, hs⟩ := (h.kinv.proc i).space root hr
  have hspec : ∀ src, wp (copyout root dst src len)
      (fun r s => Copied root dst src len r k.mach s) k.mach := fun _ =>
    (hs.apart (h.kinv.idle_space hr htf hus)).wp_copyout
  constructor
  · -- copy a byte that differs from the one that is there
    intro hprot va hva hreach hW
    obtain ⟨hlt, hV, -⟩ := hreach.accessible
    let x := physAddr k.mach.mem root va
    obtain ⟨r, s, hcopy, hc⟩ := hspec fun _ => k.mach.mem x + 1
    obtain ⟨hkept, -⟩ := (hprot _).wlp r s hcopy
    have hsame := hkept _ (vpn_lt hlt) hV hW x (PGROUNDDOWN_physAddr _ _ _)
    have hnew : k.mach.mem x + 1 = k.mach.mem x := (hc.hit va hva hreach).symm.trans hsame
    exact absurd hnew (by simp)
  · intro hW src
    obtain ⟨r, s, hcopy, hc⟩ := hspec src
    refine ⟨r, s, hcopy, fun v hv hV hW' x hx => ?_, ?_⟩
    · refine hc.miss x fun va hva hreach heq => ?_
      obtain ⟨hlt, hV', -⟩ := hreach.accessible
      rw [← heq, PGROUNDDOWN_physAddr] at hx
      rw [Ne, and_V_eq_zero, Bool.not_eq_false] at hV hV'
      have hva' := h.kinv.entry_inj hr (vpn_lt hlt) hv hV' hV hx
      exact hW va hva hreach (hva' ▸ hW')
    · rintro ⟨va, hle, hlt, -, -, hW'⟩
      have hno : ¬Reached k.mach.mem root dst va := fun hreach => hW va hlt hreach hW'
      obtain ⟨va', hle', hva', hacc⟩ := exists_inaccessible hle hno
      rcases hc.ret with ⟨-, hall⟩ | ⟨hr, -⟩
      · exact absurd (hall va' hle' (by omega)) hacc
      · exact hr

theorem copyout_protects_iff_small : ∃ pages k, Reachable pages k ∧
    ∃ i root, (k.proc i).pagetable = some root ∧
      ((∀ src, wp (copyout root 100 src 8)
        (fun r s => Protects k.mach.mem root 100 8 r s.mem) k.mach) ↔
      ∀ va < 100 + 8, Reached k.mach.mem root 100 va →
        ptEntry k.mach.mem root (va / PGSIZE) &&& PTE_W ≠ 0) := by
  obtain ⟨pages, k, hb, hrun⟩ := small_booted
  have hreach : Reachable pages k := ⟨k, [], hb, rfl⟩
  obtain ⟨root, -, -, hr, -⟩ := hreach.kinv.live (i := ⟨0, by decide⟩) (by rw [hrun]; decide)
  exact ⟨pages, k, hreach, _, root, hr, copyout_protects_iff hreach hr 100 8⟩

/-- **The shared page is written.** After `userinit`, copying four bytes to `USYSCALL`, which is mapped
`PTE_R | PTE_U`, returns 0 and changes the page. -/
theorem copyout_writes_usyscall :
    (do let _ ← boot 1; procCopyout ⟨0, by decide⟩ USYSCALL (fun _ => 7) 4).test small (fun r k =>
      decide (r = 0) && (k.proc ⟨0, by decide⟩).pagetable.any fun root =>
        decide (ptEntry k.mach.mem root vUSYSCALL &&& PTE_V ≠ 0) &&
        decide (ptEntry k.mach.mem root vUSYSCALL &&& PTE_W = 0) &&
        decide (k.mach.mem (PTE2PA (ptEntry k.mach.mem root vUSYSCALL)) = 7)) = true ∧
    (boot 1).test small (fun _ k => (k.proc ⟨0, by decide⟩).pagetable.any fun root =>
        decide (k.mach.mem (PTE2PA (ptEntry k.mach.mem root vUSYSCALL)) = 1)) = true := by
  decide +kernel

end Xv6
