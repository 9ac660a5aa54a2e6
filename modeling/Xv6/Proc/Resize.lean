/-
# Xv6.Proc.Resize — what `fork` and `sbrk` do to user memory.

`fork` gives the child a copy of every page, or nothing; no page that was in use is written.  `sbrk`
reports what it did, except that a request to shrink by more than the size of the process is granted
and does nothing: `sz + n` wraps to a number above `sz`, which `uvmdealloc` takes for no request to
shrink at all.
-/
import Xv6.Proc.Owner
import Xv6.Mem.Refine

namespace Xv6

open Lib Lib.Store Lib.Prog Multiset BitVec

/-! ## `uvmcopy` -/

variable {s s' : Mach} {root trampoline sz trapframe usyscall : Nat} {guard : Option Nat}
  {F : Multiset Nat}

/-- The table at `new` in `s'` holds the user memory of size `sz` that the table at `root` held in
`s`, in pages of its own that were free. -/
structure CopyOf (root new sz : Nat) (s s' : Mach) : Prop where
  byte : ∀ va < PGROUNDUP sz, s'.mem (physAddr s'.mem new va) = s.mem (physAddr s.mem root va)
  flags : ∀ va < PGROUNDUP sz, PTE_FLAGS (ptEntry s'.mem new (va / PGSIZE)) =
    PTE_FLAGS (ptEntry s.mem root (va / PGSIZE))
  fresh : ∀ va < PGROUNDUP sz, PTE2PA (ptEntry s'.mem new (va / PGSIZE)) ∈ s.freelist
  inj : ∀ va < PGROUNDUP sz, ∀ va' < PGROUNDUP sz, PTE2PA (ptEntry s'.mem new (va / PGSIZE)) =
    PTE2PA (ptEntry s'.mem new (va' / PGSIZE)) → va / PGSIZE = va' / PGSIZE
  apart : ∀ va < PGROUNDUP sz, ∀ va' < PGROUNDUP sz,
    physAddr s'.mem new va ≠ physAddr s'.mem root va'

theorem PTE_FLAGS_leafPte (hV : e.getLsbD 0 = true) (pa : Nat) :
    PTE_FLAGS (leafPte pa (PTE_FLAGS e)) = PTE_FLAGS e := by
  refine eq_of_getLsbD_eq fun i _ => ?_
  rw [getLsbD_PTE_FLAGS, getLsbD_PTE_FLAGS]
  by_cases hi : i < 10
  · rw [getLsbD_leafPte pa _ hi, getLsbD_PTE_FLAGS, decide_eq_true hi, Bool.and_true,
      Bool.and_true]
    rcases Nat.eq_zero_or_pos i with rfl | hpos
    · rw [hV, Bool.true_or]
    · have hv : PTE_V.getLsbD i = false := by
        rw [PTE_V, shiftLeft_zero, getLsbD_one, Bool.and_eq_false_iff]
        exact .inr (decide_eq_false (by omega))
      rw [hv, Bool.or_false]
  · rw [decide_eq_false hi, Bool.and_false, Bool.and_false]

theorem lt_PGROUNDUP : va < PGROUNDUP sz ↔ va / PGSIZE < npages sz := by
  rw [PGROUNDUP_eq]
  unfold PGSIZE
  omega

/-- What the loop of `uvmcopy` has done when it ends, address by address. -/
theorem CopyInv.copyOf (h : Own s new F) (hp : Parent s root (npages sz) F)
    {f₀ : Nat → Pte} (hc : CopyInv root new f₀ s (npages sz) s') : CopyOf root new sz s s' := by
  have hent : ∀ w, ptEntry s'.mem root w = ptEntry s.mem root w := ptEntry_congr (hp.agree h hc.uvm)
  have hpage : ∀ va < PGROUNDUP sz, ∃ pa, pa ∈ s.freelist ∧
      PTE2PA (ptEntry s'.mem new (va / PGSIZE)) = pa := fun va hva => by
    obtain ⟨pa, hfree, hpage, hpte, -⟩ := hc.low _ (lt_PGROUNDUP.mp hva)
    exact ⟨pa, hfree, by rw [hpte, PTE2PA_leafPte hpage (isFlags_PTE_FLAGS _)]⟩
  refine ⟨fun va hva => ?_, fun va hva => ?_, fun va hva => ?_, fun va hva va' hva' heq => ?_,
    fun va hva va' hva' heq => ?_⟩
  · obtain ⟨pa, -, hpage, hpte, hbytes⟩ := hc.low _ (lt_PGROUNDUP.mp hva)
    rw [physAddr, hpte, PTE2PA_leafPte hpage (isFlags_PTE_FLAGS _),
      hbytes _ (Nat.mod_lt _ (by decide)), physAddr]
  · obtain ⟨pa, -, -, hpte, -⟩ := hc.low _ (lt_PGROUNDUP.mp hva)
    rw [hpte, PTE_FLAGS_leafPte (hp.readable _ (lt_PGROUNDUP.mp hva)).1]
  · obtain ⟨pa, hfree, hpa⟩ := hpage va hva
    rwa [hpa]
  · have hnd : (mapped (ptEntry s'.mem new) 0 (npages sz)).Nodup := coe_nodup.mp
      (nodup_of_le (le_add_left _ _) (hc.own h).nodup)
    exact mapped_inj hnd (lt_PGROUNDUP.mp hva) (lt_PGROUNDUP.mp hva') heq
  · -- the parent's page was not free
    obtain ⟨pa, hfree, hpa⟩ := hpage va hva
    have hin := hp.data _ (lt_PGROUNDUP.mp hva')
    have hdvd := PTE2PA_dvd (ptEntry s'.mem new (va / PGSIZE))
    have hdvd' := PTE2PA_dvd (ptEntry s.mem root (va' / PGSIZE))
    rw [physAddr, physAddr, hent] at heq
    have hsame : PTE2PA (ptEntry s'.mem new (va / PGSIZE)) =
        PTE2PA (ptEntry s.mem root (va' / PGSIZE)) := by
      unfold PGSIZE at *
      omega
    exact (h.notMem hin).2 (by rwa [← hsame, hpa])

/-- How `uvmcopy` may end: with a copy, or with nothing mapped and every data page free again; and no
page of `F` is written. -/
def CopyEnds (root new sz : Nat) (F : Multiset Nat) (s : Mach) (r : Int) (s' : Mach) : Prop :=
  ((r = 0 ∧ CopyOf root new sz s s') ∨
    (r = -1 ∧ (∀ va < PGROUNDUP sz, ptEntry s'.mem new (va / PGSIZE) &&& PTE_V = 0) ∧
      ptPages s'.mem new + (s'.freelist : Multiset Nat) =
        ptPages s.mem new + (s.freelist : Multiset Nat))) ∧
  (∀ v, ptEntry s'.mem root v = ptEntry s.mem root v) ∧
  ∀ x, PGROUNDDOWN x ∈ F → s'.mem x = s.mem x

/-- **`fork` copies an address space faithfully or not at all.**  Whatever `kalloc` calls fail,
`uvmcopy` to a fresh table copies every page to a page that was free, or leaves nothing mapped and
gives every data page back; the parent, among the pages in use, stays as it was. -/
theorem uvmcopy_faithful {new trapframe' usyscall' : Nat}
    (hs : Space s.mem trampoline root sz trapframe usyscall guard)
    (hn : Space s.mem trampoline new 0 trapframe' usyscall' none)
    (h : Idle s (spacePages s.mem new 0 + F)) (hF : spacePages s.mem root sz ≤ F) :
    wp (uvmcopy root new sz) (CopyEnds root new sz F s) s := by
  obtain ⟨hnp, hlt⟩ := hs.npages_lt
  obtain ⟨hown, hpar⟩ := hs.parent hn h hF
  have hzero : ∀ w < npages sz, ptEntry s.mem new w = 0 :=
    fun w hw => hn.unmapped (Nat.zero_le w) (by omega)
  refine wp_mono (hpar.wp_uvmcopy hlt hown hzero) ?_
  rintro r s' (⟨hr, hc⟩ | ⟨hr, hu, hsame⟩)
  · exact ⟨.inl ⟨hr, hc.copyOf hown hpar⟩, ptEntry_congr (hpar.agree hown hc.uvm),
      fun x hx => hc.uvm.eqOff_frame hown hx⟩
  · refine ⟨.inr ⟨hr, fun va hva => ?_, ?_⟩, ptEntry_congr (hpar.agree hown hu),
      fun x hx => hu.eqOff_frame hown hx⟩
    · have hva := lt_PGROUNDUP.mp hva
      have hN : vUSYSCALL ≤ NVPN := by decide
      rw [hsame _ (by omega), hzero _ hva]
      exact zero_and
    · have := hu.pages
      rwa [add_zero, add_zero] at this

/-- The first process copied to a table that was made after boot. -/
theorem uvmcopy_faithful_small : ∃ s root new sz trapframe usyscall F guard,
    Space s.mem s.trampoline root sz trapframe usyscall guard ∧
    Space s.mem s.trampoline new 0 trapframe usyscall none ∧ sz = PGSIZE ∧
    spacePages s.mem root sz ≤ F ∧ wp (uvmcopy root new sz) (CopyEnds root new sz F s) s := by
  obtain ⟨pages, k, hb, hrun, hP⟩ := small_boots
    (P := fun k => decide ((k.proc ⟨0, by decide⟩).sz = PGSIZE) &&
      (k.proc ⟨0, by decide⟩).trapframe.any fun tf => (k.proc ⟨0, by decide⟩).usyscall.any fun us =>
        (procPagetable tf us).test k.mach fun r _ => r.isSome) (by decide +kernel)
  obtain ⟨hdec, hmade⟩ := Bool.and_eq_true_iff.mp hP
  have hsz := of_decide_eq_true hdec
  have hk := hb.kinv
  obtain ⟨root, tf, us, hr, htf, hus, hs⟩ := hk.live (by rw [hrun]; decide)
  rw [htf, hus] at hmade
  have hidle := hk.idle_space hr htf hus
  set F := spacePages k.mach.mem root (k.proc ⟨0, by decide⟩).sz + {us} +
    ({tf} + ((pages : Multiset Nat) + k.rest ⟨0, by decide⟩)) with hF
  have hle : spacePages k.mach.mem root (k.proc ⟨0, by decide⟩).sz ≤ F :=
    (le_add_right _ _).trans (le_add_right _ _)
  have hpage : ∀ p ∈ F, k.mach.IsPage p := fun p hp => hidle.page p (mem_add.mpr (.inr hp))
  obtain ⟨r, s', hrun', hsome⟩ := of_test hmade
  obtain ⟨r', s'', hrun'', hpost⟩ := wp_newSpace hidle hk.trampoline.1
    (hk.trampoline.2.trans (Nat.lt_of_le_of_lt hk.kend.2 (by decide)))
    (hpage tf (by simp [hF])) (hpage us (by simp [hF]))
  cases hrun'.symm.trans hrun''
  rcases hpost with ⟨rfl, -⟩ | ⟨new, rfl, hm, hn⟩
  · cases hsome
  have hidle0 : Idle k.mach (0 + F) := by rwa [zero_add]
  have hagree : ptRadix.Agree (ptPages k.mach.mem root) k.mach.mem s'.mem := by
    refine Kept.agree (fun x hx => hm.eqOff_frame hidle0 ?_) hs.root_dvd
    exact mem_of_le hle (mem_add.mpr (.inl hx))
  have hs' := hs.congr hagree
  have hle' : spacePages s'.mem root (k.proc ⟨0, by decide⟩).sz ≤ F := by
    rwa [spacePages_congr hagree]
  rw [← hm.touches.trampoline] at hs' hn
  exact ⟨s', root, new, _, tf, us, F, _, hs', hn, hsz, hle',
    uvmcopy_faithful hs' hn (hidle0.moves (hm.frame F)) hle'⟩

/-! ## `growproc` -/

variable {k k' : Kernel} {X : Multiset Nat} {Y : Fin NFILE → Int} {i : Fin NPROC}

/-- What `growproc` owes its caller: the new size is the old one and `n`, or it fails and nothing has
changed. -/
def Reports (k : Kernel) (i : Fin NPROC) (n : BitVec 32) (r : Int) (k' : Kernel) : Prop :=
  (r = 0 ∧ ((k'.proc i).sz : Int) = (k.proc i).sz + n.toInt) ∨
  (r = -1 ∧ (k'.proc i).sz = (k.proc i).sz ∧
    ∀ root, (k.proc i).pagetable = some root → ptMap k'.mach root = ptMap k.mach root)

/-- The argument of `sbrk` as a 64-bit word. -/
theorem toNat_signExtend_int (n : BitVec 32) :
    ((n.signExtend 64).toNat : Int) = if n.toInt < 0 then n.toInt + 2 ^ 64 else n.toInt := by
  have h : (n.signExtend 64).toInt = n.toInt := toInt_signExtend_of_le (by decide)
  rw [toInt_eq_toNat_cond] at h
  have hlt := (n.signExtend 64).isLt
  split at h <;> split <;> omega

theorem ptMap_of_entries (h : ∀ w < NVPN, ptEntry s'.mem root w = ptEntry s.mem root w) :
    ptMap s' root = ptMap s root := by
  have hN : MAXVA / PGSIZE ≤ NVPN := by decide
  funext w
  rcases Nat.lt_or_ge w (MAXVA / PGSIZE) with hw | hw
  · rw [ptMap_eq hw, ptMap_eq hw, h w (by omega)]
  · rw [ptMap_of_le hw, ptMap_of_le hw]

/-- What `growproc` does to the size: as asked if the sum is a size, nothing if it is negative.  Only a
request for more fails. -/
theorem wp_growproc_size (h : KInv k X Y ∅) (hlive : (k.proc i).state ≠ .UNUSED) (n : BitVec 32) :
    wp (growproc i n) (fun r k' =>
      (0 ≤ ((k.proc i).sz : Int) + n.toInt → Reports k i n r k') ∧
      (((k.proc i).sz : Int) + n.toInt < 0 → r = 0 ∧ (k'.proc i).sz = (k.proc i).sz) ∧
      (n.toInt ≤ 0 → r = 0)) k := by
  obtain ⟨root, tf, us, hr, htf, hus, hs⟩ := h.live hlive
  have hidle := h.idle_space hr htf hus
  rw [add_assoc] at hidle
  have hext := toNat_signExtend_int n
  have hsz := hs.npages_lt.2
  have hn : -2 ^ 31 ≤ n.toInt ∧ n.toInt < 2 ^ 31 := ⟨n.le_toInt, n.toInt_lt⟩
  rw [growproc]
  refine wp_bind (wp_get ?_)
  by_cases hpos : 0 < n.toInt
  · rw [if_pos hpos]
    rw [if_neg (by omega)] at hext
    have hnew : (k.proc i).sz + (n.signExtend 64).toNat < 2 ^ 64 := by omega
    rw [Nat.mod_eq_of_lt hnew]
    refine wp_bind (wp_deref hr ?_)
    refine wp_seq (wp_onMach (hs.wp_grow hidle h.kend.1 (by decide))) ?_
    rintro sz k1 ⟨⟨-, -, hgrown, hsame⟩, e1⟩
    by_cases hz : sz = 0
    · rw [if_pos hz]
      refine wp_pure ⟨fun _ => .inr ⟨rfl, by rw [e1.proc], fun root' hr' => ?_⟩, ?_⟩
      · obtain rfl : root = root' := Option.some.inj (hr.symm.trans hr')
        exact ptMap_of_entries (hsame hz)
      · omega
    · rw [if_neg hz]
      have hsz' := (hgrown hz).2.2 (by omega)
      refine wp_seq (wp_setProc i _ k1) ?_
      rintro ⟨⟩ k2 e2
      refine wp_pure ⟨fun _ => .inl ⟨rfl, ?_⟩, ?_⟩
      · rw [e2.self]
        dsimp only
        omega
      · omega
  rw [if_neg hpos]
  by_cases hneg : n.toInt < 0
  · rw [if_pos hneg]
    rw [if_pos hneg] at hext
    refine wp_bind (wp_deref hr ?_)
    refine wp_seq (wp_onMach (hs.wp_shrink hidle)) ?_
    rintro sz k1 ⟨⟨hmin, -, -⟩, e1⟩
    refine wp_seq (wp_setProc i _ k1) ?_
    rintro ⟨⟩ k2 e2
    refine wp_pure ⟨fun hnn => .inl ⟨rfl, ?_⟩, fun hlt => ⟨rfl, ?_⟩, fun _ => rfl⟩
    · rw [e2.self]
      dsimp only
      omega
    · -- the sum wraps, and is then no smaller than the size
      rw [e2.self]
      dsimp only
      omega
  · rw [if_neg hneg]
    exact wp_pure ⟨fun _ => .inl ⟨rfl, by omega⟩, by omega, fun _ => rfl⟩

/-- **`sbrk` does what it reports exactly if the size and the request add up to a size.** -/
theorem growproc_reports_iff (h : KInv k X Y ∅) (hlive : (k.proc i).state ≠ .UNUSED)
    (n : BitVec 32) :
    wp (growproc i n) (Reports k i n) k ↔ 0 ≤ ((k.proc i).sz : Int) + n.toInt := by
  obtain ⟨r, k', hrun, hok, hwrap, -⟩ := wp_growproc_size h hlive n
  constructor
  · rintro ⟨r', k'', hrun', hrep⟩
    cases hrun.symm.trans hrun'
    by_contra hneg
    obtain ⟨hr, -⟩ := hwrap (by omega)
    rcases hrep with ⟨-, hsz⟩ | ⟨hr', -⟩
    · omega
    · omega
  · intro hnn
    exact ⟨r, k', hrun, hok hnn⟩

/-- The first process grows by one byte. -/
theorem growproc_reports_iff_small : ∃ pages k, Reachable pages k ∧
    (k.proc ⟨0, by decide⟩).state = .RUNNABLE ∧
    wp (growproc ⟨0, by decide⟩ 1) (Reports k ⟨0, by decide⟩ 1) k := by
  obtain ⟨pages, k, hb, hrun⟩ := small_booted
  have hreach : Reachable pages k := ⟨k, [], hb, rfl⟩
  refine ⟨pages, k, hreach, hrun, (growproc_reports_iff hreach.kinv ?_ 1).mpr ?_⟩
  · rw [hrun]
    decide
  · have : (1 : BitVec 32).toInt = 1 := by decide
    omega

/-- The first process, of one page, shrinks by two: `sbrk` reports success, and the size is what it
was. -/
theorem growproc_wraps : ∃ pages k k', Booted pages k ∧
    growproc ⟨0, by decide⟩ (-8192) k = .ok (0, k') ∧
    (k.proc ⟨0, by decide⟩).sz = PGSIZE ∧ (k'.proc ⟨0, by decide⟩).sz = PGSIZE ∧
    ¬Reports k ⟨0, by decide⟩ (-8192) 0 k' := by
  obtain ⟨pages, k, hb, -, hP⟩ := small_boots
    (P := fun k => decide ((k.proc ⟨0, by decide⟩).sz = PGSIZE) &&
      (growproc ⟨0, by decide⟩ (-8192)).test k fun r k' =>
        decide (r = 0 ∧ (k'.proc ⟨0, by decide⟩).sz = PGSIZE)) (by decide +kernel)
  obtain ⟨hsz, htest⟩ := Bool.and_eq_true_iff.mp hP
  have hsz := of_decide_eq_true hsz
  obtain ⟨r, k', hrun, hk'⟩ := of_test htest
  obtain ⟨rfl, hsz'⟩ := of_decide_eq_true hk'
  refine ⟨pages, k, k', hb, hrun, hsz, hsz', ?_⟩
  rintro (⟨-, hrep⟩ | ⟨hrep, -⟩)
  · rw [hsz, hsz'] at hrep
    exact absurd hrep (by decide)
  · exact absurd hrep (by decide)

end Xv6
