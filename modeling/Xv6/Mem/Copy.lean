/-
# Xv6.Mem.Copy — copying between the kernel and user memory.

`copyout` writes through the physical addresses that `walkaddr` returns.  Which bytes it writes is
said byte by byte: an address of the range gets its byte if its page and every page of the range
before it are accessible, and no other byte of memory changes.  `copyin` and `copyinstr` change
nothing.
-/
import Xv6.Mem.Build

namespace Xv6

open Lib Lib.Store Lib.Prog Nat

variable {dst len va : Nat}

/-! ## `walkaddr` -/

/-- The page is mapped and the user may access it. -/
def Accessible (e : Pte) : Prop := e &&& PTE_V ≠ 0 ∧ e &&& PTE_U ≠ 0 ∧ PTE2PA e ≠ 0

instance (e : Pte) : Decidable (Accessible e) := inferInstanceAs (Decidable (_ ∧ _))

/-- The page of `va` is below `MAXVA` and accessible. -/
def AccessibleAt (m : Store) (root va : Nat) : Prop :=
  va < MAXVA ∧ Accessible (ptEntry m root (va / PGSIZE))

instance (m : Store) (root va : Nat) : Decidable (AccessibleAt m root va) :=
  inferInstanceAs (Decidable (_ ∧ _))

/-- The physical address behind `va`. -/
def physAddr (m : Store) (root va : Nat) : Nat :=
  PTE2PA (ptEntry m root (va / PGSIZE)) + va % PGSIZE

variable {s s' : Mach} {m : Store} {root : Nat}

theorem PGROUNDDOWN_physAddr (m : Store) (root va : Nat) :
    PGROUNDDOWN (physAddr m root va) = PTE2PA (ptEntry m root (va / PGSIZE)) :=
  PGROUNDDOWN_of_mem (PTE2PA_dvd _) (Nat.le_add_right _ _)
    (Nat.add_lt_add_left (Nat.mod_lt _ (by decide)) _)

theorem walkaddr_eq (s : Mach) (root va : Nat) :
    walkaddr root va s =
      .ok (if AccessibleAt s.mem root va then PTE2PA (ptEntry s.mem root (va / PGSIZE)) else 0,
        s) := by
  rw [walkaddr]
  by_cases hva : va ≥ MAXVA
  · rw [if_pos hva, if_neg fun h => absurd h.1 (by omega)]
    rfl
  rw [if_neg hva, bind_ok (walk_false s root (by omega))]
  cases hs : ptRadix.slot s.mem 2 root (vkey (va / PGSIZE)) with
  | none =>
    rw [if_neg]
    · rfl
    · rintro ⟨-, hacc⟩
      rw [ptEntry_of_slot_none hs] at hacc
      exact hacc.1 (by decide)
  | some q =>
    have hread : readPte (q + 8 * vkey (va / PGSIZE) 0) s =
        .ok (ptEntry s.mem root (va / PGSIZE), s) := by
      rw [ptEntry_of_slot hs]
      rfl
    rw [Option.map_some]
    dsimp only
    rw [bind_ok hread]
    by_cases hV : ptEntry s.mem root (va / PGSIZE) &&& PTE_V = 0
    · rw [if_pos hV, if_neg fun h => h.2.1 hV]
      rfl
    by_cases hU : ptEntry s.mem root (va / PGSIZE) &&& PTE_U = 0
    · rw [if_neg hV, if_pos hU, if_neg fun h => h.2.2.1 hU]
      rfl
    rw [if_neg hV, if_neg hU]
    by_cases hP : PTE2PA (ptEntry s.mem root (va / PGSIZE)) = 0
    · rw [if_neg fun h => h.2.2.2 hP, hP]
      rfl
    · rw [if_pos ⟨by omega, hV, hU, hP⟩]
      rfl

/-! ## Tables whose user pages are apart -/

/-- The pages that the user may access are not pages of the table, and no two of them are the
same. -/
structure Apart (m : Store) (root : Nat) : Prop where
  tree : Tree m root
  data : ∀ va, AccessibleAt m root va → PTE2PA (ptEntry m root (va / PGSIZE)) ∉ ptPages m root
  inj : ∀ va va', AccessibleAt m root va → AccessibleAt m root va' →
    PTE2PA (ptEntry m root (va / PGSIZE)) = PTE2PA (ptEntry m root (va' / PGSIZE)) →
    va / PGSIZE = va' / PGSIZE

/-- Different addresses are different bytes. -/
theorem Apart.physAddr_inj (h : Apart m root) (hva : AccessibleAt m root va)
    (hva' : AccessibleAt m root va') (heq : physAddr m root va = physAddr m root va') :
    va = va' := by
  obtain ⟨a, ha⟩ := PTE2PA_dvd (ptEntry m root (va / PGSIZE))
  obtain ⟨b, hb⟩ := PTE2PA_dvd (ptEntry m root (va' / PGSIZE))
  have hab : a = b := by
    unfold physAddr at heq
    rw [ha, hb] at heq
    unfold PGSIZE at heq
    omega
  have hdiv := h.inj va va' hva hva' (by rw [ha, hb, hab])
  have hmod : va % PGSIZE = va' % PGSIZE := by
    unfold physAddr at heq
    rw [hdiv] at heq
    omega
  rw [← div_add_mod va PGSIZE, ← div_add_mod va' PGSIZE, hdiv, hmod]

theorem Apart.congr (h : Apart m root)
    (ha : ptRadix.Agree (ptPages m root) m m') : Apart m' root where
  tree := h.tree.congr ha
  data va hva := by
    simp only [AccessibleAt, ptEntry_congr ha] at hva ⊢
    rw [ptPages, Radix.nodes_congr ha]
    exact h.data va hva
  inj va va' hva hva' heq := by
    simp only [AccessibleAt, ptEntry_congr ha] at hva hva' heq
    exact h.inj va va' hva hva' heq

/-! ## `copyout` -/

/-- Every page from that of `dst` to that of `va` is accessible. -/
def Reached (m : Store) (root dst va : Nat) : Prop :=
  dst ≤ va ∧ ∀ v, dst / PGSIZE ≤ v → v ≤ va / PGSIZE → AccessibleAt m root (v * PGSIZE)

theorem accessibleAt_page :
    AccessibleAt m root (va / PGSIZE * PGSIZE) ↔ AccessibleAt m root va := by
  have hlt : va / PGSIZE * PGSIZE < MAXVA ↔ va < MAXVA := by
    unfold PGSIZE MAXVA
    omega
  rw [AccessibleAt, AccessibleAt, vpn_mul, hlt]

/-- `walkaddr` of the page of an address. -/
theorem walkaddr_page (s : Mach) (root va : Nat) :
    walkaddr root (PGROUNDDOWN va) s =
      .ok (if AccessibleAt s.mem root va then PTE2PA (ptEntry s.mem root (va / PGSIZE)) else 0, s) := by
  have hacc : AccessibleAt s.mem root (PGROUNDDOWN va) ↔ AccessibleAt s.mem root va := accessibleAt_page
  rw [walkaddr_eq, if_congr hacc rfl rfl, PGROUNDDOWN, vpn_mul]

theorem sub_PGROUNDDOWN (va : Nat) : va - PGROUNDDOWN va = va % PGSIZE := by
  unfold PGROUNDDOWN PGSIZE
  omega

theorem Reached.accessible (h : Reached m root dst va) : AccessibleAt m root va :=
  accessibleAt_page.mp (h.2 _ (Nat.div_le_div_right h.1) le_rfl)

/-- An address that is not reached has an address before it that is not accessible. -/
theorem exists_inaccessible (hle : dst ≤ va) (h : ¬Reached m root dst va) :
    ∃ va', dst ≤ va' ∧ va' ≤ va ∧ ¬AccessibleAt m root va' := by
  by_contra hno
  refine h ⟨hle, fun v hv hva => ?_⟩
  by_contra hacc
  refine hno ⟨max dst (v * PGSIZE), le_max_left _ _, max_le hle ?_, fun hmax => hacc ?_⟩
  · exact (le_div_iff_mul_le (by decide)).mp hva
  · have hpage : max dst (v * PGSIZE) / PGSIZE = v := by
      refine Nat.div_eq_of_lt_le (le_max_right _ _) (max_lt ?_ ?_)
      · exact (Nat.div_lt_iff_lt_mul (by decide)).mp (by omega)
      · exact mul_lt_mul_of_pos_right (by omega) (by decide)
    rw [← accessibleAt_page, hpage] at hmax
    exact hmax

/-- What `copyout` of `len` bytes to `dst` does: the addresses reached get their bytes, nothing else
changes, and the result is 0 if all were reached. -/
structure Copied (root dst : Nat) (src : Nat → Byte) (len : Nat) (r : Int) (s s' : Mach) :
    Prop where
  state : s' = { s with mem := s'.mem }
  hit : ∀ va < dst + len, Reached s.mem root dst va →
    s'.mem (physAddr s.mem root va) = src (va - dst)
  miss : ∀ x, (∀ va < dst + len, Reached s.mem root dst va → physAddr s.mem root va ≠ x) →
    s'.mem x = s.mem x
  ret : (r = 0 ∧ ∀ va, dst ≤ va → va < dst + len → AccessibleAt s.mem root va) ∨
    (r = -1 ∧ ∃ va, dst ≤ va ∧ va < dst + len ∧ ¬AccessibleAt s.mem root va)

/-- The rest of the page of `dst`, then the pages after it. -/
theorem Copied.cons {dst len n : Nat} {src : Nat → Byte} {r : Int} {t : Mach}
    (h : Apart s.mem root) (hdst : AccessibleAt s.mem root dst)
    (hn : n = min (PGSIZE - dst % PGSIZE) len)
    (ht : t = { s with mem := fill s.mem (physAddr s.mem root dst) n src })
    (hagree : ptRadix.Agree (ptPages s.mem root) s.mem t.mem)
    (hrest : Copied root (dst / PGSIZE * PGSIZE + PGSIZE) (fun i => src (n + i)) (len - n) r t s') :
    Copied root dst src len r s s' := by
  have hentry : ∀ v, ptEntry t.mem root v = ptEntry s.mem root v := ptEntry_congr hagree
  have hacc : ∀ va, AccessibleAt t.mem root va ↔ AccessibleAt s.mem root va := fun va => by
    rw [AccessibleAt, AccessibleAt, hentry]
  have hphys : ∀ va, physAddr t.mem root va = physAddr s.mem root va := fun va => by
    rw [physAddr, physAddr, hentry]
  have hreach : ∀ d va, Reached t.mem root d va ↔ Reached s.mem root d va := fun d va => by
    simp only [Reached, hacc]
  -- addresses of the first page
  have hfirst : ∀ va, dst ≤ va → va < dst + n →
      Reached s.mem root dst va ∧ physAddr s.mem root va = physAddr s.mem root dst + (va - dst) := by
    intro va h1 h2
    have hpage : va / PGSIZE = dst / PGSIZE := by
      unfold PGSIZE at *
      omega
    refine ⟨⟨h1, fun v hv hv' => ?_⟩, ?_⟩
    · rw [show v = dst / PGSIZE by omega]
      exact accessibleAt_page.mpr hdst
    · rw [physAddr, physAddr, hpage]
      unfold PGSIZE at *
      omega
  -- addresses after it
  have hlater : ∀ va, Reached s.mem root (dst / PGSIZE * PGSIZE + PGSIZE) va →
      Reached s.mem root dst va := by
    rintro va ⟨hle, hall⟩
    refine ⟨by unfold PGSIZE at *; omega, fun v hv hv' => ?_⟩
    rcases eq_or_lt_of_le hv with rfl | hlt
    · exact accessibleAt_page.mpr hdst
    · refine hall v ?_ hv'
      unfold PGSIZE at *
      omega
  have hmemt : t.mem = fill s.mem (physAddr s.mem root dst) n src := by rw [ht]
  refine ⟨?_, fun va hva hre => ?_, fun x hx => ?_, ?_⟩
  · rw [hrest.state, ht]
  · by_cases hlt : va < dst + n
    · have hle := hre.1
      obtain ⟨-, hpa⟩ := hfirst va hle hlt
      rw [hrest.miss, hmemt, hpa, fill_of_mem _ _ (by omega) (by omega), Nat.add_sub_cancel_left]
      intro va' _ hre' heq
      rw [hreach] at hre'
      rw [hphys] at heq
      have := h.physAddr_inj hre'.accessible hre.accessible heq
      have := hre'.1
      unfold PGSIZE at *
      omega
    · have hd : dst / PGSIZE * PGSIZE + PGSIZE = dst + n := by
        unfold PGSIZE at *
        omega
      have hhit := hrest.hit va (by omega) ((hreach _ _).mpr ⟨by omega, fun v hv hv' =>
        hre.2 v (by unfold PGSIZE at *; omega) hv'⟩)
      rw [hphys] at hhit
      exact hhit.trans (congrArg src (by omega))
  · rw [hrest.miss, hmemt, fill_of_not_mem]
    · by_contra hin
      obtain ⟨hre, hpa⟩ := hfirst (dst + (x - physAddr s.mem root dst)) (by omega) (by omega)
      exact hx _ (by omega) hre (by omega)
    · intro va hva hre heq
      rw [hreach] at hre
      rw [hphys] at heq
      refine hx va ?_ (hlater va hre) heq
      have := hre.1
      unfold PGSIZE at *
      omega
  · rcases hrest.ret with ⟨rfl, hall⟩ | ⟨rfl, va, h1, h2, hno⟩
    · refine .inl ⟨rfl, fun va h1 h2 => ?_⟩
      by_cases hlt : va < dst + n
      · exact (hfirst va h1 hlt).1.accessible
      · refine (hacc va).mp (hall va ?_ ?_) <;> unfold PGSIZE at * <;> omega
    · refine .inr ⟨rfl, va, ?_, ?_, fun hh => hno ((hacc va).mpr hh)⟩ <;>
        unfold PGSIZE at * <;> omega

/-- The loop of `copyout`, by induction on its iterations. -/
theorem copyoutLoop_run (src : Nat → Byte) (off : Nat) (h : Apart s.mem root)
    (hlen : len ≤ fuel) :
    wp (copyoutLoop root src fuel dst off len) (fun r s' =>
      Copied root dst (fun i => src (off + i)) len r s s') s := by
  induction fuel generalizing s dst off len with
  | zero =>
    refine wp_pure ⟨rfl, fun va hva hre => ?_, fun _ _ => rfl, .inl ⟨rfl, fun va _ _ => ?_⟩⟩
    · have := hre.1
      omega
    · omega
  | succ fuel ih =>
    rw [copyoutLoop]
    by_cases hl : len = 0
    · rw [if_pos hl]
      refine wp_pure ⟨rfl, fun va hva hre => ?_, fun _ _ => rfl, .inl ⟨rfl, fun va _ _ => ?_⟩⟩
      · have := hre.1
        omega
      · omega
    rw [if_neg hl]
    refine wp_bind (wp_of_eq (walkaddr_page s root dst) ?_)
    by_cases hdst : AccessibleAt s.mem root dst
    · rw [if_pos hdst, if_neg hdst.2.2.2]
      have hdata := h.data dst hdst
      refine wp_bind (wp_modify ?_)
      rw [sub_PGROUNDDOWN]
      have hagree : ptRadix.Agree (ptPages s.mem root) s.mem
          (fill s.mem (physAddr s.mem root dst) (min (PGSIZE - dst % PGSIZE) len)
            fun i => src (off + i)) := by
        refine h.tree.agree (eqOff_fill s.mem _ (PTE2PA_dvd _) (le_add_right _ _) ?_)
          fun p hp hin => ?_
        · have := mod_lt dst (show 0 < PGSIZE by decide)
          unfold physAddr
          omega
        · rw [Multiset.mem_singleton] at hin
          exact hdata (hin ▸ hp)
      have hnext : (PGROUNDDOWN dst + PGSIZE) % 2 ^ 64 = dst / PGSIZE * PGSIZE + PGSIZE := by
        have := hdst.1
        unfold PGROUNDDOWN PGSIZE MAXVA at *
        omega
      rw [hnext]
      refine wp_mono (ih _ (h.congr hagree) ?_) fun r s' hc => ?_
      · have := mod_lt dst (show 0 < PGSIZE by decide)
        omega
      · refine Copied.cons h hdst rfl rfl hagree ?_
        simpa only [add_assoc, physAddr] using hc
    · rw [if_neg hdst, if_pos rfl]
      refine wp_pure ⟨rfl, fun va hva hre => ?_, fun _ _ => rfl,
        .inr ⟨rfl, dst, le_rfl, by omega, hdst⟩⟩
      exact absurd (accessibleAt_page.mp (hre.2 _ le_rfl (Nat.div_le_div_right hre.1))) hdst

/-- **`copyout`.** -/
theorem Apart.wp_copyout {src : Nat → Byte} (h : Apart s.mem root) :
    wp (copyout root dst src len) (fun r s' => Copied root dst src len r s s') s := by
  rw [copyout]
  simpa only [zero_add] using copyoutLoop_run src 0 h le_rfl

end Xv6
