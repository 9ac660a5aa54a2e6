/-
# Xv6.Proc.Pgaccess — what `pgaccess` reports, and when it does not return.

The loop clears the access bit of every page it visits and collects the bits it cleared in a 32-bit
word, bit `i % 32` for page `i`.  So the answer is right for up to 32 pages, and beyond that only by
accident; and since the result of `copyout` is not looked at, the caller learns nothing when the mask
could not be written.  `walk` stops the kernel at the first page at or above `MAXVA`, which nobody has
checked.
-/
import Xv6.Proc.Owner
import Xv6.Mem.Bytewise
import Xv6.Mem.Refine

namespace Xv6

open Lib Lib.Store Lib.Prog Nat

variable {s s' t : Mach} {root v i n : Nat} {bitmasks r : BitVec 32}

/-! ## What the call does -/

/-- The page at `va + j * PGSIZE` is mapped and has been accessed. -/
def Accessed (m : Store) (root va j : Nat) : Prop :=
  ptEntry m root ((va + j * PGSIZE) / PGSIZE) &&& PTE_V ≠ 0 ∧
    ptEntry m root ((va + j * PGSIZE) / PGSIZE) &&& PTE_A ≠ 0

/-- Bit `j` of the mask at address `mask`, as the user reads it. -/
def MaskBit (m : Store) (root mask j : Nat) : Prop :=
  AccessibleAt m root (mask + j / 8) ∧
    (m (physAddr m root (mask + j / 8))).getLsbD (j % 8) = true

/-- The four bytes of the mask can be written. -/
def MaskWritable (m : Store) (root mask : Nat) : Prop :=
  ∀ b < 4, AccessibleAt m root (mask + b)

instance (m : Store) (root va j : Nat) : Decidable (Accessed m root va j) :=
  inferInstanceAs (Decidable (_ ∧ _))

instance (m : Store) (root mask j : Nat) : Decidable (MaskBit m root mask j) :=
  inferInstanceAs (Decidable (_ ∧ _))

instance (m : Store) (root mask : Nat) : Decidable (MaskWritable m root mask) :=
  inferInstanceAs (Decidable (∀ b < 4, _))

/-- What `pgaccess` does to memory: it clears the access bits of the pages it visits, and writes four
bytes that have a bit for every page index modulo 32. -/
structure PgaccessDoes (root va n mask : Nat) (m m' : Store) : Prop where
  cleared : ∀ j < n, Accessed m root va j → ptEntry m' root ((va + j * PGSIZE) / PGSIZE) =
    ptEntry m root ((va + j * PGSIZE) / PGSIZE) &&& ~~~PTE_A
  kept : ∀ w < NVPN, (∀ j < n, Accessed m root va j → w ≠ (va + j * PGSIZE) / PGSIZE) →
    ptEntry m' root w = ptEntry m root w
  byte : ∀ x, m' x ≠ m x → (∃ b < 4, x = physAddr m root (mask + b)) ∨
    ∃ j < n, Accessed m root va j ∧
      ∃ p, pteAddr m root ((va + j * PGSIZE) / PGSIZE) = some p ∧ p ≤ x ∧ x < p + 8
  low : MaskWritable m root mask → ∀ b < 32, MaskBit m' root mask b ↔
    ∃ j < n, j % 32 = b ∧ Accessed m root va j
  high : ∀ b, 32 ≤ b → (MaskBit m' root mask b ↔ MaskBit m root mask b)

theorem Marked.accessibleAt (hm : Marked root s s') (va : Nat) :
    AccessibleAt s'.mem root va ↔ AccessibleAt s.mem root va := by
  refine and_congr_right fun hva => ?_
  have he := hm.entries _ (vpn_lt hva)
  simp only [Accessible, Ne, and_V_eq_zero, and_U_eq_zero, he.page, he.bit 0 (by omega) (by omega),
    he.bit 4 (by omega) (by omega)]

theorem Marked.physAddr (hm : Marked root s s') (hva : va < MAXVA) :
    physAddr s'.mem root va = physAddr s.mem root va := by
  rw [Xv6.physAddr, Xv6.physAddr, (hm.entries _ (vpn_lt hva)).page]

/-- The loop and the copy together. -/
theorem Swept.does {va mask : Nat} {c : Int} {s₁ s₂ : Mach}
    (hva : va + n * PGSIZE ≤ MAXVA)
    (hvalid : ∀ w < NVPN, ptEntry s.mem root w &&& PTE_A ≠ 0 → ptEntry s.mem root w &&& PTE_V ≠ 0)
    (h : Swept root (va / PGSIZE) 0 n 0 s r s₁) (hap : Apart s₁.mem root)
    (hc : Copied root mask (bytesOf (k := 4) r) 4 c s₁ s₂) :
    PgaccessDoes root va n mask s.mem s₂.mem := by
  have hpage : ∀ j, (va + j * PGSIZE) / PGSIZE = va / PGSIZE + j := fun j =>
    add_mul_div_right _ _ (by decide)
  have hbound : ∀ j < n, va / PGSIZE + j < NVPN := fun j hj => by
    unfold PGSIZE MAXVA NVPN at *
    omega
  have hacc : ∀ j < n, (Accessed s.mem root va j ↔
      ptEntry s.mem root (va / PGSIZE + j) &&& PTE_A ≠ 0) := fun j hj => by
    rw [Accessed, hpage]
    exact ⟨And.right, fun hA => ⟨hvalid _ (hbound j hj) hA, hA⟩⟩
  have hentry := hap.copied_entry hc
  have hm := h.marked
  have hat : ∀ a, AccessibleAt s₂.mem root a ↔ AccessibleAt s.mem root a := fun a => by
    rw [← hm.accessibleAt, AccessibleAt, AccessibleAt, hentry]
  have hphys : ∀ a < MAXVA, physAddr s₂.mem root a = physAddr s.mem root a ∧
      physAddr s₁.mem root a = physAddr s.mem root a := fun a ha => by
    refine ⟨?_, hm.physAddr ha⟩
    rw [← hm.physAddr ha, physAddr, physAddr, hentry]
  refine ⟨fun j hj hA => ?_, fun w hw hno => ?_, fun x hx => ?_, fun hwr b hb => ?_,
    fun b hb => ?_⟩
  · rw [hentry, hpage, h.entry _ (hbound j hj), if_pos (by omega)]
  · rw [hentry, h.entry w hw]
    split
    · rename_i hin
      refine and_not_A ?_
      by_contra hA
      have hj : w - va / PGSIZE < n := by omega
      refine hno _ hj ((hacc _ hj).mpr ?_) ?_
      · rwa [show va / PGSIZE + (w - va / PGSIZE) = w by omega]
      · rw [hpage]
        omega
    · rfl
  · by_cases hx1 : s₂.mem x = s₁.mem x
    · obtain ⟨j, -, hj, hA, p, hp, hin⟩ := h.byte x (hx1 ▸ hx)
      refine .inr ⟨j, by omega, (hacc j (by omega)).mpr hA, p, ?_, hin⟩
      rwa [hpage]
    · left
      by_contra hno
      refine hx1 (hc.miss x fun a ha hre heq => hno ⟨a - mask, ?_, ?_⟩)
      · have := hre.1
        omega
      · rw [Nat.add_sub_cancel' hre.1, ← heq, (hphys a hre.accessible.1).2]
  · have hb4 : b / 8 < 4 := by omega
    have ha := hwr _ hb4
    have hre : Reached s₁.mem root mask (mask + b / 8) := by
      refine reached_of_accessible (le_add_right _ _) fun a h1 h2 => (hm.accessibleAt a).mpr ?_
      have := hwr (a - mask) (by omega)
      rwa [Nat.add_sub_cancel' h1] at this
    have hhit := hc.hit _ (by omega) hre
    rw [(hphys _ ha.1).2, Nat.add_sub_cancel_left] at hhit
    have hbit : (bytesOf (k := 4) r (b / 8)).getLsbD (b % 8) = r.getLsbD b := by
      rw [bytesOf, BitVec.getLsbD_extractLsb', div_add_mod,
        decide_eq_true (mod_lt b (by decide)), Bool.true_and]
    rw [MaskBit, hat, (hphys _ ha.1).1, hhit, hbit, h.mask]
    constructor
    · rintro ⟨-, h0 | ⟨j, -, hj, hjb, hA⟩⟩
      · exact absurd h0 (by simp)
      · exact ⟨j, by omega, hjb, (hacc j (by omega)).mpr hA⟩
    · rintro ⟨j, hj, hjb, hA⟩
      exact ⟨ha, .inr ⟨j, zero_le j, by omega, hjb, (hacc j hj).mp hA⟩⟩
  · rw [MaskBit, MaskBit, hat]
    refine and_congr_right fun ha => ?_
    -- a byte behind the four, and not in the table
    have ha1 : AccessibleAt s₁.mem root (mask + b / 8) := (hm.accessibleAt _).mpr ha
    have hmiss : s₂.mem (physAddr s₁.mem root (mask + b / 8)) =
        s₁.mem (physAddr s₁.mem root (mask + b / 8)) := hc.miss _ fun a hlt hre heq => by
      have := hap.physAddr_inj hre.accessible ha1 heq
      omega
    have hsame : s₁.mem (physAddr s₁.mem root (mask + b / 8)) =
        s.mem (physAddr s₁.mem root (mask + b / 8)) := hm.touches.mem _ (by
      rw [PGROUNDDOWN_physAddr, ← hm.pages]
      exact hap.data _ ha1)
    rw [(hphys _ ha.1).1, ← (hphys _ ha.1).2, hmiss, hsame]

/-! ## The call -/

variable {k k' : Kernel} {X : Multiset Nat} {Y : Fin NFILE → Int} {p : Fin NPROC}

/-- In an address space what is not mapped is 0. -/
theorem Space.valid_of_accessed {m : Store} {trampoline sz trapframe usyscall : Nat}
    {guard : Option Nat} (hs : Space m trampoline root sz trapframe usyscall guard) {w : Nat}
    (hw : w < NVPN) (hA : ptEntry m root w &&& PTE_A ≠ 0) : ptEntry m root w &&& PTE_V ≠ 0 := by
  rw [Ne, and_V_eq_zero, Bool.not_eq_false]
  rcases lt_or_ge w (npages sz) with hlt | hge
  · exact (hs.layout.user w hlt).1
  by_cases h1 : w = vUSYSCALL
  · rw [h1, hs.layout.usyscall.getLsbD (by omega)]
    decide
  by_cases h2 : w = vTRAPFRAME
  · rw [h2, hs.layout.trapframe.getLsbD (by omega)]
    decide
  by_cases h3 : w = vTRAMPOLINE
  · rw [h3, hs.layout.trampoline.getLsbD (by omega)]
    decide
  · rw [hs.layout.none w hw hge h1 h2 h3] at hA
    exact absurd BitVec.zero_and hA

theorem wp_pgaccess_does (h : KInv k X Y ∅) (hlive : (k.proc p).state ≠ .UNUSED)
    (hr : (k.proc p).pagetable = some root) (hva : va + n * PGSIZE ≤ MAXVA)
    (mask : Nat) :
    wp (pgaccess p va n mask) (fun r k' => r = 0 ∧
      PgaccessDoes root va n mask k.mach.mem k'.mach.mem) k := by
  obtain ⟨root', tf, us, hr', htf, hus, hs⟩ := h.live hlive
  obtain rfl : root = root' := Option.some.inj (hr.symm.trans hr')
  have hidle := h.idle_space hr htf hus
  have hidle' := hidle
  rw [add_assoc] at hidle'
  rw [pgaccess]
  refine wp_bind (wp_get (wp_bind (wp_deref hr ?_)))
  refine wp_seq (wp_onMach (pgaccessLoop_swept va n 0 0 (hs.own' hidle').tree fun j _ hj => ?_)) ?_
  · unfold PGSIZE at *
    omega
  rintro bitmasks k1 ⟨hsw, e1⟩
  obtain ⟨hs1, -, m1⟩ := hs.marked hsw.marked
  have hidle1 : Idle k1.mach (spacePages k1.mach.mem root (k.proc p).sz + {us} +
      ({tf} + (X + k.rest p))) := by
    have := hidle'.moves (m1.frame _)
    rwa [← add_assoc] at this
  refine wp_seq (wp_onMach (hs1.wp_copyout hidle1 (bytesOf (k := 4) bitmasks))) ?_
  rintro c k2 ⟨⟨hc, -⟩, -⟩
  exact wp_pure ⟨rfl, hsw.does hva (fun w hw => hs.valid_of_accessed hw) (hs1.apart hidle1) hc⟩

/-- What `sys_pgaccess` owes its caller: with result 0 the mask has the bits of the pages that had been
accessed, these bits are cleared, and nothing else is changed; and 0 is not the result if the mask
cannot be written. -/
def PgaccessReports (root va n mask : Nat) (m : Store) (r : Int) (m' : Store) : Prop :=
  (r = 0 →
    (∀ j < n, MaskBit m' root mask j ↔ Accessed m root va j) ∧
    (∀ j < n, Accessed m root va j → ptEntry m' root ((va + j * PGSIZE) / PGSIZE) =
      ptEntry m root ((va + j * PGSIZE) / PGSIZE) &&& ~~~PTE_A) ∧
    (∀ w < NVPN, (∀ j < n, Accessed m root va j → w ≠ (va + j * PGSIZE) / PGSIZE) →
      ptEntry m' root w = ptEntry m root w) ∧
    ∀ x, m' x ≠ m x → (∃ b < 4, x = physAddr m root (mask + b)) ∨
      ∃ j < n, Accessed m root va j ∧
        ∃ a, pteAddr m root ((va + j * PGSIZE) / PGSIZE) = some a ∧ a ≤ x ∧ x < a + 8) ∧
  (¬MaskWritable m root mask → r = -1)

/-- **`pgaccess` reports what it clears exactly if** the mask can be written and the pages from 32 on,
if there are any, do not spoil it: none of them has been accessed when the page 32 or more before
it has not, and their bits of the mask, which are not written, are right already. -/
theorem pgaccess_reports_iff (h : KInv k X Y ∅) (hlive : (k.proc p).state ≠ .UNUSED)
    (hr : (k.proc p).pagetable = some root) {va : Nat} {n : BitVec 32}
    (hn : 1 ≤ n.toInt ∧ n.toInt ≤ 512) (hva : va + n.toNat * PGSIZE ≤ MAXVA) (mask : Nat) :
    wp (sysPgaccess p va n mask) (fun r k' =>
      PgaccessReports root va n.toNat mask k.mach.mem r k'.mach.mem) k ↔
    MaskWritable k.mach.mem root mask ∧ ∀ j < n.toNat, 32 ≤ j →
      (Accessed k.mach.mem root va j → Accessed k.mach.mem root va (j % 32)) ∧
      (MaskBit k.mach.mem root mask j ↔ Accessed k.mach.mem root va j) := by
  obtain ⟨r, k', hrun, hr0, hd⟩ := wp_pgaccess_does h hlive hr hva mask
  have hcall : sysPgaccess p va n mask k = .ok (r, k') := by
    rw [sysPgaccess, if_neg (by omega), hrun]
  constructor
  · rintro ⟨r', k'', hrun', hok, hfail⟩
    cases hcall.symm.trans hrun'
    have hwr : MaskWritable k.mach.mem root mask := by
      by_contra hno
      have := hfail hno
      omega
    obtain ⟨hbit, -⟩ := hok hr0
    refine ⟨hwr, fun j hj h32 => ⟨fun hA => ?_, ?_⟩⟩
    · refine (hbit (j % 32) (by omega)).mp ((hd.low hwr _ (by omega)).mpr ⟨j, hj, ?_, hA⟩)
      rfl
    · rw [← hd.high j h32]
      exact hbit j hj
  · rintro ⟨hwr, hhigh⟩
    refine ⟨r, k', hcall, fun _ => ⟨fun j hj => ?_, hd.cleared, hd.kept, hd.byte⟩, fun hno =>
      absurd hwr hno⟩
    rcases lt_or_ge j 32 with hlt | hge
    · rw [hd.low hwr j hlt]
      constructor
      · rintro ⟨j', hj', hmod, hA⟩
        rcases lt_or_ge j' 32 with hlt' | hge'
        · rwa [show j = j' by omega]
        · rw [← hmod]
          exact (hhigh j' hj' hge').1 hA
      · intro hA
        exact ⟨j, hj, mod_eq_of_lt hlt, hA⟩
    · rw [hd.high j hge]
      exact (hhigh j hj hge).2

/-- The first process asks about its first page. -/
theorem pgaccess_reports_iff_small : ∃ pages k root, Reachable pages k ∧
    (k.proc ⟨0, by decide⟩).state = .RUNNABLE ∧ (k.proc ⟨0, by decide⟩).pagetable = some root ∧
    wp (sysPgaccess ⟨0, by decide⟩ 0 1 0) (fun r k' =>
      PgaccessReports root 0 1 0 k.mach.mem r k'.mach.mem) k := by
  obtain ⟨pages, k, hb, hrun, hmask⟩ := small_boots
    (P := fun k => (k.proc ⟨0, by decide⟩).pagetable.any fun root =>
      decide (MaskWritable k.mach.mem root 0)) (by decide +kernel)
  obtain ⟨root, hr, hmask⟩ := (Option.any_eq_true _ _).mp hmask
  have hreach : Reachable pages k := ⟨k, [], hb, rfl⟩
  refine ⟨pages, k, root, hreach, hrun, hr, (pgaccess_reports_iff hreach.kinv ?_ hr (by decide)
    (by decide) 0).mpr ⟨of_decide_eq_true hmask, fun j hj h32 => ?_⟩⟩
  · rw [hrun]
    decide
  · have : j < 1 := hj
    omega

/-- **A mask that cannot be written, and a 33rd page.** The call returns 0 for a mask at `MAXVA`; and
when of 33 pages only the last, the shared page, has been accessed, the caller is told that it was the
first. -/
theorem pgaccess_misreports : ∃ pages k root k₀ k₁ k₂, Booted pages k ∧
    (k.proc ⟨0, by decide⟩).pagetable = some root ∧
    (sysPgaccess ⟨0, by decide⟩ 0 1 MAXVA k = .ok (0, k₀) ∧ ¬MaskWritable k.mach.mem root MAXVA) ∧
    userAccess ⟨0, by decide⟩ USYSCALL none k = .ok (true, k₁) ∧
    sysPgaccess ⟨0, by decide⟩ (USYSCALL - 32 * PGSIZE) 33 0 k₁ = .ok (0, k₂) ∧
    Accessed k₁.mach.mem root (USYSCALL - 32 * PGSIZE) 32 ∧
    ¬Accessed k₁.mach.mem root (USYSCALL - 32 * PGSIZE) 0 ∧ MaskBit k₂.mach.mem root 0 0 := by
  obtain ⟨pages, k, hb, -, hP⟩ := small_boots
    (P := fun k => (k.proc ⟨0, by decide⟩).pagetable.any fun root =>
      ((sysPgaccess ⟨0, by decide⟩ 0 1 MAXVA).test k fun r _ =>
        decide (r = 0 ∧ ¬MaskWritable k.mach.mem root MAXVA)) &&
      (userAccess ⟨0, by decide⟩ USYSCALL none).test k fun ok k₁ => ok &&
        (sysPgaccess ⟨0, by decide⟩ (USYSCALL - 32 * PGSIZE) 33 0).test k₁ fun r k₂ =>
          decide (r = 0 ∧ Accessed k₁.mach.mem root (USYSCALL - 32 * PGSIZE) 32 ∧
            ¬Accessed k₁.mach.mem root (USYSCALL - 32 * PGSIZE) 0 ∧ MaskBit k₂.mach.mem root 0 0))
    (by decide +kernel)
  obtain ⟨root, hr, hP⟩ := (Option.any_eq_true _ _).mp hP
  obtain ⟨h1, h2⟩ := Bool.and_eq_true_iff.mp hP
  obtain ⟨r, k₀, hrun0, h₀⟩ := of_test h1
  obtain ⟨rfl, hno⟩ := of_decide_eq_true h₀
  obtain ⟨ok, k₁, hacc, h2⟩ := of_test h2
  obtain ⟨rfl, h2⟩ := Bool.and_eq_true_iff.mp h2
  obtain ⟨r, k₂, hrun2, h2⟩ := of_test h2
  obtain ⟨rfl, hA, hno', hbit⟩ := of_decide_eq_true h2
  exact ⟨pages, k, root, k₀, k₁, k₂, hb, hr, ⟨hrun0, hno⟩, hacc, hrun2, hA, hno', hbit⟩

/-! ## Addresses at or above `MAXVA` -/

/-- The loop stops the kernel if it visits such a page. -/
theorem pgaccessLoop_stops (s : Mach) (root va n i : Nat) (bitmasks : BitVec 32)
    (h : ∃ j, i ≤ j ∧ j < i + n ∧ (va + j * PGSIZE) % 2 ^ 64 ≥ MAXVA) :
    ∃ msg, pgaccessLoop root va n i bitmasks s = .error msg := by
  induction n generalizing i bitmasks s with
  | zero =>
    obtain ⟨j, h1, h2, -⟩ := h
    omega
  | succ n ih =>
    rw [pgaccessLoop]
    by_cases hi : (va + i * PGSIZE) % 2 ^ 64 ≥ MAXVA
    · refine ⟨"walk", bind_error ?_⟩
      rw [walk, if_pos hi]
      rfl
    have hrest : ∃ j, i + 1 ≤ j ∧ j < i + 1 + n ∧ (va + j * PGSIZE) % 2 ^ 64 ≥ MAXVA := by
      obtain ⟨j, h1, h2, hj⟩ := h
      rcases eq_or_lt_of_le h1 with rfl | hlt
      · exact absurd hj hi
      · exact ⟨j, hlt, by omega, hj⟩
    rw [bind_ok (walk_false s root (Nat.lt_of_not_le hi))]
    cases ptRadix.slot s.mem 2 root (vkey ((va + i * PGSIZE) % 2 ^ 64 / PGSIZE)) with
    | none => exact ih s (i + 1) bitmasks hrest
    | some q =>
      rw [Option.map_some]
      dsimp only
      rw [bind_ok (show readPte (q + 8 * vkey ((va + i * PGSIZE) % 2 ^ 64 / PGSIZE) 0) s =
        .ok (_, s) from rfl)]
      split
      · rw [bind_ok (show writePte _ _ s = .ok ((), _) from rfl)]
        exact ih _ (i + 1) _ hrest
      · exact ih s (i + 1) bitmasks hrest

/-- **`sys_pgaccess` returns exactly if** it refuses the number of pages or every page is below
`MAXVA`. -/
theorem pgaccess_returns_iff (h : KInv k X Y ∅) (hlive : (k.proc p).state ≠ .UNUSED) {va : Nat}
    (hva : va < 2 ^ 64) (n : BitVec 32) (mask : Nat) :
    (∃ r k', sysPgaccess p va n mask k = .ok (r, k')) ↔
      n.toInt ≤ 0 ∨ 512 < n.toInt ∨ va + (n.toNat - 1) * PGSIZE < MAXVA := by
  rw [sysPgaccess]
  by_cases hn : n.toInt ≤ 0 ∨ n.toInt > 512
  · rw [if_pos hn]
    refine ⟨fun _ => ?_, fun _ => ⟨_, _, rfl⟩⟩
    rcases hn with hn | hn
    · exact .inl hn
    · exact .inr (.inl hn)
  rw [if_neg hn]
  have hnat : (n.toNat : Int) = n.toInt := by
    rw [BitVec.toInt_eq_toNat_cond] at hn ⊢
    split <;> omega
  constructor
  · rintro ⟨r, k', hrun⟩
    refine .inr (.inr ?_)
    by_contra hge
    obtain ⟨root, tf, us, hr, -⟩ := h.live hlive
    -- the first page, or else the last: up to there addresses do not wrap
    have hstop : ∃ j, 0 ≤ j ∧ j < 0 + n.toNat ∧ (va + j * PGSIZE) % 2 ^ 64 ≥ MAXVA := by
      rcases lt_or_ge va MAXVA with hlt | hge'
      · refine ⟨n.toNat - 1, zero_le _, by omega, ?_⟩
        unfold MAXVA PGSIZE at *
        omega
      · refine ⟨0, le_rfl, by omega, ?_⟩
        rwa [zero_mul, add_zero, mod_eq_of_lt hva]
    obtain ⟨msg, hmsg⟩ := pgaccessLoop_stops k.mach root va n.toNat 0 0 hstop
    have hloop : onMach (pgaccessLoop root va n.toNat 0 0) k = .error msg := by
      rw [onMach, zoom, hmsg]
    rw [pgaccess, bind_ok (show (get : Prog Kernel Kernel) k = .ok (k, k) from rfl), hr,
      bind_ok (show deref (some root) k = .ok (root, k) from rfl), bind_error hloop] at hrun
    cases hrun
  · rintro (hle | hgt | hlt)
    · omega
    · omega
    · have hbelow : ∀ j < n.toNat, va + j * PGSIZE < MAXVA := fun j hj => by
        have hmul : j * PGSIZE ≤ (n.toNat - 1) * PGSIZE := mul_le_mul_right _ (by omega)
        exact Nat.lt_of_le_of_lt (Nat.add_le_add_left hmul va) hlt
      obtain ⟨r, k', hrun, -⟩ := wp_pgaccess h hlive hbelow mask
      exact ⟨r, k', hrun⟩

/-- The first process asks about its first page. -/
theorem pgaccess_returns_iff_small : ∃ pages k, Reachable pages k ∧
    (k.proc ⟨0, by decide⟩).state = .RUNNABLE ∧
    ∃ r k', sysPgaccess ⟨0, by decide⟩ 0 1 0 k = .ok (r, k') := by
  obtain ⟨pages, k, hb, hrun⟩ := small_booted
  have hreach : Reachable pages k := ⟨k, [], hb, rfl⟩
  refine ⟨pages, k, hreach, hrun, (pgaccess_returns_iff hreach.kinv ?_ (by decide) 1 0).mpr ?_⟩
  · rw [hrun]
    decide
  · exact .inr (.inr (by decide))

/-- The first process asks about the page at `MAXVA`, and the kernel stops. -/
theorem pgaccess_panics : ∃ pages k, Booted pages k ∧
    (k.proc ⟨0, by decide⟩).state = .RUNNABLE ∧
    sysPgaccess ⟨0, by decide⟩ MAXVA 1 0 k = .error "walk" := by
  obtain ⟨pages, k, hb, hrun, hstop⟩ := small_boots
    (P := fun k => (sysPgaccess ⟨0, by decide⟩ MAXVA 1 0).stops k "walk") (by decide +kernel)
  exact ⟨pages, k, hb, hrun, of_stops hstop⟩

end Xv6
