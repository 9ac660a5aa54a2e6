/-
# Xv6.Proc.Access — the bits the hardware sets, and `pgaccess`.

When user code loads or stores, the hardware sets `PTE_A` (and `PTE_D`) in the entry it used, and
`pgaccess` clears `PTE_A` again.  Neither is a bit that an address space is about: `Marked` says that
a run changed these two bits of entries and nothing else of a table.
-/
import Xv6.Proc.Pipe

namespace Xv6

open Lib Lib.Store Lib.Prog Multiset BitVec

/-! ## User code -/

/-- The page has been written; the source has no name for this bit. -/
def PTE_D : Pte := 1#64 <<< 7

/-- The permission that a load or a store needs. -/
def needs (w : Option Byte) : Pte := if w.isSome then PTE_W else PTE_R

/-- What the hardware does when user code loads a byte at `va`, or stores `w` there; `false` is a
page fault. -/
def mmu (pagetable va : Nat) (w : Option Byte) : Prog Mach Bool := do
  if va ≥ MAXVA then
    pure false
  else
    match ← walk pagetable va false with
    | none => pure false
    | some pte =>
      let e ← readPte pte
      if e &&& PTE_V ≠ 0 ∧ e &&& PTE_U ≠ 0 ∧ e &&& needs w ≠ 0 then
        writePte pte (e ||| PTE_A ||| if w.isSome then PTE_D else 0)
        (match w with
          | some b => memput (PTE2PA e + va % PGSIZE) (fun _ => b) 1
          | none => pure ())
        pure true
      else
        pure false

/-- User code of process `i` loads or stores a byte. -/
def userAccess (i : Fin NPROC) (va : Nat) (w : Option Byte) : Prog Kernel Bool := do
  let pt ← deref ((← get).proc i).pagetable
  onMach (mmu pt va w)

/-! ## Marking entries -/

/-- The entries differ in `PTE_A` and `PTE_D` at most. -/
structure MarkOf (e e' : Pte) : Prop where
  bit : ∀ i, i ≠ 6 → i ≠ 7 → e'.getLsbD i = e.getLsbD i
  zero : e = 0 → e' = 0

variable {e e' e'' : Pte}

theorem MarkOf.refl (e : Pte) : MarkOf e e := ⟨fun _ _ _ => rfl, id⟩

theorem MarkOf.trans (h : MarkOf e e') (h' : MarkOf e' e'') : MarkOf e e'' :=
  ⟨fun i h1 h2 => (h'.bit i h1 h2).trans (h.bit i h1 h2), fun hz => h'.zero (h.zero hz)⟩

theorem getLsbD_bit_ne {n i : Nat} (h : i ≠ n) : (1#64 <<< n).getLsbD i = false := by
  simp only [getLsbD_shiftLeft, getLsbD_one, Bool.and_eq_false_iff,
    Bool.not_eq_false', decide_eq_true_eq, decide_eq_false_iff_not]
  omega

theorem MarkOf.clear (e : Pte) : MarkOf e (e &&& ~~~PTE_A) := by
  refine ⟨fun i h6 _ => ?_, fun hz => by rw [hz]; exact zero_and⟩
  rw [getLsbD_and, getLsbD_not, PTE_A, getLsbD_bit_ne h6, Bool.not_false,
    Bool.and_true]
  by_cases hi : i < 64
  · simp [hi]
  · simp [getLsbD_of_ge e i (by omega)]

theorem MarkOf.set (hx : x = 0 ∨ x = PTE_D) (hne : e ≠ 0) :
    MarkOf e (e ||| PTE_A ||| x) := by
  refine ⟨fun i h6 h7 => ?_, fun hz => absurd hz hne⟩
  have hx : x.getLsbD i = false := by
    rcases hx with rfl | rfl
    · exact getLsbD_zero
    · exact getLsbD_bit_ne h7
  rw [getLsbD_or, getLsbD_or, hx, PTE_A, getLsbD_bit_ne h6, Bool.or_false,
    Bool.or_false]

theorem MarkOf.page (h : MarkOf e e') : PTE2PA e' = PTE2PA e :=
  PTE2PA_congr fun i hi => h.bit i (by omega) (by omega)

theorem MarkOf.mapsTo (h : MarkOf e e') (hm : MapsTo e pa perm) :
    MapsTo e' pa perm := by
  refine ⟨h.page.trans hm.page, (eq_of_getLsbD_eq fun i hi => ?_).trans hm.perm⟩
  rw [getLsbD_and, getLsbD_and]
  by_cases h6 : i = 6
  · subst h6
    simp
  by_cases h7 : i = 7
  · subst h7
    simp
  rw [h.bit i h6 h7]

/-- From `s` to `s'` entries of the table at `root` were marked, and nothing else was done to it. -/
structure Marked (root : Nat) (s s' : Mach) : Prop where
  tree : Tree s'.mem root
  pages : ptPages s'.mem root = ptPages s.mem root
  entries : ∀ w < NVPN, MarkOf (ptEntry s.mem root w) (ptEntry s'.mem root w)
  touches : Touches (ptPages s.mem root) s s'
  freelist : s'.freelist = s.freelist
  refreed : s'.refreed = s.refreed

variable {s s' s'' : Mach} {m : Store} {root : Nat}

theorem Marked.refl (ht : Tree s.mem root) : Marked root s s :=
  ⟨ht, rfl, fun _ _ => MarkOf.refl _, Touches.refl _ _, rfl, rfl⟩

theorem Marked.trans (h : Marked root s s') (h' : Marked root s' s'') : Marked root s s'' where
  tree := h'.tree
  pages := h'.pages.trans h.pages
  entries w hw := (h.entries w hw).trans (h'.entries w hw)
  touches := h.touches.trans (h.pages ▸ h'.touches)
  freelist := h'.freelist.trans h.freelist
  refreed := h'.refreed.trans h.refreed

/-- Marking the entry that `walk` found. -/
theorem Tree.marked (ht : Tree s.mem root)
    (hs : ptRadix.slot s.mem 2 root (vkey v) = some q) (hv : v < NVPN)
    (he : MarkOf (ptEntry s.mem root v) e) :
    Marked root s { s with mem := store 8 s.mem (q + 8 * vkey v 0) e } where
  tree := ht.set hs e
  pages := ht.ptPages_set hs e
  entries w hw := by
    rw [ht.ptEntry_set hs e hv hw]
    split
    · subst w
      exact he
    · exact MarkOf.refl _
  touches := ⟨rfl, rfl, ht.eqOff_set hs e⟩
  freelist := rfl
  refreed := rfl

/-! ## `pgaccess` -/

/-- The address of the entry of page `v`, as `walk` finds it. -/
def pteAddr (m : Store) (root v : Nat) : Option Nat :=
  (ptRadix.slot m 2 root (vkey v)).map (· + 8 * vkey v 0)

/-- From `s` to `s'` the access bits of the pages `v + i, …, v + i + n - 1` were cleared and nothing
else; `r` is `bitmasks` with the bits of the pages that had it. -/
structure Swept (root v i n : Nat) (bitmasks : BitVec 32) (s : Mach) (r : BitVec 32) (s' : Mach) :
    Prop where
  marked : Marked root s s'
  slot : ∀ w, pteAddr s'.mem root w = pteAddr s.mem root w
  entry : ∀ w < NVPN, ptEntry s'.mem root w =
    if v + i ≤ w ∧ w < v + i + n then ptEntry s.mem root w &&& ~~~PTE_A else ptEntry s.mem root w
  byte : ∀ x, s'.mem x ≠ s.mem x → ∃ j, i ≤ j ∧ j < i + n ∧ ptEntry s.mem root (v + j) &&& PTE_A ≠ 0 ∧
    ∃ p, pteAddr s.mem root (v + j) = some p ∧ p ≤ x ∧ x < p + 8
  mask : ∀ b, r.getLsbD b = true ↔ bitmasks.getLsbD b = true ∨
    ∃ j, i ≤ j ∧ j < i + n ∧ j % 32 = b ∧ ptEntry s.mem root (v + j) &&& PTE_A ≠ 0

section

variable {v i n : Nat} {bitmasks r : BitVec 32}

theorem Swept.refl (ht : Tree s.mem root) (v i : Nat) (bitmasks : BitVec 32) :
    Swept root v i 0 bitmasks s bitmasks s where
  marked := Marked.refl ht
  slot _ := rfl
  entry w _ := by rw [if_neg (by omega)]
  byte x hx := absurd rfl hx
  mask b := by
    refine ⟨.inl, ?_⟩
    rintro (hb | ⟨j, h1, h2, -⟩)
    · exact hb
    · omega

theorem and_A_eq_zero (pte : Pte) : pte &&& PTE_A = 0 ↔ pte.getLsbD 6 = false :=
  and_bit_eq_zero (by omega) pte

theorem and_not_A (h : e &&& PTE_A = 0) : e &&& ~~~PTE_A = e := by
  refine eq_of_getLsbD_eq fun j hj => ?_
  rw [getLsbD_and, getLsbD_not]
  by_cases h6 : j = 6
  · rw [h6, (and_A_eq_zero e).mp h, Bool.false_and]
  · rw [PTE_A, getLsbD_bit_ne h6, Bool.not_false, Bool.and_true, decide_eq_true hj, Bool.and_true]

/-- The next page has not been accessed. -/
theorem Swept.skip (hA : ptEntry s.mem root (v + i) &&& PTE_A = 0)
    (h : Swept root v (i + 1) n bitmasks s r s') : Swept root v i (n + 1) bitmasks s r s' where
  marked := h.marked
  slot := h.slot
  entry w hw := by
    rw [h.entry w hw]
    by_cases hwi : w = v + i
    · rw [if_neg (by omega), if_pos (by omega), hwi, and_not_A hA]
    · exact if_congr (by omega) rfl rfl
  byte x hx := by
    obtain ⟨j, h1, h2, hrest⟩ := h.byte x hx
    exact ⟨j, by omega, by omega, hrest⟩
  mask b := by
    rw [h.mask]
    refine or_congr_right ⟨?_, ?_⟩
    · rintro ⟨j, h1, h2, hrest⟩
      exact ⟨j, by omega, by omega, hrest⟩
    · rintro ⟨j, h1, h2, hb, hj⟩
      rcases Nat.eq_or_lt_of_le h1 with rfl | hlt
      · exact absurd hA hj
      · exact ⟨j, by omega, by omega, hb, hj⟩

/-- The next page has been accessed, and its bit is cleared. -/
theorem Swept.clear (ht : Tree s.mem root) (hv : v + i + n < NVPN)
    (hs : ptRadix.slot s.mem 2 root (vkey (v + i)) = some q)
    (hA : ptEntry s.mem root (v + i) &&& PTE_A ≠ 0)
    (h : Swept root v (i + 1) n (bitmasks ||| 1#32 <<< (i % 32)) { s with
      mem := store 8 s.mem (q + 8 * vkey (v + i) 0) (ptEntry s.mem root (v + i) &&& ~~~PTE_A) } r s') :
    Swept root v i (n + 1) bitmasks s r s' := by
  set e := ptEntry s.mem root (v + i) &&& ~~~PTE_A with he
  set t : Mach := { s with mem := store 8 s.mem (q + 8 * vkey (v + i) 0) e } with hteq
  have hv' : v + i < NVPN := by omega
  have hmark := ht.marked hs hv' (MarkOf.clear (ptEntry s.mem root (v + i)))
  have hslot : ∀ w, pteAddr t.mem root w = pteAddr s.mem root w := fun w => by
    rw [pteAddr, pteAddr, Radix.slot_write ht.nodup hs (ht.agreeBut_set hs e)]
  have hentry : ∀ w < NVPN, ptEntry t.mem root w = if w = v + i then e else ptEntry s.mem root w :=
    fun w hw => ht.ptEntry_set hs e hv' hw
  have hlater : ∀ j, i + 1 ≤ j → j < i + 1 + n →
      ptEntry t.mem root (v + j) = ptEntry s.mem root (v + j) := fun j h1 h2 => by
    rw [hentry _ (by omega), if_neg (by omega)]
  refine ⟨hmark.trans h.marked, fun w => (h.slot w).trans (hslot w), fun w hw => ?_, fun x hx => ?_,
    fun b => ?_⟩
  · rw [h.entry w hw, hentry w hw]
    by_cases hwi : w = v + i
    · rw [if_neg (by omega), if_pos hwi, if_pos (by omega), he, hwi]
    · rw [if_neg hwi]
      exact if_congr (by omega) rfl rfl
  · by_cases hx' : s'.mem x = t.mem x
    · -- the byte changed in this iteration
      have hin : q + 8 * vkey (v + i) 0 ≤ x ∧ x < q + 8 * vkey (v + i) 0 + 8 := by
        by_contra hout
        exact hx (hx'.trans (store_of_not_mem _ _ (by omega)))
      refine ⟨i, le_rfl, by omega, hA, _, ?_, hin⟩
      rw [pteAddr, hs]
      rfl
    · obtain ⟨j, h1, h2, hj, p, hp, hrest⟩ := h.byte x hx'
      rw [hlater j h1 h2] at hj
      rw [hslot] at hp
      exact ⟨j, by omega, by omega, hj, p, hp, hrest⟩
  · have hbit : (1#32 <<< (i % 32)).getLsbD b = true ↔ i % 32 = b := by
      simp only [getLsbD_shiftLeft, getLsbD_one, Bool.and_eq_true,
        Bool.not_eq_true', decide_eq_true_eq, decide_eq_false_iff_not]
      omega
    rw [h.mask, getLsbD_or, Bool.or_eq_true, hbit]
    refine or_assoc.trans (or_congr_right ⟨?_, ?_⟩)
    · rintro (hb | ⟨j, h1, h2, hb, hj⟩)
      · exact ⟨i, le_rfl, by omega, hb, hA⟩
      · rw [hlater j h1 h2] at hj
        exact ⟨j, by omega, by omega, hb, hj⟩
    · rintro ⟨j, h1, h2, hb, hj⟩
      rcases Nat.eq_or_lt_of_le h1 with rfl | hlt
      · exact .inl hb
      · rw [← hlater j hlt (by omega)] at hj
        exact .inr ⟨j, hlt, by omega, hb, hj⟩

/-- **The loop of `pgaccess`** clears the access bits and collects them. -/
theorem pgaccessLoop_swept (va n i : Nat) (bitmasks : BitVec 32) (ht : Tree s.mem root)
    (hva : ∀ j, i ≤ j → j < i + n → va + j * PGSIZE < MAXVA) :
    wp (pgaccessLoop root va n i bitmasks)
      (fun r s' => Swept root (va / PGSIZE) i n bitmasks s r s') s := by
  induction n generalizing i bitmasks s with
  | zero => exact wp_pure (Swept.refl ht _ _ _)
  | succ n ih =>
    have hlt : va + i * PGSIZE < MAXVA := hva i le_rfl (by omega)
    have hmod : (va + i * PGSIZE) % 2 ^ 64 = va + i * PGSIZE := by
      refine Nat.mod_eq_of_lt (hlt.trans ?_)
      decide
    have hpage : (va + i * PGSIZE) / PGSIZE = va / PGSIZE + i :=
      Nat.add_mul_div_right _ _ (by decide)
    have hrest : ∀ j, i + 1 ≤ j → j < i + 1 + n → va + j * PGSIZE < MAXVA :=
      fun j h1 h2 => hva j (by omega) (by omega)
    have hbound : va / PGSIZE + i + n < NVPN := by
      have := hva (i + n) (by omega) (by omega)
      unfold PGSIZE MAXVA NVPN at *
      omega
    rw [pgaccessLoop, hmod]
    refine wp_bind ⟨_, _, walk_false s root hlt, ?_⟩
    rw [hpage]
    cases hs : ptRadix.slot s.mem 2 root (vkey (va / PGSIZE + i)) with
    | none =>
      have hskip : ptEntry s.mem root (va / PGSIZE + i) &&& PTE_A = 0 := by
        rw [ptEntry_of_slot_none hs]
        exact zero_and
      exact wp_mono (ih (i + 1) bitmasks ht hrest) fun _ _ h => h.skip hskip
    | some q =>
      refine wp_bind ⟨_, _, rfl, ?_⟩
      have hread : load 8 s.mem (q + 8 * vkey (va / PGSIZE + i) 0) =
          ptEntry s.mem root (va / PGSIZE + i) := (ptEntry_of_slot hs).symm
      dsimp only
      rw [hread]
      split
      · rename_i hacc
        refine wp_bind (wp_modify ?_)
        have hm := ht.marked hs (by omega) (MarkOf.clear (ptEntry s.mem root (va / PGSIZE + i)))
        exact wp_mono (ih (i + 1) _ hm.tree hrest) fun _ _ h => h.clear ht hbound hs hacc.2
      · rename_i hacc
        -- an entry that is 0 has no access bit
        have hskip : ptEntry s.mem root (va / PGSIZE + i) &&& PTE_A = 0 := by
          by_contra hA
          exact hacc ⟨fun hz => hA (by rw [hz]; exact zero_and), hA⟩
        exact wp_mono (ih (i + 1) bitmasks ht hrest) fun _ _ h => h.skip hskip

end

/-! ## Address spaces -/

variable {trampoline sz trapframe usyscall : Nat} {guard : Option Nat} {F : Multiset Nat}

theorem Space.marked (hs : Space s.mem trampoline root sz trapframe usyscall guard)
    (hm : Marked root s s') : Space s'.mem trampoline root sz trapframe usyscall guard ∧
      spacePages s'.mem root sz = spacePages s.mem root sz ∧
      Moves (spacePages s.mem root sz) (spacePages s'.mem root sz) s s' := by
  obtain ⟨h1, h2, h3, h4⟩ := vUSYSCALL_lt
  obtain ⟨hnp, -⟩ := hs.npages_lt
  have hent := hm.entries
  have hpages : spacePages s'.mem root sz = spacePages s.mem root sz := by
    rw [spacePages, spacePages, hm.pages,
      mapped_congr_page fun w _ hw => (hent w (by omega)).page]
  refine ⟨⟨hs.root_dvd, hm.tree.linked, hs.size, ⟨hnp, fun v hv => ?_, fun v hv hge hU hF hT => ?_,
    ?_, ?_, ?_⟩, fun v hv hg => ?_⟩, hpages, ?_⟩
  · have hbit := (hent v (by omega)).bit
    rw [hbit 0 (by omega) (by omega), hbit 1 (by omega) (by omega)]
    exact hs.layout.user v hv
  · exact (hent v hv).zero (hs.layout.none v hv hge hU hF hT)
  · exact (hent _ (by omega)).mapsTo hs.layout.trampoline
  · exact (hent _ (by omega)).mapsTo hs.layout.trapframe
  · exact (hent _ (by omega)).mapsTo hs.layout.usyscall
  · rw [(hent v (by omega)).bit 4 (by omega) (by omega)]
    exact hs.user v hv hg
  · rw [hpages]
    exact (hm.touches.mono (subset_of_le (le_add_right _ _))).moves hm.freelist
      hm.refreed

/-- A page with `PTE_U` and `PTE_W` is a user page. -/
theorem Space.writable_page (hs : Space m trampoline root sz trapframe usyscall guard)
    (hv : v < NVPN) (hU : (ptEntry m root v).getLsbD 4 = true)
    (hW : (ptEntry m root v).getLsbD 2 = true) :
    PTE2PA (ptEntry m root v) ∈ mapped (ptEntry m root) 0 (npages sz) := by
  rcases hs.user_page hv hU with ⟨-, hin⟩ | ⟨rfl, -⟩
  · exact hin
  · rw [hs.layout.usyscall.getLsbD (by omega)] at hW
    exact absurd hW (by decide)

/-- **User code** writes to the pages of its address space only. -/
theorem Space.wp_mmu (hs : Space s.mem trampoline root sz trapframe usyscall guard)
    (h : Idle s (spacePages s.mem root sz + F)) (va : Nat) (w : Option Byte) :
    wp (mmu root va w) (fun _ s' =>
      Moves (spacePages s.mem root sz) (spacePages s'.mem root sz) s s' ∧
      Space s'.mem trampoline root sz trapframe usyscall guard) s := by
  have hsame : Moves (spacePages s.mem root sz) (spacePages s.mem root sz) s s ∧
      Space s.mem trampoline root sz trapframe usyscall guard := ⟨Moves.refl _ _, hs⟩
  have hown := hs.own' h
  rw [mmu]
  split
  · exact wp_pure hsame
  rename_i hva
  have hva : va < MAXVA := by omega
  refine wp_bind ⟨_, _, walk_false s root hva, ?_⟩
  cases hslot : ptRadix.slot s.mem 2 root (vkey (va / PGSIZE)) with
  | none => exact wp_pure hsame
  | some q =>
    have hread : load 8 s.mem (q + 8 * vkey (va / PGSIZE) 0) = ptEntry s.mem root (va / PGSIZE) :=
      (ptEntry_of_slot hslot).symm
    refine wp_bind ⟨_, _, rfl, ?_⟩
    rw [hread]
    set e := ptEntry s.mem root (va / PGSIZE) with he
    split
    · rename_i hok
      obtain ⟨hV, hU, hneed⟩ := hok
      have hne : e ≠ 0 := fun hz => hV (by rw [hz]; exact zero_and)
      have hx : (if w.isSome then PTE_D else 0) = 0 ∨ (if w.isSome then PTE_D else 0) = PTE_D := by
        split
        · exact .inr rfl
        · exact .inl rfl
      have hm := hown.tree.marked hslot (vpn_lt hva) (MarkOf.set hx hne)
      obtain ⟨hs1, -, m1⟩ := hs.marked hm
      refine wp_bind (wp_modify ?_)
      set s1 : Mach := { s with mem := store 8 s.mem (q + 8 * vkey (va / PGSIZE) 0) _ }
      cases w with
      | none => exact wp_bind (wp_pure (wp_pure ⟨m1, hs1⟩))
      | some b =>
        have hmark := hm.entries _ (vpn_lt hva)
        have hU1 : (ptEntry s1.mem root (va / PGSIZE)).getLsbD 4 = true := by
          rw [hmark.bit 4 (by omega) (by omega)]
          rwa [Ne, and_U_eq_zero, Bool.not_eq_false] at hU
        have hW1 : (ptEntry s1.mem root (va / PGSIZE)).getLsbD 2 = true := by
          rw [hmark.bit 2 (by omega) (by omega)]
          have hneed : e &&& PTE_W ≠ 0 := hneed
          rwa [Ne, and_W_eq_zero, Bool.not_eq_false] at hneed
        have hin := hs1.writable_page (vpn_lt hva) hU1 hW1
        rw [hmark.page] at hin
        have hle : PTE2PA e + va % PGSIZE + 1 ≤ PTE2PA e + PGSIZE :=
          Nat.add_le_add_left (Nat.mod_lt va (by decide)) _
        refine wp_bind (wp_modify (wp_pure ?_))
        have ht : Touches {PTE2PA e} s1 { s1 with
            mem := fill s1.mem (PTE2PA e + va % PGSIZE) 1 fun _ => b } :=
          ⟨rfl, rfl, eqOff_fill s1.mem (fun _ => b) (PTE2PA_dvd e) (Nat.le_add_right _ _) hle⟩
        have ht := ht.mono (singleton_subset.mpr (mem_coe.mpr hin))
        obtain ⟨hs2, hpages⟩ := hs1.write (hs1.own' (h.moves (m1.frame F))) ht
        refine ⟨m1.trans ?_, hs2⟩
        rw [hpages]
        exact (ht.mono (subset_of_le (le_add_left _ _))).moves rfl rfl
    · exact wp_pure hsame

/-! ## The kernel -/

variable {k k' : Kernel} {X : Multiset Nat} {Y : Fin NFILE → Int} {i : Fin NPROC}

theorem wp_userAccess (h : KInv k X Y ∅) (hrun : (k.proc i).state = .RUNNABLE) (va : Nat)
    (w : Option Byte) :
    wp (userAccess i va w) (fun _ k' => KInv k' X Y ∅ ∧ ∀ j ≠ i, Same k k' j) k := by
  obtain ⟨root, tf, us, hr, htf, hus, hs⟩ := h.live (i := i) (by rw [hrun]; decide)
  have hidle := h.idle_space hr htf hus
  rw [add_assoc] at hidle
  rw [userAccess]
  refine wp_bind (wp_get (wp_bind (wp_deref hr ?_)))
  refine wp_mono (wp_onMach (hs.wp_mmu hidle va w)) ?_
  rintro r k1 ⟨⟨m1, hs1⟩, e1⟩
  exact h.respace e1 hr htf hus m1 hs1

/-- **`pgaccess`** keeps the invariant if it visits only pages below `MAXVA`. -/
theorem wp_pgaccess (h : KInv k X Y ∅) (hlive : (k.proc i).state ≠ .UNUSED)
    (hva : ∀ j < n, va + j * PGSIZE < MAXVA) (accessAbits : Nat) :
    wp (pgaccess i va n accessAbits) (fun _ k' => KInv k' X Y ∅ ∧ ∀ j ≠ i, Same k k' j) k := by
  obtain ⟨root, tf, us, hr, htf, hus, hs⟩ := h.live hlive
  have hidle := h.idle_space hr htf hus
  rw [add_assoc] at hidle
  rw [pgaccess]
  refine wp_bind (wp_get (wp_bind (wp_deref hr ?_)))
  refine wp_seq (wp_onMach (pgaccessLoop_swept va n 0 0 (hs.own' hidle).tree fun j _ hj =>
    hva j (by omega))) ?_
  rintro bitmasks k1 ⟨hm, e1⟩
  obtain ⟨hs1, -, m1⟩ := hs.marked hm.marked
  obtain ⟨h1, same1⟩ := h.respace e1 hr htf hus m1 hs1
  have hs1 : Space k1.mach.mem k1.mach.trampoline root (k1.proc i).sz tf us (k1.proc i).guard := by
    rw [e1.proc, m1.touches.trampoline]
    exact hs1
  refine wp_seq (h1.wp_copyout (i := i) ?_ ?_ ?_ hs1 accessAbits _ 4) ?_
  · rw [e1.proc, hr]
  · rw [e1.proc, htf]
  · rw [e1.proc, hus]
  rintro r k2 ⟨h2, same2, -⟩
  exact wp_pure ⟨h2, fun j hj => (same1 j hj).trans (same2 j hj)⟩

end Xv6
