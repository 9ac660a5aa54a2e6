/-
# Xv6.Mem.Bytewise — `copyin`, `copyout` and `copyinstr`, byte by byte.

The three loops work page by page; what they do is said of single addresses.  From an address on, the
bytes up to the first one in a page that the user may not access are transferred: all of them, and the
result is 0, or some, and the result is -1.  `copyinstr` moreover stops behind the first NUL.
-/
import Xv6.Mem.Copy
import Xv6.Mem.Grow

namespace Xv6

open Lib Lib.Store Lib.Prog List Nat

variable {dst fuel i len n va : Nat} {bs : List Byte}

variable {s s' : Mach} {m : Store} {root : Nat}

/-! ## The bytes that can be accessed -/

/-- How many of the `len` bytes from `va` on come before the first that cannot be accessed. -/
def reach (m : Store) (root : Nat) : Nat → Nat → Nat
  | _, 0 => 0
  | va, len + 1 => if AccessibleAt m root va then reach m root (va + 1) len + 1 else 0

/-- The `n` bytes of user memory from `va` on. -/
def userBytes (m : Store) (root va n : Nat) : List Byte :=
  (List.range n).map fun i => m (physAddr m root (va + i))

theorem reach_le (va len : Nat) : reach m root va len ≤ len := by
  induction len generalizing va with
  | zero => exact le_rfl
  | succ len ih =>
    rw [reach]
    split
    · exact succ_le_succ (ih (va + 1))
    · exact zero_le _

theorem reach_accessible (h : i < reach m root va len) : AccessibleAt m root (va + i) := by
  induction len generalizing va i with
  | zero => exact absurd h (not_lt_zero i)
  | succ len ih =>
    rw [reach] at h
    split at h
    · cases i with
      | zero => assumption
      | succ i =>
        have := ih (lt_of_succ_lt_succ h)
        rwa [add_assoc, add_comm 1 i] at this
    · exact absurd h (not_lt_zero i)

theorem reach_stops (h : reach m root va len < len) :
    ¬AccessibleAt m root (va + reach m root va len) := by
  induction len generalizing va with
  | zero => exact absurd h (not_lt_zero _)
  | succ len ih =>
    rw [reach] at h ⊢
    split at h
    · rename_i hacc
      rw [if_pos hacc]
      have := ih (lt_of_succ_lt_succ h)
      rwa [add_assoc, add_comm 1] at this
    · rename_i hacc
      rwa [if_neg hacc]

theorem reach_eq_len : reach m root va len = len ↔ ∀ i < len, AccessibleAt m root (va + i) := by
  constructor
  · intro h i hi
    exact reach_accessible (h.symm ▸ hi)
  · intro h
    by_contra hne
    have hlt := lt_of_le_of_ne (reach_le va len) hne
    exact reach_stops hlt (h _ hlt)

/-- `n` bytes that can be accessed, and then the rest. -/
theorem reach_add (hn : n ≤ len) (h : ∀ i < n, AccessibleAt m root (va + i)) :
    reach m root va len = n + reach m root (va + n) (len - n) := by
  induction n generalizing va len with
  | zero => rw [Nat.add_zero, Nat.sub_zero, Nat.zero_add]
  | succ n ih =>
    obtain ⟨len, rfl⟩ : ∃ l, len = l + 1 := ⟨len - 1, by omega⟩
    have hrest : ∀ i < n, AccessibleAt m root (va + 1 + i) := fun i hi => by
      rw [add_assoc, add_comm 1 i]
      exact h (i + 1) (by omega)
    have h₀ : AccessibleAt m root va := h 0 (succ_pos n)
    rw [reach, if_pos h₀, ih (le_of_succ_le_succ hn) hrest,
      Nat.add_sub_add_right, show va + 1 + n = va + (n + 1) by omega]
    omega

theorem userBytes_zero (m : Store) (root va : Nat) : userBytes m root va 0 = [] := rfl

theorem length_userBytes (m : Store) (root va n : Nat) : (userBytes m root va n).length = n := by
  rw [userBytes, length_map, length_range]

theorem userBytes_add (m : Store) (root va a b : Nat) :
    userBytes m root va (a + b) = userBytes m root va a ++ userBytes m root (va + a) b := by
  rw [userBytes, range_add, map_append, map_map, userBytes, userBytes]
  congr 2
  funext i
  exact congrArg (fun x => m (physAddr m root x)) (add_assoc _ _ _).symm

/-! ## One page -/

/-- The rest of the page of an address that can be accessed. -/
theorem AccessibleAt.page (h : AccessibleAt m root va) (hn : n ≤ PGSIZE - va % PGSIZE) :
    ∀ i < n, AccessibleAt m root (va + i) ∧
      physAddr m root (va + i) = physAddr m root va + i := by
  intro i hi
  have hpage : (va + i) / PGSIZE = va / PGSIZE := by
    unfold PGSIZE at *
    omega
  refine ⟨?_, ?_⟩
  · rw [← accessibleAt_page, hpage, accessibleAt_page]
    exact h
  · rw [physAddr, physAddr, hpage]
    unfold PGSIZE at *
    omega

theorem userBytes_page (h : AccessibleAt m root va) (hn : n ≤ PGSIZE - va % PGSIZE) :
    userBytes m root va n = (range n).map fun i => m (physAddr m root va + i) := by
  refine map_congr_left fun i hi => ?_
  rw [(h.page hn i (mem_range.mp hi)).2]

/-- An iteration of the loops: the rest of the page, as much of it as is wanted, and then the page
after it. -/
theorem AccessibleAt.reach_next {next : Nat} (h : AccessibleAt m root va)
    (hn : n = min (PGSIZE - va % PGSIZE) len) (hnext : next = (PGROUNDDOWN va + PGSIZE) % 2 ^ 64) :
    reach m root va len = n + reach m root next (len - n) ∧
    userBytes m root va (reach m root va len) =
      ((range n).map fun i => m (physAddr m root va + i)) ++
        userBytes m root next (reach m root next (len - n)) := by
  have hpage : n ≤ PGSIZE - va % PGSIZE := by omega
  have hreach : reach m root va len = n + reach m root (va + n) (len - n) :=
    reach_add (by omega) fun i hi => (h.page hpage i hi).1
  rcases lt_or_ge n len with hlt | hge
  · obtain rfl : next = va + n := by
      have := h.1
      unfold PGROUNDDOWN PGSIZE MAXVA at *
      omega
    refine ⟨hreach, ?_⟩
    rw [hreach, userBytes_add, userBytes_page h hpage]
  · -- nothing is left
    have hz : ∀ x, reach m root x (len - n) = 0 := fun x => by
      rw [show len - n = 0 by omega, reach]
    rw [hz] at hreach
    rw [hz]
    refine ⟨hreach, ?_⟩
    rw [hreach, add_zero, userBytes_page h hpage]
    exact (append_nil _).symm

/-! ## `copyin` -/

theorem copyinLoop_eq (s : Mach) (root : Nat) (hlen : len ≤ fuel) (dst : List Byte) :
    copyinLoop root fuel va len dst s =
      .ok ((if reach s.mem root va len = len then 0 else -1,
        dst ++ userBytes s.mem root va (reach s.mem root va len)), s) := by
  induction fuel generalizing va len dst with
  | zero =>
    obtain rfl : len = 0 := by omega
    rw [copyinLoop, reach, if_pos rfl, userBytes_zero, append_nil]
    rfl
  | succ fuel ih =>
    rw [copyinLoop]
    by_cases hl : len = 0
    · subst hl
      rw [if_pos rfl, reach, if_pos rfl, userBytes_zero, append_nil]
      rfl
    rw [if_neg hl]
    rw [bind_ok (walkaddr_page s root va), sub_PGROUNDDOWN]
    by_cases hva : AccessibleAt s.mem root va
    · have hmod := mod_lt va (show 0 < PGSIZE by decide)
      rw [if_pos hva, if_neg hva.2.2.2,
        bind_ok (show (get : Prog Mach Mach) s = .ok (s, s) from rfl), ih (by omega)]
      obtain ⟨hreach, hbytes⟩ := hva.reach_next (n := min (PGSIZE - va % PGSIZE) len) rfl rfl
      rw [hbytes, append_assoc]
      have hiff : reach s.mem root va len = len ↔ reach s.mem root
          ((PGROUNDDOWN va + PGSIZE) % 2 ^ 64) (len - min (PGSIZE - va % PGSIZE) len) =
          len - min (PGSIZE - va % PGSIZE) len := by omega
      rw [if_congr hiff.symm rfl rfl]
      rfl
    · obtain ⟨len, rfl⟩ : ∃ l, len = l + 1 := ⟨len - 1, by omega⟩
      rw [if_neg hva, if_pos rfl, reach, if_neg hva, if_neg (by omega), userBytes_zero, append_nil]
      rfl

/-- **`copyin`**, byte by byte. -/
theorem copyin_eq (s : Mach) (root va len : Nat) :
    copyin root va len s = .ok ((if reach s.mem root va len = len then 0 else -1,
      userBytes s.mem root va (reach s.mem root va len)), s) :=
  copyinLoop_eq s root le_rfl []

/-! ## `copyinstr` -/

/-- The bytes up to and with the first NUL, and whether there is one. -/
def upToNul : List Byte → List Byte × Bool
  | [] => ([], false)
  | b :: bs => if b = 0 then ([0], true) else (b :: (upToNul bs).1, (upToNul bs).2)

theorem upToNul_append (bs cs : List Byte) :
    upToNul (bs ++ cs) = if (upToNul bs).2 then upToNul bs else
      (bs ++ (upToNul cs).1, (upToNul cs).2) := by
  induction bs with
  | nil => rfl
  | cons b bs ih =>
    rw [cons_append, upToNul, upToNul]
    by_cases hb : b = 0
    · rw [if_pos hb, if_pos hb, if_pos rfl]
    · rw [if_neg hb, if_neg hb, ih]
      split
      · rfl
      · rfl

/-- Without a NUL these are all the bytes. -/
theorem upToNul_of_not (h : (upToNul bs).2 = false) : (upToNul bs).1 = bs := by
  induction bs with
  | nil => rfl
  | cons b bs ih =>
    rw [upToNul] at h ⊢
    by_cases hb : b = 0
    · rw [if_pos hb] at h
      cases h
    · rw [if_neg hb] at h ⊢
      rw [ih h]

theorem upToNul_iff : (upToNul bs).2 = true ↔ (0 : Byte) ∈ bs := by
  induction bs with
  | nil => simp [upToNul]
  | cons b bs ih =>
    rw [upToNul, mem_cons]
    by_cases hb : b = 0
    · rw [if_pos hb]
      exact ⟨fun _ => .inl hb.symm, fun _ => rfl⟩
    · rw [if_neg hb, ih, or_iff_right (Ne.symm hb)]

/-- With a NUL, these are the bytes before it and the NUL. -/
theorem upToNul_of_mem (h : (upToNul bs).2 = true) :
    ∃ i < bs.length, (upToNul bs).1 = bs.take (i + 1) ∧ bs[i]? = some 0 ∧ ∀ j < i, bs[j]? ≠ some 0 := by
  induction bs with
  | nil => cases h
  | cons b bs ih =>
    rw [upToNul] at h ⊢
    by_cases hb : b = 0
    · rw [if_pos hb]
      refine ⟨0, succ_pos _, ?_, ?_, fun j hj => absurd hj (not_lt_zero j)⟩
      · rw [take_succ_cons, take_zero, hb]
      · rw [getElem?_cons_zero, hb]
    · rw [if_neg hb] at h ⊢
      obtain ⟨i, hlt, htake, hi, hbefore⟩ := ih h
      refine ⟨i + 1, succ_lt_succ hlt, by rw [htake, take_succ_cons],
        by rw [getElem?_cons_succ, hi], fun j hj => ?_⟩
      cases j with
      | zero =>
        rw [getElem?_cons_zero]
        exact fun heq => hb (Option.some.inj heq)
      | succ j =>
        rw [getElem?_cons_succ]
        exact hbefore j (by omega)

theorem scanstr_eq (m : Store) (n p : Nat) :
    scanstr m n p = upToNul ((range n).map fun i => m (p + i)) := by
  induction n generalizing p with
  | zero => rfl
  | succ n ih =>
    have hshift : ((range n).map Nat.succ).map (fun i => m (p + i)) =
        (range n).map fun i => m (p + 1 + i) := by
      rw [map_map]
      refine map_congr_left fun i _ => ?_
      exact congrArg m (by rw [add_assoc, add_comm 1])
    rw [scanstr, range_succ_eq_map, map_cons, hshift, upToNul, ih]
    rfl

theorem length_upToNul_le (bs : List Byte) : (upToNul bs).1.length ≤ bs.length := by
  induction bs with
  | nil => exact le_rfl
  | cons b bs ih =>
    rw [upToNul]
    split
    · exact succ_le_succ (zero_le _)
    · exact succ_le_succ ih

/-- The result of `copyinstr` fits. -/
theorem length_copyinstr_le (m : Store) (root va max : Nat) :
    (upToNul (userBytes m root va (reach m root va max))).1.length ≤ max :=
  ((length_upToNul_le _).trans (length_userBytes ..).le).trans (reach_le va max)

theorem copyinstrLoop_eq (s : Mach) (root : Nat) {max : Nat} (hmax : max ≤ fuel) (dst : List Byte) :
    copyinstrLoop root fuel va max dst s =
      .ok ((if (upToNul (userBytes s.mem root va (reach s.mem root va max))).2 then 0 else -1,
        dst ++ (upToNul (userBytes s.mem root va (reach s.mem root va max))).1), s) := by
  induction fuel generalizing va max dst with
  | zero =>
    obtain rfl : max = 0 := by omega
    rw [copyinstrLoop, reach, userBytes_zero, upToNul, append_nil]
    rfl
  | succ fuel ih =>
    rw [copyinstrLoop]
    by_cases hl : max = 0
    · subst hl
      rw [if_pos rfl, reach, userBytes_zero, upToNul, append_nil]
      rfl
    rw [if_neg hl]
    rw [bind_ok (walkaddr_page s root va), sub_PGROUNDDOWN]
    by_cases hva : AccessibleAt s.mem root va
    · have hmod := mod_lt va (show 0 < PGSIZE by decide)
      rw [if_pos hva, if_neg hva.2.2.2,
        bind_ok (show (get : Prog Mach Mach) s = .ok (s, s) from rfl), scanstr_eq]
      obtain ⟨-, hbytes⟩ := hva.reach_next (n := min (PGSIZE - va % PGSIZE) max) rfl rfl
      rw [hbytes, upToNul_append]
      rw [physAddr]
      split
      · rfl
      · rename_i hnul
        rw [upToNul_of_not (Bool.not_eq_true _ ▸ hnul), ih (by omega), append_assoc]
    · obtain ⟨max, rfl⟩ : ∃ l, max = l + 1 := ⟨max - 1, by omega⟩
      rw [if_neg hva, if_pos rfl, reach, if_neg hva, userBytes_zero, upToNul, append_nil]
      rfl

/-- **`copyinstr`**, byte by byte. -/
theorem copyinstr_eq (s : Mach) (root va max : Nat) :
    copyinstr root va max s =
      .ok ((if (upToNul (userBytes s.mem root va (reach s.mem root va max))).2 then 0 else -1,
        (upToNul (userBytes s.mem root va (reach s.mem root va max))).1), s) :=
  copyinstrLoop_eq s root le_rfl []

/-! ## `copyout` -/

/-- Addresses from `dst` on that are all accessible are reached. -/
theorem reached_of_accessible (hle : dst ≤ va)
    (h : ∀ va', dst ≤ va' → va' ≤ va → AccessibleAt m root va') : Reached m root dst va := by
  by_contra hno
  obtain ⟨va', h1, h2, hacc⟩ := exists_inaccessible hle hno
  exact hacc (h va' h1 h2)

/-- The addresses reached are the first ones. -/
theorem reached_iff (hi : i < len) : Reached m root dst (dst + i) ↔ i < reach m root dst len := by
  constructor
  · intro h
    by_contra hge
    have hlt : reach m root dst len < len := by omega
    refine reach_stops hlt ?_
    have hpage := h.2 ((dst + reach m root dst len) / PGSIZE)
      (Nat.div_le_div_right (Nat.le_add_right _ _)) (Nat.div_le_div_right (by omega))
    exact accessibleAt_page.mp hpage
  · intro h
    refine reached_of_accessible (le_add_right _ _) fun va' h1 h2 => ?_
    have hlt : va' - dst < reach m root dst len := by omega
    have := reach_accessible hlt
    rwa [Nat.add_sub_cancel' h1] at this

/-- A copy to user memory leaves the table alone. -/
theorem Apart.copied_entry (hap : Apart s.mem root) {src : Nat → Byte}
    (hc : Copied root dst src len c s s') (w : Nat) :
    ptEntry s'.mem root w = ptEntry s.mem root w := by
  refine ptEntry_congr (fun p hp i => load_congr fun x h1 h2 => hc.miss x fun va _ hre heq =>
    hap.data va hre.accessible ?_) w
  rw [← PGROUNDDOWN_physAddr, heq, PGROUNDDOWN_of_mem (hap.tree.dvd hp) (by omega)
    (by unfold PGSIZE; omega)]
  exact hp

/-- The bytes written by `copyout`, and what `copyin` then reads. -/
theorem Copied.readBack (hap : Apart s.mem root) {src : Nat → Byte}
    (hc : Copied root dst src len c s s') (hall : ∀ i < len, AccessibleAt s.mem root (dst + i)) :
    copyin root dst len s' = .ok ((0, (range len).map src), s') := by
  have hentry := hap.copied_entry hc
  have hat : ∀ a, AccessibleAt s'.mem root a ↔ AccessibleAt s.mem root a := fun a => by
    rw [AccessibleAt, AccessibleAt, hentry]
  have hreach' : reach s'.mem root dst len = len :=
    reach_eq_len.mpr fun i hi => (hat _).mpr (hall i hi)
  have hreach : reach s.mem root dst len = len := reach_eq_len.mpr hall
  rw [copyin_eq, hreach', if_pos rfl]
  have hbytes : userBytes s'.mem root dst len = (range len).map src := by
    refine map_congr_left fun i hi => ?_
    have hi := mem_range.mp hi
    have hhit := hc.hit (dst + i) (by omega) ((reached_iff hi).mpr (hreach.symm ▸ hi))
    rw [Nat.add_sub_cancel_left] at hhit
    rw [physAddr, hentry]
    exact hhit
  rw [hbytes]

/-- Iterations beyond `len` change nothing: the loop has ended. -/
theorem copyoutLoop_fuel (root : Nat) (src : Nat → Byte) (h : len ≤ fuel)
    (h' : len ≤ fuel') :
    copyoutLoop root src fuel dst off len = copyoutLoop root src fuel' dst off len := by
  induction fuel generalizing fuel' dst off len with
  | zero =>
    obtain rfl : len = 0 := by omega
    cases fuel' with
    | zero => rfl
    | succ fuel' => rw [copyoutLoop, copyoutLoop, if_pos rfl]
  | succ fuel ih =>
    by_cases hl : len = 0
    · subst hl
      cases fuel' with
      | zero => rw [copyoutLoop, copyoutLoop, if_pos rfl]
      | succ fuel' => rw [copyoutLoop, copyoutLoop, if_pos rfl, if_pos rfl]
    obtain ⟨fuel', rfl⟩ : ∃ f, fuel' = f + 1 := ⟨fuel' - 1, by omega⟩
    have hoff : dst - PGROUNDDOWN dst < PGSIZE := by
      rw [sub_PGROUNDDOWN]
      exact mod_lt _ (by decide)
    rw [copyoutLoop, copyoutLoop, if_neg hl, if_neg hl]
    refine bind_congr fun pa0 => ?_
    split
    · rfl
    · refine bind_congr fun _ => ?_
      exact ih (by omega) (by omega)

/-! ## The specification -/

/-- The page of `va` is below `MAXVA`, valid, and for the user. -/
def UserAt (m : Store) (root va : Nat) : Prop :=
  va < MAXVA ∧ ptEntry m root (va / PGSIZE) &&& PTE_V ≠ 0 ∧ ptEntry m root (va / PGSIZE) &&& PTE_U ≠ 0

/-- `n` of the `len` bytes from `va` on come before the first page that is not for the user. -/
structure UpTo (m : Store) (root va len n : Nat) : Prop where
  le : n ≤ len
  user : ∀ i < n, UserAt m root (va + i)
  stops : n < len → ¬UserAt m root (va + n)

theorem userAt_iff (hram : ∀ va, UserAt m root va → PTE2PA (ptEntry m root (va / PGSIZE)) ≠ 0)
    (va : Nat) : AccessibleAt m root va ↔ UserAt m root va :=
  ⟨fun h => ⟨h.1, h.2.1, h.2.2.1⟩, fun h => ⟨h.1, h.2.1, h.2.2, hram va h⟩⟩

theorem upTo_reach (hram : ∀ va, UserAt m root va → PTE2PA (ptEntry m root (va / PGSIZE)) ≠ 0)
    (va len : Nat) : UpTo m root va len (reach m root va len) where
  le := reach_le va len
  user _ hi := (userAt_iff hram _).mp (reach_accessible hi)
  stops h hu := reach_stops h ((userAt_iff hram _).mpr hu)

theorem getElem?_userBytes (h : i < n) :
    (userBytes m root va n)[i]? = some (m (physAddr m root (va + i))) := by
  rw [userBytes, getElem?_map, getElem?_range h]
  rfl

theorem take_userBytes (h : k ≤ n) :
    (userBytes m root va n).take k = userBytes m root va k := by
  rw [userBytes, ← map_take, take_range, min_eq_left h, userBytes]

/-- What `copyinstr` finds, in terms of addresses. -/
theorem upToNul_userBytes (m : Store) (root va max : Nat) :
    ((upToNul (userBytes m root va (reach m root va max))).2 = true ↔
      ∃ i < max, (∀ j ≤ i, AccessibleAt m root (va + j)) ∧ m (physAddr m root (va + i)) = 0) ∧
    ((upToNul (userBytes m root va (reach m root va max))).2 = true → ∃ i < max,
      (upToNul (userBytes m root va (reach m root va max))).1 = userBytes m root va (i + 1) ∧
      m (physAddr m root (va + i)) = 0 ∧ ∀ j < i, m (physAddr m root (va + j)) ≠ 0) := by
  have hle : reach m root va max ≤ max := reach_le va max
  have hlen : (userBytes m root va (reach m root va max)).length = reach m root va max := by
    rw [userBytes, length_map, length_range]
  refine ⟨⟨fun h => ?_, ?_⟩, fun h => ?_⟩
  · obtain ⟨i, hi, -, h0, -⟩ := upToNul_of_mem h
    rw [hlen] at hi
    rw [getElem?_userBytes hi] at h0
    exact ⟨i, by omega, fun j hj => reach_accessible (lt_of_le_of_lt hj hi), Option.some.inj h0⟩
  · rintro ⟨i, hi, hacc, h0⟩
    have hlt : i < reach m root va max := by
      by_contra hge
      have hstop : reach m root va max < max := by omega
      exact reach_stops hstop (hacc _ (by omega))
    refine upToNul_iff.mpr (mem_of_getElem? (i := i) ?_)
    rw [getElem?_userBytes hlt, h0]
  · obtain ⟨i, hi, htake, h0, hbefore⟩ := upToNul_of_mem h
    rw [hlen] at hi
    rw [getElem?_userBytes hi] at h0
    refine ⟨i, by omega, htake.trans (take_userBytes hi), Option.some.inj h0, fun j hj hz => ?_⟩
    refine hbefore j hj ?_
    rw [getElem?_userBytes (by omega), hz]

/-- **`copyin`, `copyout` and `copyinstr` are what they should be, byte by byte**, for any address and
length, on a table whose user pages are different pages of memory and no pages of the table.  The last
part says that the loops have ended by themselves: more iterations change nothing. -/
theorem copy_bytewise (h : Apart s.mem root)
    (hram : ∀ va, UserAt s.mem root va → PTE2PA (ptEntry s.mem root (va / PGSIZE)) ≠ 0)
    (va len : Nat) :
    (∃ r n, copyin root va len s = .ok ((r, userBytes s.mem root va n), s) ∧
      (r = 0 ∨ r = -1) ∧ (r = 0 ↔ ∀ i < len, UserAt s.mem root (va + i)) ∧
      UpTo s.mem root va len n) ∧
    (∀ src, ∃ r s' n, copyout root va src len s = .ok (r, s') ∧
      (r = 0 ∨ r = -1) ∧ (r = 0 ↔ ∀ i < len, UserAt s.mem root (va + i)) ∧
      UpTo s.mem root va len n ∧ s' = { s with mem := s'.mem } ∧
      (∀ i < n, s'.mem (physAddr s.mem root (va + i)) = src i) ∧
      (∀ x, (∀ i < n, physAddr s.mem root (va + i) ≠ x) → s'.mem x = s.mem x) ∧
      (r = 0 → copyin root va len s' = .ok ((0, (List.range len).map src), s'))) ∧
    (∃ r dst, copyinstr root va len s = .ok ((r, dst), s) ∧ (r = 0 ∨ r = -1) ∧
      (r = 0 ↔ ∃ i < len, (∀ j ≤ i, UserAt s.mem root (va + j)) ∧
        s.mem (physAddr s.mem root (va + i)) = 0) ∧
      (r = 0 → ∃ i < len, dst = userBytes s.mem root va (i + 1) ∧
        s.mem (physAddr s.mem root (va + i)) = 0 ∧
        ∀ j < i, s.mem (physAddr s.mem root (va + j)) ≠ 0) ∧
      dst.length ≤ len) ∧
    ∀ fuel, len ≤ fuel → copyinLoop root fuel va len [] s = copyin root va len s ∧
      (∀ src, copyoutLoop root src fuel va 0 len s = copyout root va src len s) ∧
      copyinstrLoop root fuel va len [] s = copyinstr root va len s := by
  have hat := userAt_iff hram
  have hall : reach s.mem root va len = len ↔ ∀ i < len, UserAt s.mem root (va + i) := by
    rw [reach_eq_len]
    simp only [hat]
  have hupTo := upTo_reach hram va len
  refine ⟨?_, fun src => ?_, ?_, fun fuel hf => ⟨?_, fun src => ?_, ?_⟩⟩
  · refine ⟨_, _, copyin_eq s root va len, ?_, ?_, hupTo⟩
    · split
      · exact .inl rfl
      · exact .inr rfl
    · rw [← hall]
      split <;> simp_all
  · obtain ⟨r, s', hrun, hc⟩ : wp (copyout root va src len) (fun r s' =>
      Copied root va src len r s s') s := h.wp_copyout
    have hback : (∀ i < len, UserAt s.mem root (va + i)) →
        ∀ a, va ≤ a → a < va + len → AccessibleAt s.mem root a := fun hu a h1 h2 => by
      have := (hat _).mpr (hu (a - va) (by omega))
      rwa [Nat.add_sub_cancel' h1] at this
    have hret : (r = 0 ∨ r = -1) ∧ (r = 0 ↔ ∀ i < len, UserAt s.mem root (va + i)) := by
      rcases hc.ret with ⟨hr, hacc⟩ | ⟨hr, a, h1, h2, hno⟩
      · refine ⟨.inl hr, fun _ i hi => (hat _).mp (hacc _ (by omega) (by omega)), fun _ => hr⟩
      · refine ⟨.inr hr, fun h0 => ?_, fun hu => absurd (hback hu a h1 h2) hno⟩
        rw [hr] at h0
        cases h0
    refine ⟨r, s', _, hrun, hret.1, hret.2, hupTo, hc.state, fun i hi => ?_, fun x hx => ?_,
      fun h0 => ?_⟩
    · have hlt : i < len := lt_of_lt_of_le hi (reach_le va len)
      have := hc.hit (va + i) (by omega) ((reached_iff hlt).mpr hi)
      rwa [Nat.add_sub_cancel_left] at this
    · refine hc.miss x fun a ha hre heq => ?_
      obtain ⟨i, rfl⟩ := Nat.exists_eq_add_of_le hre.1
      exact hx i ((reached_iff (by omega)).mp hre) heq
    · exact hc.readBack h fun i hi => (hat _).mpr (hret.2.mp h0 i hi)
  · obtain ⟨hiff, hstr⟩ := upToNul_userBytes s.mem root va len
    simp only [hat] at hiff
    refine ⟨_, _, copyinstr_eq s root va len, ?_, ?_, fun h0 => ?_, length_copyinstr_le ..⟩
    · split
      · exact .inl rfl
      · exact .inr rfl
    · rw [← hiff]
      split <;> simp_all
    · refine hstr ?_
      by_contra hno
      rw [if_neg hno] at h0
      cases h0
  · rw [copyinLoop_eq s root hf, copyin_eq, nil_append]
  · rw [copyoutLoop_fuel root src hf le_rfl, copyout]
  · rw [copyinstrLoop_eq s root hf, copyinstr_eq, nil_append]

/-- A table with two user pages, made by `uvmalloc`. -/
theorem exists_twoPages : ∃ s : Mach, Apart s.mem KERNBASE ∧
    (∀ va, UserAt s.mem KERNBASE va → PTE2PA (ptEntry s.mem KERNBASE (va / PGSIZE)) ≠ 0) ∧
    ∀ va < 2 * PGSIZE, UserAt s.mem KERNBASE va := by
  obtain ⟨s, hrun⟩ := uvmalloc_fourFree
  obtain ⟨r, s1, hrun1, hpost⟩ := userMem_fourFree.wp_uvmalloc (zero_le (PGSIZE + 1))
    (by decide) (show IsFlags PTE_W by decide)
  cases hrun.symm.trans hrun1
  rcases hpost with ⟨-, hm, hg⟩ | ⟨hr, -⟩
  swap
  · exact absurd hr (by decide)
  have htwo : npages (PGSIZE + 1) = 2 := by decide
  rw [npages_zero, htwo] at hg
  have hmapped : ∀ va, UserAt s.mem KERNBASE va → va / PGSIZE < 2 := fun va hva => by
    by_contra hge
    have hlt : va / PGSIZE < MAXVA / PGSIZE := by
      have := hva.1
      unfold MAXVA PGSIZE at *
      omega
    have hsome : ptMap s KERNBASE (va / PGSIZE) ≠ none := by
      rw [ptMap_eq hlt, ptMapOf, if_pos hva.2.1]
      exact Option.some_ne_none _
    rw [hg.map, PageMap.insertRange, if_neg (by omega), ptMap_eq hlt] at hsome
    refine hsome (ptMapOf_invalid ?_)
    have hz : ptEntry fourFree.mem KERNBASE (va / PGSIZE) = 0 := ptEntry_blank read_emptyTable _
    rw [hz]
    exact BitVec.zero_and
  have hfree : ∀ va, UserAt s.mem KERNBASE va → _ := fun va hva =>
    hg.free (va / PGSIZE) (zero_le _) (hmapped va hva)
  have huser : ∀ va, AccessibleAt s.mem KERNBASE va → UserAt s.mem KERNBASE va :=
    fun va hva => ⟨hva.1, hva.2.1, hva.2.2.1⟩
  refine ⟨s, ⟨hm.own.tree, fun va hva => (hfree va (huser va hva)).2.2, fun va va' hva hva' heq => ?_⟩,
    fun va hva hz => ?_, fun va hva => ?_⟩
  · exact hg.inj _ _ (zero_le _) (hmapped va (huser va hva)) (zero_le _)
      (hmapped va' (huser va' hva')) heq
  · have hin := (hfree va hva).1
    rw [pageOf, hz] at hin
    exact absurd hin (by decide)
  · have hw : va / PGSIZE < 2 := (div_lt_iff_lt_mul (by decide)).mpr hva
    have hmap := hg.mapped (zero_le _) hw
    have hlt : va < MAXVA := hva.trans (by decide)
    have hv : va / PGSIZE < MAXVA / PGSIZE := lt_of_lt_of_le hw (by decide)
    rw [ptMap_eq hv] at hmap
    obtain ⟨hV, -, hflags⟩ := ptMapOf_eq_some.mp hmap
    refine ⟨hlt, hV, ?_⟩
    have hbit : (PTE_FLAGS (ptEntry s.mem KERNBASE (va / PGSIZE))).getLsbD 4 = true := by
      rw [hflags]
      exact (by decide : (PTE_R ||| PTE_U ||| PTE_W ||| PTE_V).getLsbD 4 = true)
    rw [getLsbD_PTE_FLAGS, Bool.and_eq_true] at hbit
    rw [Ne, and_U_eq_zero, Bool.not_eq_false]
    exact hbit.1

/-- Four bytes across a page boundary, out and in again. -/
theorem copy_bytewise_twoPages : ∃ s s' : Mach,
    copyout KERNBASE 4094 (fun i => BitVec.ofNat 8 i) 4 s = .ok (0, s') ∧
    copyin KERNBASE 4094 4 s' = .ok ((0, [0, 1, 2, 3]), s') := by
  obtain ⟨s, hap, hram, hall⟩ := exists_twoPages
  obtain ⟨-, hout, -⟩ := copy_bytewise hap hram 4094 4
  obtain ⟨r, s', n, hrun, -, hr, -, -, -, -, hback⟩ := hout fun i => BitVec.ofNat 8 i
  have h0 : r = 0 := hr.mpr fun i hi => hall _ (by unfold PGSIZE; omega)
  subst h0
  exact ⟨s, s', hrun, hback rfl⟩

end Xv6
