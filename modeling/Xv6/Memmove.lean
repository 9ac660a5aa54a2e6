/-
# Xv6.Memmove — the two `memmove`s as loops (`kernel/string.c`, `user/ulib.c`).

The rest of the kernel's model copies a region in one go (`Xv6.memmove`), as if through a temporary.
Here are the loops, which overwrite part of their own input when the regions overlap.  A pointer is
a 64-bit word and wraps; a store is indexed by the pointer's value.
-/
import Xv6.Mem.Kalloc

namespace Xv6.Memmove

open Lib Lib.Store BitVec

/-! ## The loops -/

/-- `while(n-- > 0) *d++ = *s++;` -/
def copyUp : Nat → BitVec 64 → BitVec 64 → Store → Store
  | 0, _, _, m => m
  | n + 1, d, s, m => copyUp n (d + 1) (s + 1) (fill m d.toNat 1 fun _ => m s.toNat)

/-- `while(n-- > 0) *--d = *--s;` -/
def copyDown : Nat → BitVec 64 → BitVec 64 → Store → Store
  | 0, _, _, m => m
  | n + 1, d, s, m =>
    copyDown n (d - 1) (s - 1) (fill m (d - 1).toNat 1 fun _ => m (s - 1).toNat)

/-- The kernel's `memmove`: what it returns, and the memory after it. -/
def memmove (dst src : BitVec 64) (n : BitVec 32) (m : Store) : BitVec 64 × Store :=
  if n = 0 then
    (dst, m)
  else if src < dst ∧ src + n.setWidth 64 > dst then
    (dst, copyDown n.toNat (dst + n.setWidth 64) (src + n.setWidth 64) m)
  else
    (dst, copyUp n.toNat dst src m)

/-- The user library's `memmove`, whose `n` is an `int`. -/
def ulibMemmove (vdst vsrc : BitVec 64) (n : BitVec 32) (m : Store) : BitVec 64 × Store :=
  if vsrc > vdst then
    (vdst, copyUp n.toInt.toNat vdst vsrc m)
  else
    (vdst, copyDown n.toInt.toNat (vdst + n.signExtend 64) (vsrc + n.signExtend 64) m)

/-- `m'` is `m` with the `n` bytes at `dst` replaced by those that `m` has at `src`. -/
structure Moved (m m' : Store) (dst src n : Nat) : Prop where
  copied : ∀ i < n, m' (dst + i) = m (src + i)
  rest : ∀ x, x < dst ∨ dst + n ≤ x → m' x = m x

/-! ## Each direction copies what it has not yet overwritten -/

variable {m : Store} {d s : BitVec 64} {n : Nat}

theorem toNat_add_ofNat (h : p.toNat + n < 2 ^ 64) :
    (p + BitVec.ofNat 64 n).toNat = p.toNat + n := by
  rw [toNat_add, toNat_ofNat]
  omega

theorem moved_fill (m : Store) (a b n : Nat) : Moved m (fill m a n fun j => m (b + j)) a b n :=
  ⟨fun i hi => by rw [fill_of_mem _ _ (by omega) (by omega), Nat.add_sub_cancel_left],
    fun _ hx => fill_of_not_mem _ _ hx⟩

/-- A store is given by what was moved into it. -/
theorem Moved.eq_fill (h : Moved m m' a b n) :
    m' = fill m a n fun j => m (b + j) := by
  funext x
  by_cases hx : a ≤ x ∧ x < a + n
  · obtain ⟨i, rfl⟩ := Nat.exists_eq_add_of_le hx.1
    rw [h.copied i (by omega), (moved_fill m a b n).copied i (by omega)]
  · rw [h.rest x (by omega), (moved_fill m a b n).rest x (by omega)]

/-- Going up, the destination stays below the source bytes still to be read. -/
theorem moved_copyUp (hd : d.toNat + n ≤ 2 ^ 64) (hs : s.toNat + n ≤ 2 ^ 64)
    (h : d.toNat ≤ s.toNat ∨ s.toNat + n ≤ d.toNat) :
    Moved m (copyUp n d s m) d.toNat s.toNat n := by
  induction n generalizing d s m with
  | zero => exact ⟨fun i hi => absurd hi i.not_lt_zero, fun _ _ => rfl⟩
  | succ n ih =>
    rw [copyUp]
    rcases Nat.eq_zero_or_pos n with rfl | hn
    · -- After the last byte the pointers may have wrapped; nothing is read through them.
      exact ⟨fun i hi => by
        obtain rfl : i = 0 := by omega
        exact fill_of_mem _ _ le_rfl (by omega), fun x hx => fill_of_not_mem _ _ hx⟩
    · have hd1 : (d + 1).toNat = d.toNat + 1 := toNat_add_ofNat (n := 1) (by omega)
      have hs1 : (s + 1).toNat = s.toNat + 1 := toNat_add_ofNat (n := 1) (by omega)
      have hmoved := ih (m := fill m d.toNat 1 fun _ => m s.toNat) (d := d + 1) (s := s + 1)
        (by omega) (by omega) (by omega)
      rw [hd1, hs1] at hmoved
      constructor
      · intro i hi
        rcases i with _ | i
        · rw [hmoved.rest _ (by omega), fill_of_mem _ _ (by omega) (by omega)]
          rfl
        · have hbyte := hmoved.copied i (by omega)
          rw [fill_of_not_mem _ _ (by omega)] at hbyte
          rw [show d.toNat + (i + 1) = d.toNat + 1 + i by omega, hbyte]
          exact congrArg m (by omega)
      · intro x hx
        rw [hmoved.rest x (by omega), fill_of_not_mem _ _ (by omega)]

/-- Going down from the ends, the destination stays above the source bytes still to be read. -/
theorem moved_copyDown (hd : d.toNat + n ≤ 2 ^ 64) (hs : s.toNat + n ≤ 2 ^ 64)
    (h : s.toNat ≤ d.toNat ∨ d.toNat + n ≤ s.toNat) :
    Moved m (copyDown n (d + BitVec.ofNat 64 n) (s + BitVec.ofNat 64 n) m) d.toNat s.toNat n := by
  induction n generalizing m with
  | zero => exact ⟨fun i hi => absurd hi i.not_lt_zero, fun _ _ => rfl⟩
  | succ n ih =>
    have hstep (p : BitVec 64) : p + BitVec.ofNat 64 (n + 1) - 1 = p + BitVec.ofNat 64 n := by
      rw [ofNat_add, ← add_assoc]
      exact add_sub_cancel _ 1
    rw [copyDown, hstep, hstep, toNat_add_ofNat (by omega), toNat_add_ofNat (by omega)]
    have hmoved := ih (m := fill m (d.toNat + n) 1 fun _ => m (s.toNat + n))
      (by omega) (by omega) (by omega)
    constructor
    · intro i hi
      by_cases hlast : i = n
      · subst hlast
        rw [hmoved.rest _ (by omega), fill_of_mem _ _ (by omega) (by omega)]
      · rw [hmoved.copied i (by omega), fill_of_not_mem _ _ (by omega)]
    · intro x hx
      rw [hmoved.rest x (by omega), fill_of_not_mem _ _ (by omega)]

/-! ## Both choose the direction right -/

variable {dst src : BitVec 64} {n : BitVec 32}

theorem moved_memmove (m : Store) (hd : dst.toNat + n.toNat ≤ 2 ^ 64)
    (hs : src.toNat + n.toNat ≤ 2 ^ 64) :
    Moved m (memmove dst src n m).2 dst.toNat src.toNat n.toNat := by
  rw [memmove]
  split
  · next h0 => exact h0 ▸ ⟨fun i hi => absurd hi i.not_lt_zero, fun _ _ => rfl⟩
  · split
    · next hdown =>
      rw [← ofNat_toNat]
      exact moved_copyDown hd hs (.inl (lt_def.mp hdown.1).le)
    · next h0 hup =>
      refine moved_copyUp hd hs ?_
      rw [← ofNat_toNat, gt_iff_lt, lt_def, lt_def] at hup
      -- A source below the destination ends before the top of the address space.
      by_contra hover
      have hpos : n.toNat ≠ 0 := fun hzero => h0 (eq_of_toNat_eq hzero)
      rw [toNat_add_ofNat (by omega)] at hup
      omega

theorem moved_ulibMemmove (m : Store) (hn : 0 ≤ n.toInt) (hd : dst.toNat + n.toNat ≤ 2 ^ 64)
    (hs : src.toNat + n.toNat ≤ 2 ^ 64) :
    Moved m (ulibMemmove dst src n m).2 dst.toNat src.toNat n.toNat := by
  have hmsb : n.msb = false := by
    rw [msb_eq_toInt]
    exact decide_eq_false (not_lt.mpr hn)
  have hcount : n.toInt.toNat = n.toNat := by
    rw [toInt_eq_toNat_of_msb hmsb, Int.toNat_natCast]
  rw [ulibMemmove, hcount, signExtend_eq_setWidth_of_msb_false hmsb, ← ofNat_toNat]
  split
  · next hup => exact moved_copyUp hd hs (.inl (lt_def.mp hup).le)
  · next hdown => exact moved_copyDown hd hs (.inl (not_lt.mp fun h => hdown (lt_def.mpr h)))

/-- **The one-go copy of the kernel's model is what the loop does.** -/
theorem memmove_eq (s : Mach) (hd : dst.toNat + n.toNat ≤ 2 ^ 64)
    (hs : src.toNat + n.toNat ≤ 2 ^ 64) :
    Xv6.memmove dst.toNat src.toNat n.toNat s =
      .ok ((), { s with mem := (memmove dst src n s.mem).2 }) := by
  rw [(moved_memmove s.mem hd hs).eq_fill]
  rfl

/-- **`memmove` copies as if through a temporary.** The kernel's and the user library's loops leave
at the destination what was at the source, change nothing else and so agree. -/
theorem memmove_as_through_temporary (m : Store) (dst src : BitVec 64) (n : BitVec 32)
    (hd : dst.toNat + n.toNat ≤ 2 ^ 64) (hs : src.toNat + n.toNat ≤ 2 ^ 64) :
    Moved m (memmove dst src n m).2 dst.toNat src.toNat n.toNat ∧
      (0 ≤ n.toInt →
        Moved m (ulibMemmove dst src n m).2 dst.toNat src.toNat n.toNat ∧
          ulibMemmove dst src n m = memmove dst src n m) := by
  have hkernel := moved_memmove m hd hs
  refine ⟨hkernel, fun hn => ?_⟩
  have huser := moved_ulibMemmove m hn hd hs
  refine ⟨huser, Prod.ext ?_ (huser.eq_fill.trans hkernel.eq_fill.symm)⟩
  rw [ulibMemmove, memmove, apply_ite Prod.fst, apply_ite Prod.fst, apply_ite Prod.fst]
  simp only [ite_self]

/-- Moving four bytes up by one: the ranges overlap. -/
theorem memmove_as_through_temporary_overlap :
    let m : Store := fun x => BitVec.ofNat 8 x
    Moved m (memmove 17 16 4 m).2 17 16 4 ∧ ulibMemmove 17 16 4 m = memmove 17 16 4 m :=
  have h := memmove_as_through_temporary (fun x => BitVec.ofNat 8 x) 17 16 4 (by decide) (by decide)
  ⟨h.1, (h.2 (by decide)).2⟩

end Xv6.Memmove
