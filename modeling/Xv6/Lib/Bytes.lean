/-
# Xv6.Lib.Bytes — little-endian words in byte-addressed stores.

A store is a function from addresses to bytes.  A `k`-byte word at address `a` is the little-endian
number in the bytes `a, …, a + k - 1`.  Both directions are stated one bit at a time, so the round
trip and the frame rule are index arithmetic and nothing has to be said about carries.

The module names no program: a physical memory and a disk block are both instances.
-/
import Mathlib.Data.BitVec

namespace Xv6.Lib

/-- One byte. -/
abbrev Byte := BitVec 8

/-- A byte-addressed store. -/
abbrev Store := Nat → Byte

namespace Store

/-- The `k`-byte little-endian word at address `a`: the byte at `a` is the least significant. -/
def load : (k : Nat) → (m : Store) → (a : Nat) → BitVec (8 * k)
  | 0, _, _ => 0
  | k + 1, m, a => (load k m (a + 1) ++ m a : BitVec (8 * k + 8))

/-- Write the `k`-byte little-endian word `v` at address `a`. -/
def store (k : Nat) (m : Store) (a : Nat) (v : BitVec (8 * k)) : Store := fun x =>
  if a ≤ x ∧ x < a + k then v.extractLsb' (8 * (x - a)) 8 else m x

/-- Write `n` bytes read off `f`, starting at address `a`. -/
def fill (m : Store) (a n : Nat) (f : Nat → Byte) : Store := fun x =>
  if a ≤ x ∧ x < a + n then f (x - a) else m x

/-- The `n` bytes from address `a` on. -/
def bytes (m : Store) (a n : Nat) : List Byte := (List.range n).map fun j => m (a + j)

variable {a k n x : Nat}

/-! ## Reading back -/

/-- Bit `i` of a word is bit `i % 8` of its byte `i / 8`. -/
theorem getLsbD_load (m : Store) (a i : Nat) (hi : i < 8 * k) :
    (load k m a).getLsbD i = (m (a + i / 8)).getLsbD (i % 8) := by
  induction k generalizing a i with
  | zero => omega
  | succ k ih =>
    rw [load, BitVec.getLsbD_append]
    by_cases h : i < 8
    · rw [if_pos h, show i / 8 = 0 by omega, show i % 8 = i by omega, Nat.add_zero]
    · rw [if_neg h, ih _ _ (by omega), show a + 1 + (i - 8) / 8 = a + i / 8 by omega,
        show (i - 8) % 8 = i % 8 by omega]

/-- A word depends on its own bytes only. -/
theorem load_congr (h : ∀ x, a ≤ x → x < a + k → m' x = m x) :
    load k m' a = load k m a := by
  apply BitVec.eq_of_getLsbD_eq
  intro i hi
  rw [getLsbD_load _ _ _ hi, getLsbD_load _ _ _ hi, h _ (by omega) (by omega)]

/-- A word is given by its bytes. -/
theorem load_eq (h : ∀ j < k, m (a + j) = v.extractLsb' (8 * j) 8) :
    load k m a = v := by
  apply BitVec.eq_of_getLsbD_eq
  intro i hi
  rw [getLsbD_load _ _ _ hi, h _ (by omega), BitVec.getLsbD_extractLsb',
    show 8 * (i / 8) + i % 8 = i by omega]
  simp [show i % 8 < 8 by omega]

theorem store_of_mem (m : Store) (v : BitVec (8 * k)) (h₁ : a ≤ x) (h₂ : x < a + k) :
    store k m a v x = v.extractLsb' (8 * (x - a)) 8 :=
  if_pos ⟨h₁, h₂⟩

theorem store_of_not_mem (m : Store) (v : BitVec (8 * k)) (h : x < a ∨ a + k ≤ x) :
    store k m a v x = m x :=
  if_neg (by omega)

/-- **Round trip.** A stored word reads back. -/
@[simp] theorem load_store (m : Store) (a : Nat) (v : BitVec (8 * k)) :
    load k (store k m a v) a = v := by
  refine load_eq fun j hj => ?_
  rw [store_of_mem m v (by omega) (by omega), Nat.add_sub_cancel_left]

/-- **Frame.** A store leaves every word disjoint from it alone. -/
theorem load_store_of_disjoint (m : Store) (v : BitVec (8 * k))
    (h : a + k ≤ b ∨ b + j ≤ a) : load j (store k m a v) b = load j m b :=
  load_congr fun _ _ _ => store_of_not_mem m v (by omega)

theorem fill_of_mem (m : Store) (f : Nat → Byte) (h₁ : a ≤ x) (h₂ : x < a + n) :
    fill m a n f x = f (x - a) :=
  if_pos ⟨h₁, h₂⟩

theorem fill_of_not_mem (m : Store) (f : Nat → Byte) (h : x < a ∨ a + n ≤ x) :
    fill m a n f x = m x :=
  if_neg (by omega)

/-- A word inside a region filled with zero bytes is zero. -/
theorem load_fill_zero (m : Store) (h₁ : a ≤ b) (h₂ : b + k ≤ a + n) :
    load k (fill m a n fun _ => 0) b = 0 := by
  refine load_eq fun j hj => ?_
  rw [fill_of_mem _ _ (by omega) (by omega)]
  simp

/-- A region filled in two pieces, where the second begins at `p` or is empty. -/
theorem fill_pieces (m : Store) {f g : Nat → Byte}
    (hp : n' = p ∧ p ≤ n ∨ n' = n ∧ n ≤ p) (hg : ∀ j < n', g j = f j) :
    fill (fill m a n' g) (a + p) (n - p) (fun j => f (p + j)) = fill m a n f := by
  funext x
  by_cases hx : a ≤ x ∧ x < a + n
  · rw [fill_of_mem m f hx.1 hx.2]
    by_cases hfirst : x < a + n'
    · rw [fill_of_not_mem _ _ (by omega), fill_of_mem m g hx.1 hfirst, hg _ (by omega)]
    · rw [fill_of_mem _ _ (by omega) (by omega)]
      exact congrArg f (by omega)
  · rw [fill_of_not_mem m f (by omega), fill_of_not_mem _ _ (by omega), fill_of_not_mem m g (by omega)]

/-! ## Several writes -/

/-- `len` bytes read off `src`, to be written at `addr`. -/
structure Write where
  addr : Nat
  len : Nat
  src : Nat → Byte

/-- The address is among those written. -/
def Write.Covers (w : Write) (x : Nat) : Prop := w.addr ≤ x ∧ x < w.addr + w.len

/-- A store after several writes. -/
def writes (m : Store) : List Write → Store
  | [] => m
  | w :: ws => writes (fill m w.addr w.len w.src) ws

theorem writes_of_not_covers (h : ∀ w ∈ ws, ¬w.Covers x) (m : Store) :
    writes m ws x = m x := by
  induction ws generalizing m with
  | nil => rfl
  | cons w ws ih =>
    have hw : ¬w.Covers x := h w List.mem_cons_self
    rw [writes, ih fun w' hw' => h w' (List.mem_cons_of_mem w hw')]
    refine fill_of_not_mem m w.src ?_
    rw [Write.Covers] at hw
    omega

/-- Writes that do not overlap can all be read back. -/
theorem writes_of_covers
    (hd : ws.Pairwise fun w w' => ∀ x, w.Covers x → ¬w'.Covers x) (hw : w ∈ ws)
    (hx : w.Covers x) (m : Store) : writes m ws x = w.src (x - w.addr) := by
  induction ws generalizing m with
  | nil => cases hw
  | cons w' ws ih =>
    obtain ⟨hfirst, hrest⟩ := List.pairwise_cons.mp hd
    rw [writes]
    rcases List.mem_cons.mp hw with rfl | hin
    · rw [writes_of_not_covers fun w' hw' => hfirst w' hw' x hx]
      exact fill_of_mem m w.src hx.1 hx.2
    · exact ih hrest hin _

end Store

end Xv6.Lib
