/-
# Xv6.Bio — disk blocks and the buffer cache (`kernel/bio.c`).

A block is `BSIZE` bytes and the disk maps block numbers to blocks.  The cache maps a block number
to the buffer that holds it, if there is one.  `bread` finds the block in the cache or reads it from
the disk, and to make room it may recycle any buffer whose reference count is zero.  Which one is
decided by an arbitrary policy `lru`, so that every result below holds for every eviction order and
every cache size; a buffer with a positive reference count is never recycled.

`bwrite` is the only operation that changes the disk.  The machine records the writes it issued, in
program order, because a crash keeps a prefix of them.
-/
import Xv6.Lib.Bytes
import Xv6.Lib.Device
import Xv6.Param

namespace Xv6

open Lib Function

variable {g : Block → Block} {k : Nat}

/-! ## Blocks -/

/-- A disk block. -/
abbrev Block := Fin BSIZE → Byte

namespace Block

/-- The block as a byte store; nothing is read past its end. -/
def bytes (b : Block) : Store := fun i => if h : i < BSIZE then b ⟨i, h⟩ else 0

/-- The `k`-byte word at byte offset `a`. -/
def load (k : Nat) (b : Block) (a : Nat) : BitVec (8 * k) := b.bytes.load k a

/-- The block with the `k`-byte word `v` at byte offset `a`. -/
def store (k : Nat) (b : Block) (a : Nat) (v : BitVec (8 * k)) : Block := fun i =>
  b.bytes.store k a v i

theorem bytes_store (b : Block) (a : Nat) (v : BitVec (8 * k)) (hx : x < BSIZE) :
    (b.store k a v).bytes x = b.bytes.store k a v x := by
  simp [bytes, store, hx]

@[simp] theorem load_store (b : Block) (v : BitVec (8 * k)) (h : a + k ≤ BSIZE) :
    (b.store k a v).load k a = v := by
  rw [load, Store.load_congr fun x _ _ => bytes_store b a v (by omega), Store.load_store]

theorem load_store_of_disjoint (b : Block) (v : BitVec (8 * k))
    (hc : c + j ≤ BSIZE) (h : a + k ≤ c ∨ c + j ≤ a) : (b.store k a v).load j c = b.load j c := by
  rw [load, Store.load_congr fun x _ _ => bytes_store b a v (by omega),
    Store.load_store_of_disjoint _ _ h, load]

end Block

/-- The disk: every `bwrite` of a block is atomic and writes reach it in program order. -/
abbrev Disk := Nat → Block

/-! ## The buffer cache -/

/-- `struct buf`, for a buffer whose data is valid. -/
structure Buf where
  data : Block
  refcnt : Nat

/-- The cache, keyed by the block a buffer holds. -/
abbrev Bcache := Nat → Option Buf

/-- The disk, the cache, and the block writes issued so far. -/
structure Machine where
  disk : Disk
  bcache : Bcache
  writes : List (Nat × Block)

namespace Machine

/-- A machine that has just booted on the disk `d`: nothing is cached. -/
def boot (d : Disk) : Machine := ⟨d, fun _ => none, []⟩

/-- The contents of the buffer that holds block `b`. -/
def data (m : Machine) (b : Nat) : Block :=
  match m.bcache b with
  | some buf => buf.data
  | none => m.disk b

variable (lru : Bcache → Nat → Option Nat)

/-- The recycling step of `bget`: the buffer chosen by the policy is dropped if it is unused. -/
def recycle (c : Bcache) (b : Nat) : Bcache := fun x =>
  if lru c b = some x then (c x).filter fun buf => buf.refcnt ≠ 0 else c x

/-- `bread`: `bget` followed by the disk read of a buffer that is not valid yet. -/
def bread (b : Nat) (m : Machine) : Machine :=
  match m.bcache b with
  | some buf => { m with bcache := update m.bcache b (some ⟨buf.data, buf.refcnt + 1⟩) }
  | none => { m with bcache := update (recycle lru m.bcache b) b (some ⟨m.disk b, 1⟩) }

/-- Change the buffer that holds block `b`. -/
def adjust (b : Nat) (f : Buf → Buf) (m : Machine) : Machine :=
  { m with bcache := update m.bcache b ((m.bcache b).map f) }

/-- Change the data of a held buffer. -/
def setData (b : Nat) (f : Block → Block) (m : Machine) : Machine :=
  m.adjust b fun buf => { buf with data := f buf.data }

/-- `bwrite`: write the contents of a held buffer to the disk. -/
def bwrite (b : Nat) (m : Machine) : Machine :=
  { m with disk := update m.disk b (m.data b), writes := m.writes ++ [(b, m.data b)] }

/-- `brelse`: drop the reference that `bread` took. -/
def brelse (b : Nat) (m : Machine) : Machine :=
  m.adjust b fun buf => { buf with refcnt := buf.refcnt - 1 }

/-- `bunpin`: drop the reference that `bpin` took. -/
def bunpin (b : Nat) (m : Machine) : Machine :=
  m.adjust b fun buf => { buf with refcnt := buf.refcnt - 1 }

/-! ## What one operation does to one buffer

`Held m b d r` says that block `b` is cached with contents `d` and `r` references, `Clean m b d`
that the disk and the buffer of `b`, if there is one, both hold `d`. -/

/-- Block `b` is cached with contents `d` and `r` references. -/
def Held (m : Machine) (b : Nat) (d : Block) (r : Nat) : Prop := m.bcache b = some ⟨d, r⟩

/-- Block `b` is `d` on the disk, and in the cache if it is cached. -/
def Clean (m : Machine) (b : Nat) (d : Block) : Prop :=
  m.disk b = d ∧ ∀ buf, m.bcache b = some buf → buf.data = d

theorem Held.data (h : Held m b d r) :
    m.data b = d := by
  unfold Machine.data
  rw [h]

theorem Clean.data (h : Clean m b d) : m.data b = d := by
  unfold Machine.data
  cases hb : m.bcache b with
  | none => exact h.1
  | some buf => exact h.2 buf hb

theorem clean_boot (d : Disk) (b : Nat) : Clean (boot d) b (d b) :=
  ⟨rfl, fun _ h => nomatch h⟩

/-- Recycling touches no buffer that is in use. -/
theorem recycle_of_pos (hx : c x = some buf)
    (hr : 0 < buf.refcnt) : recycle lru c b x = some buf := by
  unfold recycle
  split_ifs
  · rw [hx, Option.filter_some, if_pos (by simpa using Nat.pos_iff_ne_zero.mp hr)]
  · exact hx

/-- Recycling only ever drops buffers. -/
theorem recycle_sub (h : recycle lru c b x = some buf) :
    c x = some buf := by
  unfold recycle at h
  split_ifs at h
  · exact (Option.filter_eq_some_iff.mp h).1
  · exact h

section bread
variable {lru} {m : Machine} {b x : Nat} {d : Block} {r : Nat}

@[simp] theorem bread_disk : (bread lru b m).disk = m.disk := by unfold bread; split <;> rfl

@[simp] theorem bread_writes : (bread lru b m).writes = m.writes := by unfold bread; split <;> rfl

section

variable (lru m)

theorem bread_bcache_self (b : Nat) :
    ∃ r, (bread lru b m).bcache b = some ⟨m.data b, r + 1⟩ ∧
      ∀ d r', m.bcache b = some ⟨d, r'⟩ → r' = r := by
  unfold bread Machine.data
  cases h : m.bcache b with
  | some buf =>
    refine ⟨buf.refcnt, update_self .., ?_⟩
    intro d r' hb
    cases hb
    rfl
  | none => exact ⟨0, update_self .., fun _ _ hb => nomatch hb⟩

theorem bread_bcache_of_ne (hne : x ≠ b) : (bread lru b m).bcache x = m.bcache x ∨
      (bread lru b m).bcache x = recycle lru m.bcache b x := by
  unfold bread
  split
  · exact Or.inl (update_of_ne hne ..)
  · exact Or.inr (update_of_ne hne ..)

/-- The block asked for is in the cache afterwards, in use, with what a read would have seen. -/
theorem bread_held (b : Nat) : ∃ r, Held (bread lru b m) b (m.data b) (r + 1) := by
  obtain ⟨r, h, _⟩ := bread_bcache_self lru m b
  exact ⟨r, h⟩

end

theorem Held.bread_self (h : Held m b d r) : Held (bread lru b m) b d (r + 1) := by
  obtain ⟨r', h', hr⟩ := bread_bcache_self lru m b
  rw [h.data, ← hr d r h] at h'
  exact h'

/-- A buffer in use survives the read of another block. -/
theorem Held.bread (h : Held m x d (r + 1)) (hne : x ≠ b) : Held (bread lru b m) x d (r + 1) := by
  rcases bread_bcache_of_ne lru m hne with h' | h'
  · exact h'.trans h
  · exact h'.trans (recycle_of_pos lru h (Nat.succ_pos r))

theorem Clean.bread (h : Clean m x d) : Clean (bread lru b m) x d := by
  refine ⟨by rw [bread_disk]; exact h.1, ?_⟩
  intro buf hbuf
  by_cases hx : x = b
  · subst hx
    obtain ⟨r, h', _⟩ := bread_bcache_self lru m x
    rw [h'] at hbuf
    cases hbuf
    exact h.data
  · rcases bread_bcache_of_ne lru m hx with h' | h'
    · exact h.2 buf (h'.symm.trans hbuf)
    · exact h.2 buf (recycle_sub lru (h'.symm.trans hbuf))

end bread

section adjust
variable {m : Machine} {b x : Nat} {d : Block} {r : Nat} {f : Buf → Buf}

theorem Held.adjust_self (h : Held m b d r) :
    Held (adjust b f m) b (f ⟨d, r⟩).data (f ⟨d, r⟩).refcnt := by
  unfold Held adjust at *
  simp only [update_self, h, Option.map_some]

theorem Held.adjust (h : Held m x d r) (hne : x ≠ b) : Held (adjust b f m) x d r :=
  (update_of_ne hne ..).trans h

/-- A buffer stays clean when another one changes, or when its data is kept. -/
theorem Clean.adjust (h : Clean m x d) (hf : x = b → ∀ buf, (f buf).data = buf.data) :
    Clean (adjust b f m) x d := by
  refine ⟨h.1, ?_⟩
  intro buf hbuf
  by_cases hx : x = b
  · subst hx
    simp only [Machine.adjust, update_self, Option.map_eq_some_iff] at hbuf
    obtain ⟨buf', hb, rfl⟩ := hbuf
    exact (hf rfl buf').trans (h.2 _ hb)
  · exact h.2 buf ((update_of_ne hx ..).symm.trans hbuf)

@[simp] theorem setData_writes : (setData b g m).writes = m.writes := rfl

@[simp] theorem brelse_writes : (brelse b m).writes = m.writes := rfl

theorem Held.setData_self (h : Held m b d r) : Held (setData b g m) b (g d) r := h.adjust_self

theorem Held.setData (h : Held m x d r) (hne : x ≠ b) : Held (setData b g m) x d r := h.adjust hne

theorem Held.brelse_self (h : Held m b d (r + 1)) : Held (brelse b m) b d r := h.adjust_self

theorem Held.brelse (h : Held m x d r) (hne : x ≠ b) : Held (brelse b m) x d r := h.adjust hne

theorem Clean.setData (h : Clean m x d) (hne : x ≠ b) : Clean (setData b g m) x d := h.adjust fun he => absurd he hne

theorem Clean.brelse (h : Clean m x d) : Clean (brelse b m) x d := h.adjust fun _ _ => rfl

end adjust

section bwrite
variable {m : Machine} {b x : Nat} {d : Block} {r : Nat}

@[simp] theorem bwrite_writes : (bwrite b m).writes = m.writes ++ [(b, m.data b)] := rfl

theorem Held.bwrite (h : Held m x d r) : Held (m.bwrite b) x d r := h

/-- A written buffer agrees with the disk. -/
theorem Held.bwrite_clean (h : Held m b d r) : Clean (m.bwrite b) b d := by
  refine ⟨by simp only [Machine.bwrite, update_self, h.data], ?_⟩
  intro buf hbuf
  have hb : some buf = some ⟨d, r⟩ := hbuf.symm.trans h
  cases hb
  rfl

theorem Clean.bwrite (h : Clean m x d) (hne : x ≠ b) : Clean (bwrite b m) x d :=
  ⟨(update_of_ne hne ..).trans h.1, h.2⟩

end bwrite

/-! ## The disk is what the writes made it -/

/-- The disk of `m` is the disk `d` after the writes `m` has issued. -/
def Traced (d : Disk) (m : Machine) : Prop := m.disk = applyWrites m.writes d

theorem Traced.of_eq (h : Traced d m) (hd : m'.disk = m.disk)
    (hw : m'.writes = m.writes) : Traced d m' := by
  unfold Traced
  rw [hd, hw]
  exact h

theorem Traced.bwrite (h : Traced d m) (b : Nat) :
    Traced d (m.bwrite b) := by
  unfold Traced at h ⊢
  rw [bwrite_writes, applyWrites_append, ← h]
  rfl

end Machine

end Xv6
