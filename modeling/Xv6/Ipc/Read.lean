/-
# Xv6.Ipc.Read — what `piperead` delivers (`kernel/pipe.c`).

The second loop of `piperead` holds `pi->lock` all the time, so it is one function of the pipe and of the
memory of the caller.  It takes a byte out of the pipe before it knows that the byte can be stored: the byte
at which `copyout` fails is lost.
-/
import Xv6.Ipc.Fifo
import Xv6.Mem.Deliver

namespace Xv6.Ipc

open Lib Lib.Prog Nat

variable {s : Mach} {root addr : Nat} {pi : Pipe} {l : List Byte} {n : Int}

/-! ## The function -/

/-- The second loop of `piperead`: the number of bytes copied, and the pipe. -/
def pipereadLoop (root addr : Nat) (n : Int) : (fuel i : Nat) → Pipe → Prog Mach (Nat × Pipe)
  | 0, i, pi => pure (i, pi)
  | fuel + 1, i, pi =>
    if i < n then
      if pi.Empty then
        pure (i, pi)
      else do
        let ch := pi.first
        if (← copyout root ((addr + i) % 2 ^ 64) (fun _ => ch) 1) = -1 then
          pure (i, pi.take)
        else
          pipereadLoop root addr n fuel (i + 1) pi.take
    else
      pure (i, pi)

/-- `piperead`, from a point where it holds the lock and evaluates the condition of its first loop; `none` if
it goes to sleep there. -/
def piperead (root addr : Nat) (n : Int) (killed : Bool) (pi : Pipe) : Prog Mach (Option Int × Pipe) :=
  if pi.Empty ∧ pi.writeopen then
    pure (if killed then some (-1) else none, pi)
  else do
    let (i, pi) ← pipereadLoop root addr n n.toNat 0 pi
    pure (some i, pi)

/-! ## The bytes -/

/-- The bytes in the pipe. -/
def Pipe.Holds (pi : Pipe) (l : List Byte) : Prop := RingHolds pi.data pi.nread pi.nwrite l

theorem Pipe.Holds.take (h : pi.Holds (ch :: l)) : pi.first = ch ∧ pi.take.Holds l := RingHolds.pop h

theorem Pipe.Holds.empty_iff (h : pi.Holds l) : pi.Empty ↔ l = [] := RingHolds.eq_iff Inv.size_lt h

theorem Pipe.Holds.length_eq (h : pi.Holds l) (h' : pi.Holds l') : l.length = l'.length :=
  (RingHolds.len Inv.size_lt h).symm.trans (RingHolds.len Inv.size_lt h')

/-- What the loop has done: it stored the first `k` bytes of the pipe; either it ended there, or it also took
the next byte and could not store it. -/
structure Copied (root addr : Nat) (n : Int) (l : List Byte) (s : Mach) (i k : Nat) (pi' : Pipe) (s' : Mach) :
    Prop where
  le : k ≤ l.length
  bound : i + k ≤ max i n.toNat
  stored : Delivered root (addr + i) (l.take k) s s'
  rest : (pi'.Holds (l.drop k) ∧ (k = l.length ∨ n.toNat ≤ i + k)) ∨
    (k < l.length ∧ i + k < n.toNat ∧ ¬AccessibleAt s.mem root (addr + i + k) ∧ pi'.Holds (l.drop (k + 1)))

/-- **The loop of `piperead`.** -/
theorem wp_pipereadLoop (h : Apart s.mem root) (hfuel : n.toNat ≤ i + fuel)
    (haddr : addr + i < 2 ^ 64) (hl : pi.Holds l) :
    wp (pipereadLoop root addr n fuel i pi) (fun r s' => ∃ k, r.1 = i + k ∧
      Copied root addr n l s i k r.2 s') s := by
  have hstop : n.toNat ≤ i ∨ l = [] → Copied root addr n l s i 0 pi s := fun hend =>
    ⟨zero_le _, by omega, Delivered.nil .., .inl ⟨hl, hend.symm.imp (fun h => by rw [h]; rfl) id⟩⟩
  induction fuel generalizing i pi l s with
  | zero => exact wp_pure ⟨0, rfl, hstop (.inl hfuel)⟩
  | succ fuel ih =>
    rw [pipereadLoop]
    by_cases hn : (i : Int) < n
    swap
    · rw [if_neg hn]
      exact wp_pure ⟨0, rfl, hstop (.inl (by omega))⟩
    rw [if_pos hn]
    cases l with
    | nil =>
      rw [if_pos (hl.empty_iff.mpr rfl)]
      exact wp_pure ⟨0, rfl, hstop (.inr rfl)⟩
    | cons ch l =>
      obtain ⟨hch, htake⟩ := hl.take
      rw [if_neg fun he => List.cons_ne_nil _ _ (hl.empty_iff.mp he), mod_eq_of_lt haddr, hch]
      refine wp_seq (h.wp_deliver (addr + i) (fun _ => ch) 1) ?_
      rintro r s1 ⟨k, -, hd, ⟨rfl, rfl⟩ | ⟨rfl, hk, hno⟩⟩
      · rw [if_neg (by decide)]
        have hacc := hd.acc 0 one_pos
        have hnext : addr + (i + 1) < 2 ^ 64 := by
          have := hacc.1
          unfold MAXVA at this
          omega
        refine wp_mono (ih (hd.apart h) (by omega) hnext htake fun hend => ?_) ?_
        · exact ⟨zero_le _, by omega, Delivered.nil .., .inl ⟨htake, hend.symm.imp (fun h => by rw [h]; rfl) id⟩⟩
        rintro r s2 ⟨k, hr, c⟩
        have hle := c.le
        have hbound := c.bound
        refine ⟨k + 1, by omega, succ_le_succ hle, by omega, hd.append h c.stored, ?_⟩
        have hacc1 := hd.accessible h (addr + (i + 1) + k)
        have haddr1 : addr + (i + 1) + k = addr + i + (k + 1) := by omega
        rcases c.rest with ⟨hrest, hend⟩ | ⟨h1, h2, hno, hrest⟩
        · exact .inl ⟨hrest, hend.imp (congrArg (· + 1)) fun h => by omega⟩
        · refine .inr ⟨succ_lt_succ h1, by omega, ?_, hrest⟩
          rw [← haddr1, ← hacc1]
          exact hno
      · obtain rfl : k = 0 := by omega
        rw [if_pos rfl]
        refine wp_pure ⟨0, rfl, zero_le _, by omega, hd, .inr ⟨succ_pos _, by omega, hno, htake⟩⟩

/-! ## No byte is lost -/

/-- The first `i` bytes of the pipe were stored and those left it; the others are still there. -/
structure Lossless (root addr : Nat) (l : List Byte) (s : Mach) (i : Nat) (pi' : Pipe) (s' : Mach) : Prop where
  le : i ≤ l.length
  stored : Delivered root addr (l.take i) s s'
  rest : pi'.Holds (l.drop i)

/-- **`piperead` loses no byte** iff all of the destination that it comes to can be accessed.  Otherwise the
pipe lacks one byte more than were stored. -/
theorem piperead_lossless_iff (h : Apart s.mem root) (haddr : addr < 2 ^ 64) (hl : pi.Holds l) (n : Int)
    (killed : Bool) :
    ∃ r pi' s', piperead root addr n killed pi s = .ok ((r, pi'), s') ∧ ∀ i : Nat, r = some (i : Int) →
      (Lossless root addr l s i pi' s' ↔ ∀ j < min n.toNat l.length, AccessibleAt s.mem root (addr + j)) := by
  suffices hwp : wp (piperead root addr n killed pi) (fun r s' => ∀ i : Nat, r.1 = some (i : Int) →
      (Lossless root addr l s i r.2 s' ↔ ∀ j < min n.toNat l.length, AccessibleAt s.mem root (addr + j))) s by
    obtain ⟨⟨r, pi'⟩, s', hrun, hpost⟩ := hwp
    exact ⟨r, pi', s', hrun, hpost⟩
  rw [piperead]
  split
  · refine wp_pure fun i hi => ?_
    cases killed <;> cases hi
  · refine wp_seq (wp_pipereadLoop h (zero_add _).ge haddr hl) ?_
    rintro ⟨r, pi'⟩ s' ⟨k, hr, c⟩
    obtain rfl : r = k := hr.trans (zero_add k)
    refine wp_pure fun i hi => ?_
    obtain rfl : r = i := Int.ofNat.inj (Option.some.inj hi)
    have hbound := c.bound
    have hle := c.le
    rw [zero_max, zero_add] at hbound
    rcases c.rest with ⟨hrest, hend⟩ | ⟨h1, h2, hno, hrest⟩
    · refine ⟨fun _ j hj => c.stored.acc j ?_, fun _ => ⟨hle, c.stored, hrest⟩⟩
      rw [List.length_take]
      omega
    · refine ⟨fun hloss => ?_, fun hall => absurd (hall r (by omega)) hno⟩
      have := hloss.rest.length_eq hrest
      rw [List.length_drop, List.length_drop] at this
      omega

/-- A pipe with one byte in it. -/
def oneByte : Pipe := ⟨fun _ => 7, 0, 1, true, true⟩

theorem oneByte_holds : oneByte.Holds [7] :=
  ⟨by decide, by decide, fun i hi => by obtain rfl := lt_one_iff.mp hi; rfl⟩

/-- A byte is read into user memory. -/
theorem piperead_lossless_one : ∃ (s s' : Mach) (pi' : Pipe) (i : Nat), Apart s.mem KERNBASE ∧
    piperead KERNBASE 0 1 false oneByte s = .ok ((some (i : Int), pi'), s') ∧
    Lossless KERNBASE 0 [7] s i pi' s' := by
  obtain ⟨s, hap, hram, hall⟩ := exists_twoPages
  obtain ⟨r, pi', s', hrun, hiff⟩ := piperead_lossless_iff hap (show 0 < 2 ^ 64 by decide) oneByte_holds 1 false
  have hret : ∃ i : Nat, r = some (i : Int) := by
    have hrun' := hrun
    rw [piperead, if_neg (by decide)] at hrun'
    obtain ⟨⟨i, _⟩, _, -, hpure⟩ := bind_eq_ok.mp hrun'
    cases hpure
    exact ⟨i, rfl⟩
  obtain ⟨i, rfl⟩ := hret
  refine ⟨s, s', pi', i, hap, hrun, (hiff i rfl).mpr fun j hj => ?_⟩
  have hj : j < 1 := hj
  exact (userAt_iff hram _).mpr (hall _ (by unfold PGSIZE; omega))

/-- A read into memory that is not mapped returns 0, and the pipe is empty then. -/
theorem piperead_loses_byte : ∃ s s' pi', Apart s.mem KERNBASE ∧ oneByte.Holds [7] ∧
    piperead KERNBASE 0 1 false oneByte s = .ok ((some 0, pi'), s') ∧ pi'.Holds [] := by
  have hno : ∀ va, ¬AccessibleAt fourFree.mem KERNBASE va := fun va hva => by
    have hz : ptEntry fourFree.mem KERNBASE (va / PGSIZE) = 0 := ptEntry_blank read_emptyTable _
    refine hva.2.1 ?_
    rw [hz]
    exact BitVec.zero_and
  have hap : Apart fourFree.mem KERNBASE :=
    ⟨userMem_fourFree.own.tree, fun va hva => absurd hva (hno va), fun va _ hva => absurd hva (hno va)⟩
  obtain ⟨⟨r, pi'⟩, s', hrun, k, hr, c⟩ := wp_pipereadLoop hap
    (show (1 : Int).toNat ≤ 0 + 1 by decide) (show 0 + 0 < 2 ^ 64 by decide) oneByte_holds
  have hle := c.le
  have hk : k = 0 := by
    by_contra hpos
    refine hno _ (c.stored.acc 0 ?_)
    rw [List.length_take]
    omega
  subst hk
  refine ⟨fourFree, s', pi', hap, oneByte_holds, ?_, ?_⟩
  · rw [piperead, if_neg (by decide)]
    exact (bind_ok hrun).trans (by cases hr; rfl)
  · rcases c.rest with ⟨-, hend⟩ | ⟨-, -, -, hrest⟩
    · exact absurd hend (by decide)
    · exact hrest

end Xv6.Ipc
