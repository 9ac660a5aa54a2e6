/-
# Xv6.User.Sbrk — `malloc` of any size, on the `sbrk` of the kernel.

`morecore` computes the number of bytes in 64 bits and passes it to `sbrk`, whose parameter is an
`int`.  A request of more than `2 ^ 31 - 32` bytes becomes a negative or a small one there, which the
kernel grants; `morecore` then enters a block of the size it meant to get.
-/
import Xv6.User.Alloc
import Xv6.Proc.Resize
import Xv6.Proc.Ident

namespace Xv6

open Lib Lib.Prog List

/-! ## `sbrk` is `sys_sbrk` -/

/-- The memory of a process is in RAM. -/
theorem KInv.sz_le {Y : Fin NFILE → Int}
    (h : KInv k X Y ∅) (hlive : (k.proc i).state ≠ .UNUSED) : (k.proc i).sz ≤ USERMAX := by
  obtain ⟨root, tf, us, hr, htf, hus, hs⟩ := h.live hlive
  have hidle := h.idle_space hr htf hus
  rw [add_assoc] at hidle
  have hram := hidle.npages_le_ram h.kend.1
  have hle := le_npages hs.npages_lt.2
  have hdiv : (PHYSTOP - KERNBASE) / PGSIZE * PGSIZE = USERMAX := by decide
  have hmul := Nat.mul_le_mul_right PGSIZE ((Nat.le_add_right _ _).trans hram)
  omega

/-- **`sbrk` is what the kernel does.** Whatever `sys_sbrk` returns in a reachable state, and whatever
size it leaves, `sbrk` of the model does for one choice of `fails`. -/
theorem wp_growproc_sbrk {k : Kernel} {X : Multiset Nat} {Y : Fin NFILE → Int} {i : Fin NPROC}
    (h : KInv k X Y ∅) (hlive : (k.proc i).state ≠ .UNUSED) (n : BitVec 32) {hp : Heap}
    (hbrk : hp.brk = (k.proc i).sz) :
    wp (growproc i n) (fun r k' => ∃ fail, sbrk n { hp with fails := fail :: hp.fails } =
      .ok (if r < 0 then 2 ^ 64 - 1 else hp.brk, { hp with brk := (k'.proc i).sz })) k := by
  obtain ⟨r, k', hrun, hsum, hwrap, hshrink⟩ := wp_growproc_size h hlive n
  refine ⟨r, k', hrun, decide (r < 0), ?_⟩
  have hmax : (k'.proc i).sz ≤ USERMAX := by
    obtain ⟨_, _, hrun', h', -⟩ := wp_growproc h hlive n
    cases hrun.symm.trans hrun'
    have hids := congrFun (congrArg Prod.fst (ids_growproc i n k r k' hrun)) i
    have hstate : (k'.proc i).state = (k.proc i).state := congrArg Ident.state hids
    exact h'.sz_le (hstate ▸ hlive)
  simp only [sbrk, headD_cons, tail_cons, hbrk]
  by_cases hneg : ((k.proc i).sz : Int) + n.toInt < 0
  · obtain ⟨rfl, hsz⟩ := hwrap hneg
    rw [if_neg (by omega), if_pos hneg, hsz]
    rfl
  · rcases hsum (not_lt.mp hneg) with ⟨rfl, hsz⟩ | ⟨rfl, hsz, -⟩
    · rw [if_neg (by simp; omega), if_neg hneg, ← hsz]
      rfl
    · have hpos : 0 < n.toInt := by
        by_contra hle
        cases hshrink (not_lt.mp hle)
      rw [if_pos ⟨hpos, .inl rfl⟩, hsz]
      rfl

theorem wp_growproc_sbrk_small : ∃ pages k i, Booted pages k ∧ ∀ n : BitVec 32,
    let hp : Heap := { tinyClient.heap with brk := (k.proc i).sz }
    wp (growproc i n) (fun r k' => ∃ fail, sbrk n { hp with fails := fail :: hp.fails } =
      .ok (if r < 0 then 2 ^ 64 - 1 else hp.brk, { hp with brk := (k'.proc i).sz })) k := by
  obtain ⟨pages, k, hb, hrun⟩ := small_booted
  refine ⟨pages, k, ⟨0, by decide⟩, hb, fun n => ?_⟩
  exact wp_growproc_sbrk hb.kinv (by rw [hrun]; decide) n rfl

/-! ## Programs that ask for any size -/

/-- `Client.step` without a bound on what is asked for. -/
def Client.call (s : Client) : ClientAct → Except ClientFault Client
  | .malloc nbytes =>
    match malloc nbytes s.heap with
    | .error e => .error (.stuck e)
    | .ok (p, h) => .ok ⟨h, if p = 0 then s.live else ⟨p, nbytes⟩ :: s.live⟩
  | a => s.step a

/-- The bytes that `morecore` asks for fit in an `int`. -/
def ClientAct.Fits : ClientAct → Prop
  | .malloc nbytes => nbytes ≤ 2 ^ 31 - 32
  | _ => True

theorem Client.call_eq (ha : a.Fits) (s : Client) : s.call a = s.step a := by
  cases a with
  | malloc nbytes =>
    have hlt : ((nbytes + 15) / 16 + 1) * 16 < 2 ^ 31 := by
      rw [ClientAct.Fits] at ha
      omega
    exact (if_pos hlt).symm
  | free ap => rfl
  | write a v => rfl

theorem HeapOk.run_call
    (ok : ∃ fr ls, HeapOk start s fr ls) (has : ∀ a ∈ as, a.Fits) (hrun : run Client.call s as = .ok s') :
    ∃ fr ls, HeapOk start s' fr ls := by
  induction as generalizing s with
  | nil =>
    cases hrun
    exact ok
  | cons a as ih =>
    obtain ⟨t, hstep, hrest⟩ := run_cons_ok.mp hrun
    rw [Client.call_eq (has a mem_cons_self)] at hstep
    obtain ⟨_, _, ok⟩ := ok
    exact ih ((ok.step a).2 t hstep) (fun b hb => has b (mem_cons_of_mem a hb)) hrest

/-- **`malloc` has the memory it returns,** after every run of calls that ask for at most `2 ^ 31 - 32`
bytes: the block is between the first and the current end of memory and apart from every live block. -/
theorem malloc_has_memory {s s' : Client} {start : Nat} (hfresh : Fresh s.heap start)
    (hnone : s.live = []) {as : List ClientAct} {nbytes : Nat}
    (has : ∀ a ∈ as ++ [.malloc nbytes], a.Fits) (hrun : run Client.call s as = .ok s') :
    wp (malloc nbytes) (fun p h' => p ≠ 0 →
      start ≤ p ∧ p + nbytes ≤ h'.brk ∧ ∀ b ∈ s'.live, Tile.Apart ⟨p, nbytes⟩ b) s'.heap := by
  have hstart : ∃ fr ls, HeapOk start s fr ls :=
    ⟨[], [], .inl ⟨hfresh, rfl, rfl⟩, by rw [hnone]; exact List.Forall₂.nil⟩
  obtain ⟨fr, ls, ok⟩ := HeapOk.run_call hstart (fun a ha => has a (mem_append_left _ ha)) hrun
  have hfits : nbytes ≤ 2 ^ 31 - 32 := has _ (mem_append_right _ mem_cons_self)
  have hlt : ((nbytes + 15) / 16 + 1) * 16 < 2 ^ 31 := by omega
  refine wp_mono (ok.wp_malloc hlt) ?_
  rintro p h' (⟨rfl, -⟩ | ⟨-, fr', t, ok'⟩) hp
  · exact absurd rfl hp
  · obtain ⟨hinside, hapart, -⟩ := ok'.liveOk
    obtain ⟨hlo, hhi⟩ := hinside _ mem_cons_self
    exact ⟨hlo, hhi, (pairwise_cons.mp hapart).1⟩

theorem malloc_has_memory_tiny : ∃ s', run Client.call tinyClient [.malloc 100] = .ok s' ∧
    wp (malloc 20) (fun p h' => p ≠ 0 → 16384 ≤ p ∧ p + 20 ≤ h'.brk ∧
      ∀ b ∈ s'.live, Tile.Apart ⟨p, 20⟩ b) s'.heap := by
  have hok : (run Client.call tinyClient [.malloc 100]).toOption.map (fun _ => ()) = some () := by
    decide +kernel
  obtain ⟨s', hrun, -⟩ := ok_of_map hok
  refine ⟨s', hrun, malloc_has_memory ⟨rfl, by decide, rfl, by decide⟩ rfl ?_ hrun⟩
  simp [ClientAct.Fits]

/-- `malloc(4294967295)` by a fresh program: `morecore` means to get `2 ^ 32 + 16` bytes and calls
`sbrk(16)`, and the block returned goes past the end of memory. -/
theorem malloc_returns_missing_memory : Fresh tinyClient.heap 16384 ∧
    ∃ p h', malloc (2 ^ 32 - 1) tinyClient.heap = .ok (p, h') ∧ p ≠ 0 ∧ ¬p + (2 ^ 32 - 1) ≤ h'.brk := by
  have htest : (malloc (2 ^ 32 - 1)).test tinyClient.heap
      (fun p h' => decide (p ≠ 0 ∧ ¬p + (2 ^ 32 - 1) ≤ h'.brk)) = true := by decide +kernel
  obtain ⟨p, h', hrun, hp⟩ := of_test htest
  exact ⟨⟨rfl, by decide, rfl, by decide⟩, p, h', hrun, of_decide_eq_true hp⟩

end Xv6
