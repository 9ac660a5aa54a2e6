/-
# Xv6.Mem.Deliver — bytes that the kernel delivers to a user buffer.

`copyout` is called for one byte or for many, and a system call that fills a buffer calls it again and again.
`Delivered` says what all of that has done to memory: some bytes are in the buffer, from its beginning, and
nothing else has changed.
-/
import Xv6.Mem.Bytewise

namespace Xv6

open Lib Lib.Store Lib.Prog List

variable {s s' s'' : Mach} {root addr : Nat} {bytes bytes' : List Byte}

/-- The bytes were stored at `addr` and after, and nothing else has changed. -/
structure Delivered (root addr : Nat) (bytes : List Byte) (s s' : Mach) : Prop where
  state : s' = { s with mem := s'.mem }
  acc : ∀ j < bytes.length, AccessibleAt s.mem root (addr + j)
  hit : ∀ j (h : j < bytes.length), s'.mem (physAddr s.mem root (addr + j)) = bytes[j]
  miss : ∀ x, (∀ j < bytes.length, physAddr s.mem root (addr + j) ≠ x) → s'.mem x = s.mem x

namespace Delivered

theorem nil (root addr : Nat) (s : Mach) : Delivered root addr [] s s :=
  ⟨rfl, fun _ h => absurd h (Nat.not_lt_zero _), fun _ h => absurd h (Nat.not_lt_zero _), fun _ _ => rfl⟩

section

variable (h : Delivered root addr bytes s s') (hap : Apart s.mem root)

include h hap

/-- The page table is as it was. -/
theorem agree : ptRadix.Agree (ptPages s.mem root) s.mem s'.mem := by
  refine fun p hp i => load_congr fun x h1 h2 => h.miss x fun j hj heq => hap.data _ (h.acc j hj) ?_
  rw [← PGROUNDDOWN_physAddr, heq, PGROUNDDOWN_of_mem (hap.tree.dvd hp) (by omega) (by unfold PGSIZE; omega)]
  exact hp

theorem apart : Apart s'.mem root :=
  hap.congr (h.agree hap)

theorem accessible (va : Nat) : AccessibleAt s'.mem root va ↔ AccessibleAt s.mem root va := by
  rw [AccessibleAt, AccessibleAt, ptEntry_congr (h.agree hap)]

theorem physAddr_eq (va : Nat) : physAddr s'.mem root va = physAddr s.mem root va := by
  rw [physAddr, physAddr, ptEntry_congr (h.agree hap)]

/-- More bytes, behind the first ones. -/
theorem append (h' : Delivered root (addr + bytes.length) bytes' s' s'') :
    Delivered root addr (bytes ++ bytes') s s'' := by
  have hacc' : ∀ j < bytes'.length, AccessibleAt s.mem root (addr + (bytes.length + j)) := fun j hj => by
    rw [← h.accessible hap, ← Nat.add_assoc]
    exact h'.acc j hj
  have hmiss' : ∀ x, (∀ j < bytes'.length, physAddr s.mem root (addr + (bytes.length + j)) ≠ x) →
      s''.mem x = s'.mem x := fun x hx => h'.miss x fun j hj => by
    rw [h.physAddr_eq hap, Nat.add_assoc]
    exact hx j hj
  refine ⟨h'.state.trans (by rw [h.state]), fun j hj => ?_, fun j hj => ?_, fun x hx => ?_⟩
  · rw [length_append] at hj
    by_cases hlt : j < bytes.length
    · exact h.acc j hlt
    · have := hacc' (j - bytes.length) (by omega)
      rwa [Nat.add_sub_cancel' (not_lt.mp hlt)] at this
  · rw [length_append] at hj
    by_cases hlt : j < bytes.length
    · rw [getElem_append_left hlt, hmiss', h.hit j hlt]
      intro k hk heq
      have := hap.physAddr_inj (hacc' k hk) (h.acc j hlt) heq
      omega
    · have hit := h'.hit (j - bytes.length) (by omega)
      rw [h.physAddr_eq hap, Nat.add_assoc, Nat.add_sub_cancel' (not_lt.mp hlt)] at hit
      rw [getElem_append_right (not_lt.mp hlt), hit]
  · rw [hmiss' x fun j hj => hx _ (by rw [length_append]; omega), h.miss x fun j hj => hx _ ?_]
    rw [length_append]
    omega

end

end Delivered

/-- **`copyout`** delivers the bytes before the first address that cannot be accessed. -/
theorem Apart.wp_deliver (h : Apart s.mem root) (addr : Nat) (src : Nat → Byte) (len : Nat) :
    wp (copyout root addr src len) (fun r s' => ∃ k ≤ len, Delivered root addr ((range k).map src) s s' ∧
      (r = 0 ∧ k = len ∨ r = -1 ∧ k < len ∧ ¬AccessibleAt s.mem root (addr + k))) s := by
  refine wp_mono h.wp_copyout fun r s' hc => ?_
  have hle : reach s.mem root addr len ≤ len := reach_le addr len
  refine ⟨reach s.mem root addr len, hle, ⟨hc.state, fun j hj => ?_, fun j hj => ?_, fun x hx => ?_⟩, ?_⟩
  · rw [length_map, length_range] at hj
    exact reach_accessible hj
  · rw [length_map, length_range] at hj
    have hit := hc.hit (addr + j) (by omega) ((reached_iff (by omega)).mpr hj)
    rw [getElem_map, getElem_range, hit, Nat.add_sub_cancel_left]
  · refine hc.miss x fun va hva hre heq => ?_
    obtain ⟨j, rfl⟩ := Nat.exists_eq_add_of_le hre.1
    refine hx j ?_ heq
    rw [length_map, length_range]
    exact (reached_iff (by omega)).mp hre
  · rcases hc.ret with ⟨rfl, hall⟩ | ⟨rfl, va, h1, h2, hno⟩
    · exact .inl ⟨rfl, reach_eq_len.mpr fun i hi => hall _ (by omega) (by omega)⟩
    · have hlt : reach s.mem root addr len < len := lt_of_le_of_ne hle fun he => by
        obtain ⟨j, rfl⟩ := Nat.exists_eq_add_of_le h1
        exact hno (reach_accessible (show j < reach s.mem root addr len by omega))
      exact .inr ⟨rfl, hlt, reach_stops hlt⟩

end Xv6
