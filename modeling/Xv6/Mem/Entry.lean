/-
# Xv6.Mem.Entry — page tables as functions from virtual page numbers to entries.

`ptEntry m root v` is the level-0 entry of the page `v`, zero where the tree has none.  Callers of
`walk` see it through three facts: without allocation it finds that entry, with allocation it leaves
all entries alone, and a store through the pointer it returns changes that one entry.
-/
import Xv6.Mem.Walk

namespace Xv6

open Lib Lib.Store Lib.Prog Multiset Radix

/-- The page-table pages of the table at `root`. -/
abbrev ptPages (m : Store) (root : Nat) : Multiset Nat := ptRadix.nodes m 2 root

/-- The entry of virtual page `v`. -/
def ptEntry (m : Store) (root v : Nat) : Pte := (ptRadix.get m 2 root (vkey v)).getD 0

/-- The number of keys of a three-level table: twice the pages below `MAXVA`. -/
def NVPN : Nat := 512 ^ 3

theorem vpn_lt (h : va < MAXVA) : va / PGSIZE < NVPN := by
  unfold MAXVA PGSIZE NVPN at *
  omega

/-- The table at `root` is a tree: no page of it is linked twice, and links have no access bits. -/
structure Tree (m : Store) (root : Nat) : Prop where
  root_dvd : PGSIZE ∣ root
  nodup : (ptPages m root).Nodup
  linked : ptRadix.Linked IsDir m 2 root

variable {s s' : Mach} {m m' : Store} {root v q : Nat}

theorem TblOk.tree (h : TblOk s 2 root) : Tree s.mem root :=
  ⟨h.root, h.nodes_nodup, h.linked⟩

theorem Tree.dvd (h : Tree m root) (hp : p ∈ ptPages m root) : PGSIZE ∣ p :=
  dvd_of_mem_nodes h.root_dvd hp

theorem Tree.agree (h : Tree m root) (hm : EqOff A m m')
    (hA : ∀ p ∈ ptPages m root, p ∉ A) : ptRadix.Agree (ptPages m root) m m' :=
  agree_eqOff hm fun p hp => ⟨h.dvd hp, hA p hp⟩

theorem ptEntry_of_slot (hs : ptRadix.slot m 2 root (vkey v) = some q) :
    ptEntry m root v = ptRadix.read m q (vkey v 0) := by
  rw [ptEntry, Radix.get, hs]
  rfl

theorem ptEntry_of_slot_none (hs : ptRadix.slot m 2 root (vkey v) = none) :
    ptEntry m root v = 0 := by
  rw [ptEntry, Radix.get, hs]
  rfl

theorem ptEntry_congr (h : ptRadix.Agree (ptPages m root) m m') (v : Nat) :
    ptEntry m' root v = ptEntry m root v := by
  rw [ptEntry, ptEntry, get_congr h]

theorem Tree.congr (ht : Tree m root) (h : ptRadix.Agree (ptPages m root) m m') :
    Tree m' root := by
  refine ⟨ht.root_dvd, ?_, linked_congr h ht.linked⟩
  rw [ptPages, nodes_congr h]
  exact ht.nodup

/-- Growing a table changes no entry. -/
theorem Grown.ptEntry (g : Grown 2 root s s') (v : Nat) :
    ptEntry s'.mem root v = ptEntry s.mem root v := by
  rw [Xv6.ptEntry, Xv6.ptEntry]
  rcases g.get (vkey v) with h | ⟨hn, hz⟩
  · rw [h]
  · rw [hn, hz]
    rfl

/-! ## Empty tables -/

section Blank

variable (hm : ∀ i, ptRadix.read m root i = 0)
include hm

theorem child_blank (i : Fin 512) : ptRadix.child (ptRadix.read m root i) = none := by
  rw [hm]
  exact child_zero

theorem ptPages_blank : ptPages m root = {root} := nodes_of_blank (child_blank hm)

theorem ptEntry_blank (v : Nat) : ptEntry m root v = 0 := by
  rw [ptEntry, get_succ, child_blank hm]
  rfl

theorem Tree.blank (hroot : PGSIZE ∣ root) : Tree m root :=
  ⟨hroot, ptPages_blank hm ▸ nodup_singleton root,
    linked_of_blank (child_blank hm)⟩

end Blank

/-! ## Storing one entry -/

section Store

variable (ht : Tree m root) (hs : ptRadix.slot m 2 root (vkey v) = some q) (e : Pte)
include ht hs

theorem Tree.agreeBut_set : ptRadix.AgreeBut (ptPages m root) q (vkey v 0) m
    (store 8 m (q + 8 * vkey v 0) e) :=
  agreeBut_store _ _ _ _ (ht.dvd (slot_mem_nodes hs)) fun _ => ht.dvd

theorem Tree.ptPages_set : ptPages (store 8 m (q + 8 * vkey v 0) e) root = ptPages m root :=
  nodes_write ht.nodup hs (ht.agreeBut_set hs e)

theorem Tree.set : Tree (store 8 m (q + 8 * vkey v 0) e) root :=
  ⟨ht.root_dvd, (ht.ptPages_set hs e).symm ▸ ht.nodup,
    linked_write ht.nodup hs (ht.agreeBut_set hs e) ht.linked⟩

theorem Tree.eqOff_set : EqOff (ptPages m root) m (store 8 m (q + 8 * vkey v 0) e) := by
  have hq := slot_mem_nodes hs
  refine (eqOff_store (k := 8) m e (ht.dvd hq) (Nat.le_add_right q _) ?_).mono
    (singleton_subset.mpr hq)
  unfold PGSIZE
  omega

/-- A store through `walk`'s pointer changes the entry of one page. -/
theorem Tree.ptEntry_set (hv : v < NVPN) (hw : w < NVPN) :
    ptEntry (store 8 m (q + 8 * vkey v 0) e) root w = if w = v then e else ptEntry m root w := by
  rw [ptEntry, get_write ht.nodup hs (ht.agreeBut_set hs e) rfl, read_store_self]
  by_cases hwv : w = v
  · rw [if_pos fun _ _ => by rw [hwv], if_pos hwv]
    rfl
  · rw [if_neg fun h => hwv (digit_inj hw hv h), if_neg hwv]
    rfl

end Store

/-! ## `walk` -/

/-- **Lookup.** Without allocation `walk` changes nothing and finds the entry. -/
theorem walk_false (s : Mach) (root : Nat) (hva : va < MAXVA) :
    walk root va false s =
      .ok ((ptRadix.slot s.mem 2 root (vkey (va / PGSIZE))).map
        (· + 8 * vkey (va / PGSIZE) 0), s) := by
  rw [walk, if_neg (by omega), walkFrom_false, PX_eq]

/-- `walk` finds an entry that is not 0. -/
theorem walk_of_ne_zero (s : Mach) (root : Nat) (hva : va < MAXVA)
    (hne : ptEntry s.mem root (va / PGSIZE) ≠ 0) :
    ∃ pte, walk root va false s = .ok (some pte, s) ∧
      readPte pte s = .ok (ptEntry s.mem root (va / PGSIZE), s) := by
  rw [walk_false s root hva]
  cases hs : ptRadix.slot s.mem 2 root (vkey (va / PGSIZE)) with
  | none => exact absurd (ptEntry_of_slot_none hs) hne
  | some q =>
    refine ⟨_, rfl, ?_⟩
    rw [ptEntry_of_slot hs]
    rfl

/-- **Allocation.** With allocation `walk` leaves the entries alone; if it finds one, a store there
changes that entry only. -/
theorem walk_true (h : TblOk s 2 root) (hva : va < MAXVA) :
    wp (walk root va true) (fun r s' => Grown 2 root s s' ∧ ∀ pte, r = some pte →
      load 8 s'.mem pte = ptEntry s.mem root (va / PGSIZE) ∧
      ∀ e, Edited 2 root s { s' with mem := store 8 s'.mem pte e } ∧
        ∀ w < NVPN, ptEntry (store 8 s'.mem pte e) root w =
          if w = va / PGSIZE then e else ptEntry s.mem root w) s := by
  rw [walk, if_neg (by omega)]
  refine wp_mono (walkFrom_true h va) fun r s' ⟨hg, hslot⟩ => ⟨hg, fun pte hpte => ?_⟩
  obtain ⟨q, hs, rfl⟩ := hslot pte hpte
  have ht := (h.edited hg.toEdited).tree
  rw [PX_eq]
  refine ⟨?_, fun e => ⟨hg.toEdited.trans ⟨⟨rfl, rfl, ?_⟩, rfl, List.suffix_rfl, ?_, ?_⟩,
    fun w hw => ?_⟩⟩
  · rw [← hg.ptEntry, ptEntry_of_slot hs]
    rfl
  · exact (ht.eqOff_set hs e).mono (subset_of_le (le_add_right _ _))
  · exact congrArg (· + (s'.freelist : Multiset Nat)) (ht.ptPages_set hs e)
  · exact (ht.set hs e).linked
  · rw [ht.ptEntry_set hs e (vpn_lt hva) hw, hg.ptEntry]

end Xv6
