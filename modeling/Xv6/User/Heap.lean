/-
# Xv6.User.Heap — the blocks of the heap, and `free`.

The free and the live blocks tile the memory that `sbrk` has given.  The free list spells the free blocks
in the order of their addresses, from `base` and back to it, and no two of them touch.  `free` finds the
place of a block from wherever `freep` is: it passes the blocks above, goes through the wrap to `base`, and
passes the blocks below.
-/
import Xv6.User.Malloc
import Xv6.Lib.Dll
import Xv6.Lib.Tiles
import Mathlib.Algebra.Order.Group.Multiset
import Mathlib.Tactic.Abel

namespace Xv6

open Lib Lib.Store Lib.Prog List Nat Tile

variable {p q : Nat}

/-! ## Blocks -/

/-- The blocks `ts` are the memory from `start` to the break, and their headers have their sizes. -/
structure Blocked (h : Heap) (start : Nat) (ts : Multiset Tile) : Prop where
  base : 0 < h.base ∧ h.base + HEADER ≤ start
  limit : start ≤ h.brk ∧ h.brk ≤ USERMAX
  tiles : Tiles ts start h.brk
  size : ∀ t ∈ ts, 0 < t.len ∧ t.len = HEADER * h.size t.addr
  base_size : h.size h.base = 0

variable {h h' : Heap} {start : Nat} {ts rest : Multiset Tile} {s t : Tile}

section

variable (b : Blocked h start ts) (ht : t ∈ ts)

include b ht

theorem Blocked.header_le : HEADER ≤ t.len := by
  obtain ⟨hpos, hlen⟩ := b.size t ht
  rw [hlen] at hpos ⊢
  exact Nat.le_mul_of_pos_right _ (Nat.pos_of_mul_pos_left hpos)

theorem Blocked.inside : start ≤ t.addr ∧ t.addr + t.len ≤ h.brk := by
  have hpos := (b.size t ht).1
  have hfirst := b.tiles.inside ht (x := t.addr) ⟨le_rfl, by omega⟩
  have hlast := b.tiles.inside ht (x := t.addr + t.len - 1) ⟨by omega, by omega⟩
  omega

theorem Blocked.base_le : h.base + HEADER ≤ t.addr :=
  b.base.2.trans (b.inside ht).1

theorem Blocked.base_lt : h.base < t.addr :=
  Nat.lt_of_lt_of_le (Nat.lt_add_of_pos_right (by decide)) (b.base_le ht)

end

/-- A block is not one of the others. -/
theorem Blocked.ne (b : Blocked h start ({t} + rest)) (hs : s ∈ rest) : t.addr ≠ s.addr := by
  intro heq
  obtain ⟨rest', rfl⟩ := Multiset.exists_cons_of_mem hs
  have ht0 := (b.size t (by simp)).1
  have hs0 := (b.size s (by simp)).1
  have htiles := b.tiles
  rw [← Multiset.singleton_add s] at htiles
  exact htiles.disjoint (x := t.addr) ⟨le_rfl, by omega⟩ ⟨by omega, by omega⟩

/-- `p` is `base` or the header of a block. -/
def IsHeader (h : Heap) (ts : Multiset Tile) (p : Nat) : Prop := p = h.base ∨ ∃ t ∈ ts, t.addr = p

/-- **Headers do not overlap.** -/
theorem Blocked.headers (b : Blocked h start ts) (hp : IsHeader h ts p) (hq : IsHeader h ts q) :
    HeadersApart p q := by
  rcases hp with rfl | ⟨s, hs, rfl⟩ <;> rcases hq with rfl | ⟨t, ht, rfl⟩
  · exact .inl rfl
  · exact .inr (.inl (b.base_le ht))
  · exact .inr (.inr (b.base_le hs))
  · by_cases hst : s = t
    · exact .inl (hst ▸ rfl)
    · have h1 := b.header_le hs
      have h2 := b.header_le ht
      rcases b.tiles.apart hs ht hst (b.size s hs).1 (b.size t ht).1 with hlt | hlt
      · exact .inr (.inl (by omega))
      · exact .inr (.inr (by omega))

theorem Blocked.isHeader_lt (b : Blocked h start ts) (hp : IsHeader h ts p) : p < 2 ^ 64 := by
  have hmax : USERMAX < 2 ^ 64 := by decide
  have hlim := b.limit
  have hbase := b.base
  rcases hp with rfl | ⟨t, ht, rfl⟩
  · omega
  · have := b.inside ht
    omega

/-- The size of a block fits into its header. -/
theorem Blocked.units_lt (b : Blocked h start ts) (hn : HEADER * n ≤ h.brk) : n < 2 ^ 32 := by
  have hmax : USERMAX < HEADER * 2 ^ 32 := by decide
  have hlim := b.limit
  exact Nat.lt_of_mul_lt_mul_left (by omega : HEADER * n < HEADER * 2 ^ 32)

/-! ## The free list -/

/-- The free blocks are `fr` and the live ones are `lv`. -/
structure Rep (h : Heap) (start : Nat) (fr : List Tile) (lv : Multiset Tile) : Prop
    extends Blocked h start (↑fr + lv) where
  sorted : fr.Pairwise fun s t => s.addr + s.len < t.addr
  links : (h.base :: (fr.map Tile.addr ++ [h.base])).IsChain fun p q => h.ptr p = q
  freep : h.freep ∈ h.base :: fr.map Tile.addr

variable {fr us vs : List Tile} {lv : Multiset Tile}

/-- Blocks one after the other take room. -/
theorem length_le_of_sorted (hs : fr.Pairwise fun s t => s.addr + s.len < t.addr) (lo hi : Nat)
    (hlo : ∀ t ∈ fr, lo ≤ t.addr) (hhi : ∀ t ∈ fr, HEADER ≤ t.len ∧ t.addr + t.len ≤ hi)
    (hle : lo ≤ hi) : HEADER * fr.length ≤ hi - lo := by
  induction fr generalizing lo with
  | nil => exact zero_le _
  | cons t fr ih =>
    obtain ⟨hfirst, hrest⟩ := pairwise_cons.mp hs
    have ht := hhi t mem_cons_self
    have htlo := hlo t mem_cons_self
    have := ih hrest (t.addr + t.len) (fun s hs => (hfirst s hs).le)
      (fun s hs => hhi s (mem_cons_of_mem t hs)) ht.2
    rw [length_cons, mul_succ]
    omega

theorem Rep.length_lt (r : Rep h start fr lv) : fr.length + 2 ≤ maxHeaders := by
  have hlen := length_le_of_sorted r.sorted start h.brk
    (fun t ht => (r.inside (Multiset.mem_add.mpr (.inl ht))).1)
    (fun t ht => ⟨r.header_le (Multiset.mem_add.mpr (.inl ht)),
      (r.inside (Multiset.mem_add.mpr (.inl ht))).2⟩) r.limit.1
  have := r.limit.2
  rw [maxHeaders]
  refine Nat.add_le_add_right ((Nat.le_div_iff_mul_le (by decide)).mpr ?_) 2
  rw [mul_comm]
  omega

/-- The free blocks below and above an address that is not one of theirs. -/
theorem exists_split (hs : fr.Pairwise fun s t => s.addr + s.len < t.addr)
    (hne : ∀ t ∈ fr, a ≠ t.addr) : ∃ us vs, fr = us ++ vs ∧ (∀ u ∈ us, u.addr < a) ∧
      ∀ v ∈ vs, a < v.addr := by
  induction fr with
  | nil => exact ⟨[], [], rfl, fun _ hu => (nomatch hu), fun _ hv => (nomatch hv)⟩
  | cons t fr ih =>
    obtain ⟨hfirst, hrest⟩ := pairwise_cons.mp hs
    rcases lt_or_ge t.addr a with hlt | hge
    · obtain ⟨us, vs, rfl, hus, hvs⟩ := ih hrest fun s hs => hne s (mem_cons_of_mem t hs)
      refine ⟨t :: us, vs, rfl, fun u hu => ?_, hvs⟩
      rcases mem_cons.mp hu with rfl | hu
      · exact hlt
      · exact hus u hu
    · have hne := hne t mem_cons_self
      refine ⟨[], t :: fr, rfl, fun _ hu => (nomatch hu), fun v hv => ?_⟩
      rcases mem_cons.mp hv with rfl | hv
      · omega
      · have := hfirst v hv
        omega

/-! ## Searching in `free` -/

section

variable {bp : Nat}

/-- One turn of the loop: it stops at `p`, or goes on at the next block. -/
theorem freeLoop_succ (fuel : Nat) : freeLoop bp (fuel + 1) p h =
    if (p < bp ∧ bp < h.ptr p) ∨ (h.ptr p ≤ p ∧ (p < bp ∨ bp < h.ptr p)) then .ok (p, h)
    else freeLoop bp fuel (h.ptr p) h := by
  rw [freeLoop, bind_ok (show (get : Prog Heap Heap) h = .ok (h, h) from rfl)]
  by_cases hin : p < bp ∧ bp < h.ptr p
  · rw [if_pos hin, if_pos (.inl hin)]
    rfl
  · simp only [hin, false_or, if_false]
    split <;> rfl

/-- Below `bp` the loop goes up to the last block, whose link leads past `bp` or back. -/
theorem freeLoop_low
    (hchain : (p :: xs).IsChain fun p q => h.ptr p = q ∧ p < q) (hlow : ∀ x ∈ p :: xs, x < bp)
    (hlast : h.ptr ((p :: xs).getLast (cons_ne_nil p xs)) = q)
    (hq : bp < q ∨ q ≤ (p :: xs).getLast (cons_ne_nil p xs)) (hfuel : xs.length < fuel) :
    freeLoop bp fuel p h = .ok ((p :: xs).getLast (cons_ne_nil p xs), h) := by
  induction xs generalizing p fuel with
  | nil =>
    obtain ⟨fuel, rfl⟩ : ∃ f, fuel = f + 1 := ⟨fuel - 1, by omega⟩
    have hp := hlow p mem_cons_self
    rw [getLast_singleton] at hlast hq ⊢
    rw [freeLoop_succ, hlast, if_pos (by omega)]
  | cons x xs ih =>
    obtain ⟨fuel, rfl⟩ : ∃ f, fuel = f + 1 := ⟨fuel - 1, by omega⟩
    obtain ⟨⟨hpx, hlt⟩, hrest⟩ := isChain_cons_cons.mp hchain
    have hx := hlow x (by simp)
    rw [getLast_cons (cons_ne_nil x xs)] at hlast hq ⊢
    rw [freeLoop_succ, hpx, if_neg (by omega)]
    exact ih hrest (fun y hy => hlow y (mem_cons_of_mem p hy)) hlast hq
      (by rw [length_cons] at hfuel; omega)

/-- Above `bp` it goes up to the last block and from there to `base`. -/
theorem freeLoop_high
    (hchain : (p :: xs).IsChain fun p q => h.ptr p = q ∧ p < q) (hhigh : ∀ x ∈ p :: xs, bp < x)
    (hlast : h.ptr ((p :: xs).getLast (cons_ne_nil p xs)) = base) (hbase : base < bp)
    (hfuel : xs.length < fuel) :
    freeLoop bp fuel p h = freeLoop bp (fuel - (xs.length + 1)) base h := by
  induction xs generalizing p fuel with
  | nil =>
    obtain ⟨fuel, rfl⟩ : ∃ f, fuel = f + 1 := ⟨fuel - 1, by omega⟩
    have hp := hhigh p mem_cons_self
    rw [getLast_singleton] at hlast
    rw [freeLoop_succ, hlast, if_neg (by omega)]
    rfl
  | cons x xs ih =>
    obtain ⟨fuel, rfl⟩ : ∃ f, fuel = f + 1 := ⟨fuel - 1, by omega⟩
    obtain ⟨⟨hpx, hlt⟩, hrest⟩ := isChain_cons_cons.mp hchain
    have hp := hhigh p mem_cons_self
    rw [length_cons] at hfuel
    rw [getLast_cons (cons_ne_nil x xs)] at hlast
    rw [freeLoop_succ, hpx, if_neg (by omega),
      ih hrest (fun y hy => hhigh y (mem_cons_of_mem p hy)) hlast (by omega)]
    rw [length_cons]
    congr 1
    omega

/-- The last of the blocks below, or `base`. -/
def lastOf (base : Nat) (us : List Tile) : Nat :=
  (base :: us.map Tile.addr).getLast (cons_ne_nil _ _)

/-- The first of the blocks above, or `base`. -/
def firstOf (base : Nat) (vs : List Tile) : Nat := (vs.map Tile.addr ++ [base]).head (by simp)

theorem isChain_and_of_pairwise {α : Type} {R S : α → α → Prop} {l : List α} (hR : l.IsChain R)
    (hS : l.Pairwise S) : l.IsChain fun a b => R a b ∧ S a b := by
  refine isChain_iff_forall_rel_of_append_cons_cons.mpr fun a b l1 l2 heq => ⟨?_, ?_⟩
  · exact isChain_iff_forall_rel_of_append_cons_cons.mp hR heq
  · rw [heq] at hS
    exact (pairwise_cons.mp (pairwise_append.mp hS).2.1).1 b mem_cons_self

/-- `base` and the free blocks are in the order of their addresses. -/
theorem Rep.addrs_sorted (r : Rep h start fr lv) :
    (h.base :: fr.map addr).Pairwise (· < ·) := by
  refine pairwise_cons.mpr ⟨fun a ha => ?_, pairwise_map.mpr (r.sorted.imp fun hst => by omega)⟩
  obtain ⟨t, ht, rfl⟩ := mem_map.mp ha
  exact r.base_lt (Multiset.mem_add.mpr (.inl ht))

/-- The links below, across and above a place in the free list. -/
theorem Rep.links_split (r : Rep h start (us ++ vs) lv) :
    (h.base :: us.map addr).IsChain (fun p q => h.ptr p = q ∧ p < q) ∧
    h.ptr (lastOf h.base us) = firstOf h.base vs ∧
    (vs.map addr ++ [h.base]).IsChain (fun p q => h.ptr p = q) ∧
    (vs.map addr).IsChain (fun p q => h.ptr p = q ∧ p < q) := by
  have hlinks := r.links
  have hsorted := r.addrs_sorted
  rw [map_append, append_assoc, ← cons_append] at hlinks
  rw [map_append, ← cons_append] at hsorted
  have hhigh := hlinks.right_of_append
  refine ⟨isChain_and_of_pairwise hlinks.left_of_append (pairwise_append.mp hsorted).1, ?_, hhigh,
    isChain_and_of_pairwise hhigh.left_of_append (pairwise_append.mp hsorted).2.1⟩
  exact hlinks.rel_getLast_head_of_append (cons_ne_nil _ _) (by simp)

/-- **The loop of `free`** finds the place of a block, from wherever it starts. -/
theorem Rep.wp_freeLoop (r : Rep h start (us ++ vs) lv) (hbase : h.base < bp)
    (hus : ∀ u ∈ us, u.addr < bp) (hvs : ∀ v ∈ vs, bp < v.addr) :
    freeLoop bp maxHeaders h.freep h = .ok (lastOf h.base us, h) := by
  obtain ⟨hlow, hcross, hhigh, hup⟩ := r.links_split
  have hlen := r.length_lt
  rw [length_append] at hlen
  have hbelow : ∀ x ∈ h.base :: us.map addr, x < bp := by
    intro x hx
    rcases mem_cons.mp hx with rfl | hx
    · exact hbase
    · obtain ⟨u, hu, rfl⟩ := mem_map.mp hx
      exact hus u hu
  have habove : ∀ x ∈ vs.map addr, bp < x := by
    intro x hx
    obtain ⟨v, hv, rfl⟩ := mem_map.mp hx
    exact hvs v hv
  -- the link of the last block below leads past `bp`, or back to `base`
  have hwrap : bp < firstOf h.base vs ∨ firstOf h.base vs ≤ lastOf h.base us := by
    cases vs with
    | nil =>
      refine .inr ?_
      have hlast := getLast_mem (cons_ne_nil h.base (us.map addr))
      rcases mem_cons.mp hlast with heq | hin
      · exact heq.symm.le
      · obtain ⟨u, hu, heq⟩ := mem_map.mp hin
        have := r.base_lt (Multiset.mem_add.mpr (.inl (mem_append_left [] hu)))
        exact this.le.trans heq.le
    | cons v vs => exact .inl (hvs v mem_cons_self)
  -- from a block below
  have flow : ∀ {x fuel}, x ∈ h.base :: us.map addr → us.length < fuel →
      freeLoop bp fuel x h = .ok (lastOf h.base us, h) := by
    intro x fuel hx hfuel
    obtain ⟨as, xs, heq⟩ := append_of_mem hx
    have hlast : (x :: xs).getLast (cons_ne_nil x xs) = lastOf h.base us := by
      rw [lastOf]
      simp only [heq]
      rw [getLast_append_of_ne_nil]
    have hcount := congrArg List.length heq
    rw [length_cons, length_map, length_append, length_cons] at hcount
    rw [← hlast]
    refine freeLoop_low ((heq ▸ hlow).right_of_append) (fun y hy => hbelow y ?_) (q := firstOf h.base vs)
      ?_ ?_ (by omega)
    · rw [heq]
      exact mem_append_right as hy
    · rw [hlast, hcross]
    · rw [hlast]
      exact hwrap
  have hfreep := r.freep
  rw [map_append, ← cons_append] at hfreep
  rcases mem_append.mp hfreep with hin | hin
  · exact flow hin (by omega)
  · obtain ⟨as, xs, heq⟩ := append_of_mem hin
    have hcount := congrArg List.length heq
    rw [length_map, length_append, length_cons] at hcount
    rw [heq, append_assoc] at hhigh
    have hend : h.ptr ((h.freep :: xs).getLast (cons_ne_nil _ xs)) = h.base :=
      hhigh.right_of_append.rel_getLast_head_of_append (cons_ne_nil _ xs) (cons_ne_nil _ [])
    rw [freeLoop_high ((heq ▸ hup).right_of_append) (fun y hy => habove y ?_) hend hbase (by omega)]
    · exact flow mem_cons_self (by omega)
    · rw [heq]
      exact mem_append_right as hy

end

/-! ## Joining blocks in `free` -/

/-- The blocks of the heap, with the block `t` in front. -/
abbrev around (us : List Tile) (t : Tile) (vs : List Tile) (lv : Multiset Tile) : Multiset Tile :=
  {t} + (↑us + (↑vs + lv))

/-- The heap between the two halves of `free`: the block `t` is linked to the blocks `vs` above it, and does
not touch them; the last of the blocks `us` below is not yet linked to it. -/
structure Mid (h : Heap) (start : Nat) (us : List Tile) (t : Tile) (vs : List Tile) (lv : Multiset Tile) :
    Prop extends Blocked h start ({t} + (↑us + (↑vs + lv))) where
  sorted : (us ++ vs).Pairwise fun s t => s.addr + s.len < t.addr
  below : ∀ u ∈ us, u.addr < t.addr
  above : ∀ v ∈ vs, t.addr + t.len < v.addr
  low : (h.base :: us.map Tile.addr).IsChain fun p q => h.ptr p = q
  high : (t.addr :: (vs.map Tile.addr ++ [h.base])).IsChain fun p q => h.ptr p = q

/-- Links of headers that were not written. -/
theorem isChain_ptr {l : List Nat} (hl : l.IsChain fun p q => h.ptr p = q)
    (hsame : ∀ p ∈ l.dropLast, h'.ptr p = h.ptr p) : l.IsChain fun p q => h'.ptr p = q :=
  isChain_imp_of_mem hl fun p hp _ _ hpq => (hsame p hp).trans hpq

theorem isHeader_of_mem (hsub : ∀ u ∈ us, u ∈ ts) (ha : a ∈ h.base :: us.map addr) :
    IsHeader h ts a := by
  rcases mem_cons.mp ha with rfl | ha
  · exact .inl rfl
  · obtain ⟨u, hu, rfl⟩ := mem_map.mp ha
    exact .inr ⟨u, hsub u hu, rfl⟩

theorem isHeader_self : IsHeader h (around us t vs lv) t.addr := .inr ⟨t, by simp, rfl⟩

theorem isHeader_below (hp : p ∈ h.base :: us.map addr) : IsHeader h (around us t vs lv) p :=
  isHeader_of_mem (fun u hu => by simp [hu]) hp

theorem isHeader_above (hp : p ∈ h.base :: vs.map addr) : IsHeader h (around us t vs lv) p :=
  isHeader_of_mem (fun v hv => by simp [hv]) hp

/-- A link of `t` is written: what matters of the other headers stays. -/
theorem Blocked.withPtr (b : Blocked h start ts) (hp : IsHeader h ts p) :
    Blocked (h.withPtr p q) start ts where
  base := b.base
  limit := b.limit
  tiles := b.tiles
  size t ht := by
    rw [size_withPtr (b.headers hp (.inr ⟨t, ht, rfl⟩))]
    exact b.size t ht
  base_size := (size_withPtr (b.headers hp (.inl rfl))).trans b.base_size

/-- A block ends before the blocks with larger addresses begin. -/
theorem Blocked.end_le (b : Blocked h start ts) (hs : s ∈ ts) (ht : t ∈ ts) (hlt : s.addr < t.addr) :
    s.addr + s.len ≤ t.addr := by
  have hne : s ≠ t := fun heq => hlt.ne (congrArg addr heq)
  have ht0 := (b.size t ht).1
  rcases b.tiles.apart hs ht hne (b.size s hs).1 ht0 with hle | hle
  · exact hle
  · omega

theorem lastOf_concat (base : Nat) (us : List Tile) (u : Tile) : lastOf base (us ++ [u]) = u.addr := by
  simp [lastOf]

theorem lastOf_mem (base : Nat) (us : List Tile) : lastOf base us ∈ base :: us.map addr :=
  getLast_mem _

theorem firstOf_mem (base : Nat) (vs : List Tile) : firstOf base vs ∈ base :: vs.map addr := by
  cases vs <;> simp [firstOf]

theorem isChain_firstOf :
    (p :: (vs.map addr ++ [base])).IsChain (fun p q => h.ptr p = q) ↔
      h.ptr p = firstOf base vs ∧ (vs.map addr ++ [base]).IsChain fun p q => h.ptr p = q := by
  cases vs <;> exact isChain_cons_cons

/-- **Two blocks that touch become one.** -/
theorem Blocked.join (b : Blocked h start ({s} + ({t} + rest))) (hadj : s.addr + s.len = t.addr) :
    Blocked (h.withSize s.addr (h.size s.addr + h.size t.addr)) start
      ({⟨s.addr, s.len + t.len⟩} + rest) := by
  have hs : s ∈ ({s}) + ({t} + rest) := by simp
  have ht : t ∈ ({s}) + ({t} + rest) := by simp
  obtain ⟨hs0, hslen⟩ := b.size s hs
  obtain ⟨ht0, htlen⟩ := b.size t ht
  have htiles : Tiles ({⟨s.addr, s.len + t.len⟩} + rest) start h.brk := by
    have hold := b.tiles
    rw [← Multiset.add_assoc] at hold
    refine hold.replace fun x => ?_
    rw [← hits_cut, hadj]
  have hn : h.size s.addr + h.size t.addr < 2 ^ 32 := by
    refine b.units_lt ?_
    have := (b.inside ht).2
    rw [mul_add]
    omega
  have hsame : ∀ r, IsHeader h ({s} + ({t} + rest)) r → s.addr ≠ r →
      (h.withSize s.addr (h.size s.addr + h.size t.addr)).size r = h.size r :=
    fun r hr hne => by rw [size_withSize (b.headers (.inr ⟨s, hs, rfl⟩) hr) hn, if_neg hne]
  refine ⟨b.base, b.limit, htiles, fun u hu => ?_, ?_⟩
  · rcases Multiset.mem_add.mp hu with hu | hu
    · rw [Multiset.mem_singleton.mp hu, size_withSize (.inl rfl) hn, if_pos rfl, mul_add]
      exact ⟨Nat.add_pos_left hs0 _, congrArg₂ (· + ·) hslen htlen⟩
    · have hin : u ∈ ({s}) + ({t} + rest) := by simp [hu]
      rw [hsame u.addr (.inr ⟨u, hin, rfl⟩) (b.ne (by simp [hu]))]
      exact b.size u hin
  · exact (hsame h.base (.inl rfl) (b.base_lt hs).ne').trans b.base_size

/-- The block is linked to the first of the blocks above. -/
theorem Blocked.linked (b : Blocked h start (around us t vs lv))
    (hsorted : (us ++ vs).Pairwise fun s t => s.addr + s.len < t.addr) (hbelow : ∀ u ∈ us, u.addr < t.addr)
    (habove : ∀ v ∈ vs, t.addr + t.len < v.addr)
    (hlow : (h.base :: us.map addr).IsChain fun p q => h.ptr p = q)
    (hhigh : (vs.map addr ++ [h.base]).IsChain fun p q => h.ptr p = q) :
    Mid (h.withPtr t.addr (firstOf h.base vs)) start us t vs lv := by
  have hfirst := b.isHeader_lt (isHeader_above (firstOf_mem h.base vs))
  have hsame : ∀ p, IsHeader h (around us t vs lv) p → t.addr ≠ p →
      (h.withPtr t.addr (firstOf h.base vs)).ptr p = h.ptr p :=
    fun p hp hne => by rw [ptr_withPtr (b.headers isHeader_self hp) hfirst, if_neg hne]
  refine ⟨b.withPtr isHeader_self, hsorted, hbelow, habove, ?_, isChain_firstOf.mpr ⟨?_, ?_⟩⟩
  · refine isChain_ptr hlow fun p hp => hsame p (isHeader_below (mem_of_mem_dropLast hp)) ?_
    rcases mem_cons.mp (mem_of_mem_dropLast hp) with rfl | hp
    · exact (b.base_lt (by simp)).ne'
    · obtain ⟨u, hu, rfl⟩ := mem_map.mp hp
      exact (hbelow u hu).ne'
  · rw [ptr_withPtr (.inl rfl) hfirst, if_pos rfl]
    rfl
  · refine isChain_ptr hhigh fun p hp => ?_
    rw [dropLast_concat] at hp
    refine hsame p (isHeader_above (mem_cons_of_mem _ hp)) ?_
    obtain ⟨v, hv, rfl⟩ := mem_map.mp hp
    have := habove v hv
    omega

/-- The blocks before `free`, with the block that is freed in front. -/
theorem Rep.blocked (r : Rep h start (us ++ vs) ({t} + lv)) :
    Blocked h start (around us t vs lv) := by
  have hsum : around us t vs lv = ↑(us ++ vs) + ({t} + lv) := by
    rw [around, ← Multiset.coe_add]
    abel
  rw [hsum]
  exact r.toBlocked

/-- The block is joined with the one above it. -/
theorem Rep.join_above {v : Tile} (r : Rep h start (us ++ v :: vs) ({t} + lv))
    (hus : ∀ u ∈ us, u.addr < t.addr) (hadj : t.addr + t.len = v.addr) (h₁ : Heap)
    (heq : h₁ = h.withSize t.addr (h.size t.addr + h.size v.addr)) :
    h₁.ptr (h₁.ptr (lastOf h.base us)) = firstOf h.base vs ∧
      Mid (h₁.withPtr t.addr (firstOf h.base vs)) start us ⟨t.addr, t.len + v.len⟩ vs lv := by
  obtain ⟨hlow, hcross, hhigh, -⟩ := r.links_split
  obtain ⟨hnext, hhigh⟩ := isChain_firstOf.mp hhigh
  have b := r.blocked
  have hv : v ∈ around us t (v :: vs) lv := by simp
  have hsame : ∀ p, IsHeader h (around us t (v :: vs) lv) p → h₁.ptr p = h.ptr p := fun p hp => by
    rw [heq]
    exact ptr_withSize (b.headers isHeader_self hp)
  have hlowhead : ∀ p ∈ h.base :: us.map addr, h₁.ptr p = h.ptr p :=
    fun p hp => hsame p (isHeader_below hp)
  have hhighhead : ∀ p ∈ h.base :: vs.map addr, h₁.ptr p = h.ptr p :=
    fun p hp => hsame p (isHeader_of_mem (fun u hu => by simp [hu]) hp)
  have b1 : Blocked h₁ start ({⟨t.addr, t.len + v.len⟩} + (↑us + (↑vs + lv))) := by
    have hsum : around us t (v :: vs) lv = {t} + ({v} + (↑us + (↑vs + lv))) := by
      rw [around, ← Multiset.cons_coe, ← Multiset.singleton_add]
      abel
    rw [hsum] at b
    rw [heq]
    exact b.join hadj
  have hbase : h₁.base = h.base := by rw [heq]; rfl
  obtain ⟨hsus, hsvs, hcr⟩ := pairwise_append.mp r.sorted
  obtain ⟨hfirst, hsvs⟩ := pairwise_cons.mp hsvs
  refine ⟨?_, ?_⟩
  · rw [hlowhead _ (lastOf_mem h.base us), hcross]
    exact (hsame v.addr (.inr ⟨v, hv, rfl⟩)).trans hnext
  · rw [← hbase] at hlow hhigh hlowhead ⊢
    refine b1.linked ?_ hus ?_ ?_ ?_
    · exact pairwise_append.mpr ⟨hsus, hsvs, fun u hu w hw => hcr u hu w (mem_cons_of_mem v hw)⟩
    · intro w hw
      have := hfirst w hw
      simp only
      omega
    · exact isChain_ptr (hlow.imp fun _ _ hpq => hpq.1) fun p hp => hlowhead p (mem_of_mem_dropLast hp)
    · refine isChain_ptr hhigh fun p hp => hhighhead p (mem_cons_of_mem _ ?_)
      rwa [dropLast_concat] at hp

/-- What a function of the heap leaves alone. -/
structure SameEnds (h h' : Heap) : Prop where
  base : h'.base = h.base
  brk : h'.brk = h.brk
  fails : h'.fails = h.fails

/-- **The first half of `free`**: the block is joined with the one above it if they touch. -/
theorem Rep.wp_joinUpper (r : Rep h start (us ++ vs) ({t} + lv)) (hus : ∀ u ∈ us, u.addr < t.addr)
    (hvs : ∀ v ∈ vs, t.addr < v.addr) :
    wp (joinUpper t.addr (lastOf h.base us)) (fun _ h' => SameEnds h h' ∧
      ∃ t' vs', Mid h' start us t' vs' lv ∧ t'.addr = t.addr ∧ t.len ≤ t'.len) h := by
  obtain ⟨hlow, hcross, hhigh, -⟩ := r.links_split
  have b := r.blocked
  have ht : t ∈ around us t vs lv := by simp
  rw [joinUpper]
  refine wp_bind (wp_get ?_)
  rw [hcross, ← (b.size t ht).2]
  by_cases hadj : t.addr + t.len = firstOf h.base vs
  · rw [if_pos hadj]
    cases vs with
    | nil =>
      have hend : t.addr + t.len = h.base := hadj
      have hbase := b.base_lt ht
      omega
    | cons v vs =>
      obtain ⟨hptr, hmid⟩ := r.join_above hus hadj _ rfl
      refine wp_bind (wp_modify (wp_bind (wp_get ?_)))
      rw [show firstOf h.base (v :: vs) = v.addr from rfl, hptr]
      exact wp_modify ⟨⟨rfl, rfl, rfl⟩, ⟨t.addr, t.len + v.len⟩, vs, hmid, rfl, le_add_right _ _⟩
  · rw [if_neg hadj]
    refine wp_modify ⟨⟨rfl, rfl, rfl⟩, t, vs,
      b.linked r.sorted hus ?_ (hlow.imp fun _ _ hpq => hpq.1) hhigh, rfl, le_rfl⟩
    -- the first block above does not touch the block, the others are further up
    cases vs with
    | nil => exact fun _ hv => (nomatch hv)
    | cons v vs =>
      have hfirst : t.addr + t.len < v.addr :=
        lt_of_le_of_ne (b.end_le ht (by simp) (hvs v mem_cons_self)) hadj
      intro w hw
      rcases mem_cons.mp hw with rfl | hw
      · exact hfirst
      · have := (pairwise_cons.mp (pairwise_append.mp r.sorted).2.1).1 w hw
        omega

/-- The block is linked on both sides. -/
theorem Mid.rep (m : Mid h start us t vs lv) (hlast : h.ptr (lastOf h.base us) = t.addr)
    (hbelow : ∀ u ∈ us, u.addr + u.len < t.addr) (hp : p ∈ h.base :: us.map addr ∨ p = t.addr) :
    Rep { h with freep := p } start (us ++ t :: vs) lv where
  toBlocked := by
    have hsum : (↑(us ++ t :: vs)) + lv = {t} + (↑us + (↑vs + lv)) := by
      rw [← Multiset.coe_add, ← Multiset.cons_coe, ← Multiset.singleton_add]
      abel
    rw [hsum]
    exact ⟨m.base, m.limit, m.tiles, m.size, m.base_size⟩
  sorted := by
    obtain ⟨hus, hvs, hcr⟩ := pairwise_append.mp m.sorted
    refine pairwise_append.mpr ⟨hus, pairwise_cons.mpr ⟨m.above, hvs⟩, fun u hu w hw => ?_⟩
    rcases mem_cons.mp hw with rfl | hw
    · exact hbelow u hu
    · exact hcr u hu w hw
  links := by
    rw [map_append, append_assoc, ← cons_append]
    refine isChain_append.mpr ⟨m.low, m.high, ?_⟩
    intro p hp q hq
    rw [List.getLast?_eq_some_getLast (cons_ne_nil _ _), Option.mem_some_iff] at hp
    rw [map_cons, cons_append, List.head?_cons, Option.mem_some_iff] at hq
    rw [← hp, ← hq]
    exact hlast
  freep := by
    rw [map_append, ← cons_append]
    rcases hp with hin | heq
    · exact mem_append_left _ hin
    · exact mem_append_right _ (heq ▸ mem_cons_self)

/-- `base` and the blocks below are in the order of their addresses, below the block. -/
theorem Mid.low_sorted (m : Mid h start us t vs lv) :
    ((h.base :: us.map addr) ++ [t.addr]).Pairwise (· < ·) := by
  refine pairwise_append.mpr ⟨pairwise_cons.mpr ⟨fun a ha => ?_, ?_⟩,
    pairwise_singleton _ _, fun a ha b hb => ?_⟩
  · obtain ⟨u, hu, rfl⟩ := mem_map.mp ha
    exact m.base_lt (by simp [hu])
  · exact pairwise_map.mpr ((pairwise_append.mp m.sorted).1.imp fun hst => by omega)
  · rw [mem_singleton.mp hb]
    rcases mem_cons.mp ha with rfl | ha
    · exact m.base_lt (by simp)
    · obtain ⟨u, hu, rfl⟩ := mem_map.mp ha
      exact m.below u hu

/-- The last of the blocks below gets a link. -/
theorem Mid.withPtr (m : Mid h start us t vs lv) (hq : q < 2 ^ 64) :
    Mid (h.withPtr (lastOf h.base us) q) start us t vs lv := by
  have hlast : IsHeader h (around us t vs lv) (lastOf h.base us) := isHeader_below (lastOf_mem h.base us)
  have hsame : ∀ p, IsHeader h (around us t vs lv) p → lastOf h.base us ≠ p →
      (h.withPtr (lastOf h.base us) q).ptr p = h.ptr p :=
    fun p hp hne => by rw [ptr_withPtr (m.headers hlast hp) hq, if_neg hne]
  obtain ⟨hsorted, -, hcross⟩ := pairwise_append.mp m.low_sorted
  refine ⟨m.toBlocked.withPtr hlast, m.sorted, m.below, m.above, isChain_ptr m.low fun p hp => ?_,
    isChain_ptr m.high fun p hp => ?_⟩
  · refine hsame p (isHeader_below (mem_of_mem_dropLast hp)) ?_
    rw [← dropLast_append_getLast (cons_ne_nil h.base (us.map addr))] at hsorted
    exact ((pairwise_append.mp hsorted).2.2 p hp _ (mem_singleton_self _)).ne'
  · have hbelow := hcross _ (lastOf_mem h.base us) _ (mem_singleton_self _)
    rw [← cons_append, dropLast_concat] at hp
    rcases mem_cons.mp hp with rfl | hp
    · exact hsame _ isHeader_self hbelow.ne
    · obtain ⟨v, hv, rfl⟩ := mem_map.mp hp
      refine hsame _ (.inr ⟨v, by simp [hv], rfl⟩) ?_
      have := m.above v hv
      omega

/-- The block is joined with the one below it. -/
theorem Mid.join_below {u : Tile} (m : Mid h start (us ++ [u]) t vs lv) (hadj : u.addr + u.len = t.addr)
    (h₁ : Heap) (heq : h₁ = h.withSize u.addr (h.size u.addr + h.size t.addr)) :
    h₁.ptr t.addr = firstOf h.base vs ∧
      Rep { h₁.withPtr u.addr (firstOf h.base vs) with freep := u.addr } start
        (us ++ ⟨u.addr, u.len + t.len⟩ :: vs) lv := by
  have hu : u ∈ around (us ++ [u]) t vs lv := by simp
  have hsame : ∀ p, IsHeader h (around (us ++ [u]) t vs lv) p → h₁.ptr p = h.ptr p := fun p hp => by
    rw [heq]
    exact ptr_withSize (m.headers (.inr ⟨u, hu, rfl⟩) hp)
  have hlowhead : ∀ p ∈ h.base :: us.map addr, h₁.ptr p = h.ptr p :=
    fun p hp => hsame p (isHeader_of_mem (fun s hs => by simp [hs]) hp)
  have hhighhead : ∀ p ∈ h.base :: vs.map addr, h₁.ptr p = h.ptr p :=
    fun p hp => hsame p (isHeader_above hp)
  have b1 : Blocked h₁ start ({⟨u.addr, u.len + t.len⟩} + (↑us + (↑vs + lv))) := by
    have hsum : ({t}) + (↑(us ++ [u]) + (↑vs + lv)) = {u} + ({t} + (↑us + (↑vs + lv))) := by
      rw [← Multiset.coe_add, Multiset.coe_singleton]
      abel
    have b := m.toBlocked
    rw [hsum] at b
    rw [heq]
    exact b.join hadj
  have hbase : h₁.base = h.base := by rw [heq]; rfl
  obtain ⟨hnext, hhigh⟩ := isChain_firstOf.mp m.high
  have hbelow : ∀ w ∈ us, w.addr + w.len < u.addr := fun w hw =>
    (pairwise_append.mp (pairwise_append.mp m.sorted).1).2.2 w hw u (mem_singleton_self u)
  have hlow := m.low
  rw [map_append, ← cons_append] at hlow
  have hprev : h.ptr (lastOf h.base us) = u.addr :=
    hlow.rel_getLast_head_of_append (cons_ne_nil _ _) (cons_ne_nil _ _)
  have hmid : Mid (h₁.withPtr u.addr (firstOf h.base vs)) start us ⟨u.addr, u.len + t.len⟩ vs lv := by
    rw [← hbase] at hlow hhigh hlowhead ⊢
    refine b1.linked ?_ ?_ ?_ ?_ ?_
    · exact m.sorted.sublist ((sublist_append_left us [u]).append_right vs)
    · exact fun w hw => (le_add_right _ _).trans_lt (hbelow w hw)
    · intro v hv
      have := m.above v hv
      simp only
      omega
    · exact isChain_ptr hlow.left_of_append fun p hp => hlowhead p (mem_of_mem_dropLast hp)
    · refine isChain_ptr hhigh fun p hp => hhighhead p (mem_cons_of_mem _ ?_)
      rwa [dropLast_concat] at hp
  refine ⟨(hsame t.addr isHeader_self).trans hnext, hmid.rep ?_ hbelow (.inr rfl)⟩
  have hfirst := m.isHeader_lt (isHeader_above (firstOf_mem h.base vs))
  have hne : u.addr ≠ lastOf h.base us := by
    rcases mem_cons.mp (lastOf_mem h.base us) with hz | hin
    · rw [hz]
      exact (m.base_lt hu).ne'
    · obtain ⟨w, hw, hz⟩ := mem_map.mp hin
      have := hbelow w hw
      omega
  have hapart : HeadersApart u.addr (lastOf h.base us) :=
    m.headers (.inr ⟨u, hu, rfl⟩) (isHeader_of_mem (fun s hs => by simp [hs]) (lastOf_mem h.base us))
  show (h₁.withPtr u.addr (firstOf h.base vs)).ptr (lastOf h₁.base us) = u.addr
  rw [hbase, ptr_withPtr hapart hfirst, if_neg hne, hlowhead _ (lastOf_mem h.base us), hprev]

/-- **The second half of `free`**: the block is joined with the one below it if they touch. -/
theorem Mid.wp_joinLower (m : Mid h start us t vs lv) :
    wp (joinLower t.addr (lastOf h.base us)) (fun _ h' => SameEnds h h' ∧ ∃ fr',
      Rep { h' with freep := lastOf h.base us } start fr' lv ∧ ∃ t' ∈ fr', t.len ≤ t'.len) h := by
  rw [joinLower]
  refine wp_bind (wp_get ?_)
  have ht : t ∈ around us t vs lv := by simp
  by_cases hadj : lastOf h.base us + HEADER * h.size (lastOf h.base us) = t.addr
  · rw [if_pos hadj]
    rcases eq_nil_or_concat' us with rfl | ⟨us, u, rfl⟩
    · -- `base` has size 0, so that it touches no block
      have hbase : h.base + HEADER * h.size h.base = t.addr := hadj
      rw [m.base_size] at hbase
      exact absurd hbase.symm (m.base_lt ht).ne'
    · rw [lastOf_concat] at hadj ⊢
      rw [← (m.size u (by simp)).2] at hadj
      obtain ⟨hptr, hrep⟩ := m.join_below hadj _ rfl
      refine wp_bind (wp_modify (wp_bind (wp_get ?_)))
      rw [hptr]
      exact wp_modify ⟨⟨rfl, rfl, rfl⟩, _, hrep, ⟨u.addr, u.len + t.len⟩, by simp, le_add_left _ _⟩
  · rw [if_neg hadj]
    have hlt := m.isHeader_lt isHeader_self
    have hm := m.withPtr hlt
    refine wp_modify ⟨⟨rfl, rfl, rfl⟩, us ++ t :: vs, hm.rep ?_ ?_ (.inl (lastOf_mem _ _)), t, by simp,
      le_rfl⟩
    · exact (ptr_withPtr (.inl rfl) hlt).trans (if_pos rfl)
    -- the last block below does not touch the block, the others are further down
    · rcases eq_nil_or_concat' us with rfl | ⟨us, u, rfl⟩
      · exact fun _ hu => (nomatch hu)
      · rw [lastOf_concat, ← (m.size u (by simp)).2] at hadj
        have hbelow := m.below u (by simp)
        have hlast : u.addr + u.len < t.addr := lt_of_le_of_ne (m.end_le (by simp) ht hbelow) hadj
        intro w hw
        rcases mem_append.mp hw with hw | hw
        · have := (pairwise_append.mp (pairwise_append.mp m.sorted).1).2.2 w hw u (by simp)
          omega
        · exact mem_singleton.mp hw ▸ hlast

/-- **`free`**: a live block becomes free, possibly as a part of a larger block. -/
theorem Rep.wp_free (r : Rep h start fr ({t} + lv)) :
    wp (free (t.addr + HEADER)) (fun _ h' => SameEnds h h' ∧
      ∃ fr', Rep h' start fr' lv ∧ ∃ t' ∈ fr', t.len ≤ t'.len) h := by
  have ht : t ∈ (↑fr) + ({t} + lv) := by simp
  have hne : ∀ s ∈ fr, t.addr ≠ s.addr := by
    have b := r.toBlocked
    rw [add_left_comm] at b
    exact fun s hs => b.ne (by simp [hs])
  obtain ⟨us, vs, rfl, hus, hvs⟩ := exists_split r.sorted hne
  rw [free, Nat.add_sub_cancel]
  refine wp_bind (wp_get ?_)
  refine wp_bind ⟨_, _, r.wp_freeLoop (r.base_lt ht) hus hvs, ?_⟩
  refine wp_seq (r.wp_joinUpper hus hvs) ?_
  rintro - h1 ⟨he, t1, vs1, hm, haddr, hlen⟩
  rw [← haddr, ← he.base]
  refine wp_seq hm.wp_joinLower ?_
  rintro - h2 ⟨he2, fr', hrep, t', ht', hle⟩
  exact wp_modify ⟨⟨he2.base.trans he.base, he2.brk.trans he.brk, he2.fails.trans he.fails⟩, fr', hrep, t',
    ht', hlen.trans hle⟩

end Xv6
