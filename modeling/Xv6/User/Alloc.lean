/-
# Xv6.User.Alloc — `malloc`, and programs that use the heap.

`malloc` goes once around the free list from `freep`.  If no block is large enough, `morecore` adds one, and
the search that starts again at the new `freep` finds it.  A program calls `malloc` and `free` and writes to
its blocks; whatever it does, the free and the live blocks tile the memory from `sbrk`.
-/
import Xv6.User.Heap
import Xv6.Lib.Trace

namespace Xv6

open Lib Lib.Store Lib.Prog List Nat

variable {h h' : Heap} {start n : Nat} {rest : Multiset Tile} {t : Tile} {fr us vs : List Tile}
  {lv : Multiset Tile}

/-! ## Taking a block -/

/-- A block in the free list, with the links around it. -/
theorem Rep.mid (r : Rep h start (us ++ t :: vs) lv) :
    Mid h start us t vs lv ∧ h.ptr (lastOf h.base us) = t.addr ∧ ∀ u ∈ us, u.addr + u.len < t.addr := by
  obtain ⟨hlow, hcross, hhigh, -⟩ := r.links_split
  obtain ⟨hus, hvs, hcr⟩ := pairwise_append.mp r.sorted
  obtain ⟨hfirst, hvs⟩ := pairwise_cons.mp hvs
  have hbelow : ∀ u ∈ us, u.addr + u.len < t.addr := fun u hu => hcr u hu t mem_cons_self
  refine ⟨⟨?_, ?_, ?_, hfirst, hlow.imp fun _ _ hpq => hpq.1, hhigh⟩, hcross, hbelow⟩
  · have hsum : ({t}) + (↑us + (↑vs + lv)) = ↑(us ++ t :: vs) + lv := by
      rw [← Multiset.coe_add, ← Multiset.cons_coe, ← Multiset.singleton_add]
      abel
    rw [hsum]
    exact r.toBlocked
  · exact pairwise_append.mpr ⟨hus, hvs, fun u hu w hw => hcr u hu w (mem_cons_of_mem t hw)⟩
  · exact fun u hu => (le_add_right _ _).trans_lt (hbelow u hu)

/-- A whole block leaves the free list. -/
theorem Rep.unlink (r : Rep h start (us ++ t :: vs) lv) :
    h.ptr t.addr = firstOf h.base vs ∧
    Rep { h.withPtr (lastOf h.base us) (firstOf h.base vs) with freep := lastOf h.base us } start (us ++ vs)
      ({t} + lv) := by
  obtain ⟨m, -, -⟩ := r.mid
  obtain ⟨hnext, -⟩ := isChain_firstOf.mp m.high
  have hfirst := m.isHeader_lt (isHeader_above (firstOf_mem h.base vs))
  have m' := m.withPtr hfirst
  obtain ⟨-, hhigh⟩ := isChain_firstOf.mp m'.high
  refine ⟨hnext, ?_, m.sorted, ?_, ?_⟩
  · have hsum : (↑(us ++ vs)) + ({t} + lv) = {t} + (↑us + (↑vs + lv)) := by
      rw [← Multiset.coe_add]
      abel
    rw [hsum]
    exact ⟨m'.base, m'.limit, m'.tiles, m'.size, m'.base_size⟩
  · rw [map_append, append_assoc, ← cons_append]
    refine isChain_append.mpr ⟨m'.low, hhigh, fun p hp q hq => ?_⟩
    rw [List.getLast?_eq_some_getLast (cons_ne_nil _ _), Option.mem_some_iff] at hp
    rw [List.head?_eq_some_head (by simp), Option.mem_some_iff] at hq
    rw [← hp, ← hq]
    exact (ptr_withPtr (.inl rfl) hfirst).trans (if_pos rfl)
  · rw [map_append, ← cons_append]
    exact mem_append_left _ (lastOf_mem _ _)

/-- The heap after `n` units were cut off the end of the block at `a`, of which `k` units stay. -/
def Heap.cut (h : Heap) (a k n : Nat) : Heap := (h.withSize a k).withSize (a + HEADER * k) n

/-- **A block is cut in two.** -/
theorem Blocked.cut (b : Blocked h start ({t} + rest)) (hk : 0 < k) (hn : 0 < n)
    (hsize : h.size t.addr = k + n) :
    Blocked (h.cut t.addr k n) start ({⟨t.addr, HEADER * k⟩} + ({⟨t.addr + HEADER * k, HEADER * n⟩} + rest)) ∧
      ∀ p, IsHeader h ({t} + rest) p → (h.cut t.addr k n).ptr p = h.ptr p := by
  have ht : t ∈ ({t}) + rest := by simp
  have hhead : IsHeader h ({t} + rest) t.addr := .inr ⟨t, ht, rfl⟩
  have hlen := (b.size t ht).2
  rw [hsize, mul_add] at hlen
  have hin := b.inside ht
  have hk' : k < 2 ^ 32 := b.units_lt (by omega)
  have hn' : n < 2 ^ 32 := b.units_lt (by omega)
  -- the new header is inside the block, behind its header
  have hkpos : HEADER ≤ HEADER * k := Nat.le_mul_of_pos_right _ hk
  have hnpos : HEADER ≤ HEADER * n := Nat.le_mul_of_pos_right _ hn
  have hpos : 0 < HEADER := by decide
  have hnew : ∀ r, IsHeader h ({t} + rest) r → t.addr + HEADER * k ≠ r ∧
      HeadersApart (t.addr + HEADER * k) r := by
    rintro r hr
    have hapart : t.addr + HEADER * k + HEADER ≤ r ∨ r + HEADER ≤ t.addr + HEADER * k := by
      rcases hr with rfl | ⟨s, hs, rfl⟩
      · have := b.base_le ht
        omega
      · by_cases hst : s = t
        · subst s
          omega
        · have := b.header_le hs
          rcases b.tiles.apart hs ht hst (b.size s hs).1 (b.size t ht).1 with hle | hle <;> omega
    exact ⟨by omega, .inr hapart⟩
  have hsame : ∀ r, IsHeader h ({t} + rest) r → t.addr ≠ r → (h.cut t.addr k n).size r = h.size r :=
    fun r hr hne => by
      rw [Heap.cut, size_withSize (hnew r hr).2 hn', if_neg (hnew r hr).1, size_withSize (b.headers hhead hr) hk',
        if_neg hne]
  refine ⟨⟨b.base, b.limit, ?_, fun s hs => ?_, ?_⟩, fun p hp => ?_⟩
  · rw [← Multiset.add_assoc]
    refine b.tiles.replace fun x => ?_
    rw [hits_cut, ← hlen]
  · rcases Multiset.mem_add.mp hs with hs | hs
    · rw [Multiset.mem_singleton.mp hs, Heap.cut, size_withSize (hnew _ hhead).2 hn', if_neg (hnew _ hhead).1,
        size_withSize (.inl rfl) hk', if_pos rfl]
      exact ⟨hpos.trans_le hkpos, rfl⟩
    · rcases Multiset.mem_add.mp hs with hs | hs
      · rw [Multiset.mem_singleton.mp hs, Heap.cut, size_withSize (.inl rfl) hn', if_pos rfl]
        exact ⟨hpos.trans_le hnpos, rfl⟩
      · have hin : s ∈ ({t}) + rest := by simp [hs]
        rw [hsame s.addr (.inr ⟨s, hin, rfl⟩) (b.ne hs)]
        exact b.size s hin
  · exact (hsame h.base (.inl rfl) (b.base_lt ht).ne').trans b.base_size
  · rw [Heap.cut, ptr_withSize (hnew p hp).2, ptr_withSize (b.headers hhead hp)]

/-- The end of a block leaves the free list. -/
theorem Rep.cut (r : Rep h start (us ++ t :: vs) lv) (hk : 0 < k) (hn : 0 < n)
    (hsize : h.size t.addr = k + n) :
    Rep { h.cut t.addr k n with freep := lastOf h.base us } start (us ++ ⟨t.addr, HEADER * k⟩ :: vs)
      ({⟨t.addr + HEADER * k, HEADER * n⟩} + lv) := by
  obtain ⟨m, hlast, hbelow⟩ := r.mid
  obtain ⟨b, hsame⟩ := m.toBlocked.cut hk hn hsize
  have hle : HEADER * k ≤ t.len := by
    rw [(m.size t (by simp)).2, hsize, mul_add]
    exact le_add_right _ _
  have m' : Mid (h.cut t.addr k n) start us ⟨t.addr, HEADER * k⟩ vs
      ({⟨t.addr + HEADER * k, HEADER * n⟩} + lv) := by
    refine ⟨?_, m.sorted, m.below, fun v hv => ?_, isChain_ptr m.low fun p hp => ?_,
      isChain_ptr m.high fun p hp => ?_⟩
    · rw [add_left_comm (vs : Multiset Tile), add_left_comm (us : Multiset Tile)]
      exact b
    · exact (Nat.add_le_add_left hle _).trans_lt (m.above v hv)
    · exact hsame p (isHeader_below (mem_of_mem_dropLast hp))
    · rw [← cons_append, dropLast_concat] at hp
      rcases mem_cons.mp hp with rfl | hp
      · exact hsame _ isHeader_self
      · exact hsame p (isHeader_above (mem_cons_of_mem _ hp))
  exact m'.rep ((hsame _ (isHeader_below (lastOf_mem h.base us))).trans hlast) hbelow (.inl (lastOf_mem _ _))

/-- **Taking `n` units from a block**: a block of that size becomes live. -/
theorem Rep.wp_takeBlock (r : Rep h start (us ++ t :: vs) lv) (hn : 0 < n) (hsize : n ≤ h.size t.addr) :
    wp (takeBlock n (lastOf h.base us) t.addr) (fun ret h' => SameEnds h h' ∧ ∃ fr' t',
      Rep h' start fr' ({t'} + lv) ∧ ret = t'.addr + HEADER ∧ t'.len = HEADER * n) h := by
  rw [takeBlock]
  refine wp_bind (wp_get ?_)
  by_cases heq : h.size t.addr = n
  · obtain ⟨hptr, hrep⟩ := r.unlink
    rw [if_pos heq, hptr]
    refine wp_bind (wp_modify (wp_bind (wp_modify (wp_pure ⟨⟨rfl, rfl, rfl⟩, us ++ vs, t, hrep, rfl, ?_⟩))))
    rw [← heq]
    exact (r.size t (by simp)).2
  · rw [if_neg heq]
    have hk : 0 < h.size t.addr - n := by omega
    have hrep := r.cut hk hn (by omega)
    refine wp_bind (wp_modify (wp_bind (wp_get ?_)))
    have hk' : h.size t.addr - n < 2 ^ 32 := by
      have hlt : h.size t.addr < 2 ^ 32 := BitVec.isLt _
      omega
    rw [size_withSize (.inl rfl) hk', if_pos rfl]
    exact wp_bind (wp_modify (wp_bind (wp_modify (wp_pure ⟨⟨rfl, rfl, rfl⟩, _, _, hrep, rfl, rfl⟩))))

/-! ## `morecore` -/

/-- Memory from `sbrk` is a live block until `free` has it. -/
theorem Rep.extend (r : Rep h start fr lv) (hn : 0 < n)
    (hle : h.brk + HEADER * n ≤ USERMAX) :
    Rep ({ h with brk := h.brk + HEADER * n, fails := fails }.withSize h.brk n) start fr
      ({⟨h.brk, HEADER * n⟩} + lv) := by
  have hpos : 0 < HEADER := by decide
  have hn' : n < 2 ^ 32 := by
    have hmax : USERMAX < HEADER * 2 ^ 32 := by decide
    exact Nat.lt_of_mul_lt_mul_left (by omega : HEADER * n < HEADER * 2 ^ 32)
  -- the new header is behind all blocks
  have hnew : ∀ p, IsHeader h (↑fr + lv) p → p + HEADER ≤ h.brk := by
    rintro p (rfl | ⟨t, ht, rfl⟩)
    · exact r.base.2.trans r.limit.1
    · exact (Nat.add_le_add_left (r.header_le ht) _).trans (r.inside ht).2
  have hsize : ∀ p, IsHeader h (↑fr + lv) p →
      ({ h with brk := h.brk + HEADER * n, fails := fails }.withSize h.brk n).size p = h.size p :=
    fun p hp => by
      have := hnew p hp
      rw [size_withSize (.inr (.inr this)) hn', if_neg (by omega)]
      rfl
  have hptr : ∀ p ∈ h.base :: fr.map Tile.addr,
      ({ h with brk := h.brk + HEADER * n, fails := fails }.withSize h.brk n).ptr p = h.ptr p := fun p hp =>
    ptr_withSize (.inr (.inr (hnew p (isHeader_of_mem (fun s hs => by simp [hs]) hp))))
  refine ⟨⟨r.base, ⟨r.limit.1.trans (le_add_right _ _), hle⟩, ?_, fun t ht => ?_, ?_⟩, r.sorted,
    isChain_ptr r.links fun p hp => ?_, r.freep⟩
  · rw [add_left_comm]
    exact r.tiles.extend r.limit.1 _
  · rw [add_left_comm] at ht
    rcases Multiset.mem_add.mp ht with ht | ht
    · rw [Multiset.mem_singleton.mp ht, size_withSize (.inl rfl) hn', if_pos rfl]
      exact ⟨mul_pos hpos hn, rfl⟩
    · rw [hsize t.addr (.inr ⟨t, ht, rfl⟩)]
      exact r.size t ht
  · exact (hsize h.base (.inl rfl)).trans r.base_size
  · rw [← cons_append, dropLast_concat] at hp
    exact hptr p hp

theorem Rep.freep_ne (r : Rep h start fr lv) : h.freep ≠ 0 := by
  have hbase := r.base.1
  rcases mem_cons.mp r.freep with heq | hin
  · omega
  · obtain ⟨t, ht, heq⟩ := mem_map.mp hin
    have := r.base_lt (Multiset.mem_add.mpr (.inl ht))
    omega

theorem wp_sbrk (hpos : 0 < n) (hn : HEADER * n < 2 ^ 31) :
    wp (sbrk (BitVec.ofNat 32 (n * HEADER))) (fun p h' =>
      (p = 2 ^ 64 - 1 ∧ h' = { h with fails := h.fails.tail }) ∨
      (p = h.brk ∧ h.brk + HEADER * n ≤ USERMAX ∧
        h' = { h with brk := h.brk + HEADER * n, fails := h.fails.tail })) h := by
  have hint : (BitVec.ofNat 32 (n * HEADER)).toInt = (HEADER * n : Nat) := by
    rw [mul_comm, BitVec.toInt_ofNat', Int.bmod_eq_of_le] <;> omega
  have hgrow : (0 : Int) < (HEADER * n : Nat) := by
    rw [HEADER]
    omega
  by_cases hfail : h.fails.headD false = true ∨ h.brk + HEADER * n > USERMAX
  · refine ⟨2 ^ 64 - 1, { h with fails := h.fails.tail }, ?_, .inl ⟨rfl, rfl⟩⟩
    simp only [sbrk, hint]
    rw [if_pos ⟨hgrow, hfail.imp_right fun hgt => by omega⟩]
  · refine ⟨h.brk, { h with brk := h.brk + HEADER * n, fails := h.fails.tail }, ?_, .inr ⟨rfl, ?_, rfl⟩⟩
    · simp only [sbrk, hint]
      rw [if_neg fun hf => hfail (hf.2.imp_right fun hgt => by omega), if_neg (by omega)]
      rfl
    · exact Nat.le_of_not_lt fun hgt => hfail (.inr hgt)

/-- **`morecore`** fails without a trace, or there is a free block of at least `n` units. -/
theorem Rep.wp_morecore (r : Rep h start fr lv) (hn : HEADER * n < 2 ^ 31) :
    wp (morecore n) (fun p h' => (p = 0 ∧ h' = { h with fails := h.fails.tail }) ∨
      (p = h'.freep ∧ p ≠ 0 ∧ h'.base = h.base ∧ h.brk ≤ h'.brk ∧
        ∃ fr', Rep h' start fr' lv ∧ ∃ t ∈ fr', HEADER * n ≤ t.len)) h := by
  obtain ⟨nu, hnu, hpos, hle, hlt⟩ : ∃ nu, (if n < 4096 then 4096 else n) = nu ∧ 0 < nu ∧ n ≤ nu ∧
      HEADER * nu < 2 ^ 31 := by
    refine ⟨_, rfl, ?_⟩
    split
    · exact ⟨by decide, by omega, by decide⟩
    · exact ⟨by omega, le_rfl, hn⟩
  rw [morecore]
  simp only [hnu]
  refine wp_seq (wp_sbrk hpos hlt) ?_
  rintro p h1 (⟨rfl, rfl⟩ | ⟨rfl, hmax, rfl⟩)
  · rw [if_pos rfl]
    exact wp_pure (.inl ⟨rfl, rfl⟩)
  · have hne : h.brk ≠ 2 ^ 64 - 1 := by
      have hmax' : USERMAX < 2 ^ 64 - 1 := by decide
      omega
    rw [if_neg hne]
    refine wp_bind (wp_modify ?_)
    refine wp_seq (r.extend hpos hmax).wp_free ?_
    rintro - h2 ⟨he, fr', hrep, t, ht, hlen⟩
    refine wp_bind (wp_get (wp_pure (.inr ⟨rfl, ?_, he.base, ?_, fr', hrep, t, ht, ?_⟩)))
    · exact hrep.freep_ne
    · exact (le_add_right _ _).trans he.brk.ge
    · exact (mul_le_mul_left _ hle).trans hlen

/-! ## Searching in `malloc` -/

/-- The free list from `freep` on and back to it. -/
theorem Rep.rotate (r : Rep h start fr lv) :
    ∃ xs, (h.freep :: (xs ++ [h.freep])).IsChain (fun p q => h.ptr p = q) ∧ h.freep ∉ xs ∧
      xs.length = fr.length ∧ ∀ x, x ∈ h.freep :: xs ↔ x ∈ h.base :: fr.map Tile.addr := by
  have hnodup := r.addrs_sorted.imp (S := (· ≠ ·)) fun hlt => hlt.ne
  have hlinks := r.links
  rcases mem_cons.mp r.freep with heq | hin
  · rw [heq]
    exact ⟨fr.map Tile.addr, hlinks, fun hin => (pairwise_cons.mp hnodup).1 _ hin rfl, by simp,
      fun x => Iff.rfl⟩
  · obtain ⟨as, bs, hsplit⟩ := append_of_mem hin
    have hlen := congrArg List.length hsplit
    rw [hsplit] at hnodup hlinks ⊢
    refine ⟨bs ++ h.base :: as, ?_, ?_, ?_, fun x => ?_⟩
    · have hcut : ((h.base :: as) ++ h.freep :: (bs ++ [h.base])).IsChain fun p q => h.ptr p = q := by
        simpa using hlinks
      obtain ⟨hbefore, hafter⟩ := isChain_split.mp hcut
      have hafter : ((h.freep :: bs) ++ [h.base]).IsChain fun p q => h.ptr p = q := hafter
      have hjoin := isChain_split.mpr ⟨hafter, hbefore⟩
      simpa using hjoin
    · have hcut : ((h.base :: as) ++ h.freep :: bs).Nodup := hnodup
      have hout := (nodup_cons.mp (nodup_middle.mp hcut)).1
      simp only [mem_append, mem_cons] at hout ⊢
      tauto
    · simp only [length_map, length_append, length_cons] at hlen ⊢
      omega
    · simp only [mem_cons, mem_append]
      tauto

/-- **One round of the search**: it stops at the first block that is large enough, or comes back to `freep`,
and then all blocks are too small. -/
theorem mallocLoop_round {prev fuel : Nat} {xs : List Nat}
    (hchain : (prev :: (xs ++ [h.freep])).IsChain fun p q => h.ptr p = q) (hfreep : h.freep ∉ xs)
    (hfuel : xs.length < fuel) :
    (∃ p ∈ prev :: xs, n ≤ h.size (h.ptr p) ∧
      mallocLoop n fuel prev (h.ptr prev) h = takeBlock n p (h.ptr p) h) ∨
    ((∀ x ∈ xs ++ [h.freep], h.size x < n) ∧ mallocLoop n fuel prev (h.ptr prev) h = (do
      let p ← morecore n
      if p = 0 then pure 0 else mallocLoop n (fuel - (xs.length + 1)) p ((← get).ptr p)) h) := by
  induction fuel generalizing prev xs with
  | zero => exact absurd hfuel (not_lt_zero _)
  | succ fuel ih =>
  rw [mallocLoop, bind_ok (show (get : Prog Heap Heap) h = .ok (h, h) from rfl)]
  by_cases hbig : n ≤ h.size (h.ptr prev)
  · rw [if_pos hbig]
    exact .inl ⟨prev, mem_cons_self, hbig, rfl⟩
  rw [if_neg hbig]
  cases xs with
  | nil =>
    have hptr : h.ptr prev = h.freep := (isChain_cons_cons.mp hchain).1
    rw [if_pos hptr]
    refine .inr ⟨fun x hx => ?_, rfl⟩
    rw [mem_singleton.mp hx, ← hptr]
    exact Nat.lt_of_not_le hbig
  | cons x xs =>
    obtain ⟨hptr, hrest⟩ := isChain_cons_cons.mp hchain
    have hne : x ≠ h.freep := fun heq => hfreep (heq ▸ mem_cons_self)
    rw [hptr] at hbig ⊢
    rw [if_neg hne]
    rw [length_cons] at hfuel ⊢
    rcases ih hrest (fun hin => hfreep (mem_cons_of_mem x hin)) (lt_of_succ_lt_succ hfuel) with
      ⟨p, hp, hfit, heq⟩ | ⟨hall, heq⟩
    · exact .inl ⟨p, mem_cons_of_mem prev hp, hfit, heq⟩
    · refine .inr ⟨fun y hy => ?_, ?_⟩
      · rcases mem_cons.mp hy with rfl | hy
        · exact Nat.lt_of_not_le hbig
        · exact hall y hy
      · rw [heq, succ_sub_succ]

/-- A block that is found is in the list after the one that it was found from. -/
theorem Rep.found (r : Rep h start fr lv) (hp : p ∈ h.base :: fr.map Tile.addr) (hn : 0 < n)
    (hfit : n ≤ h.size (h.ptr p)) :
    ∃ us t vs, fr = us ++ t :: vs ∧ p = lastOf h.base us ∧ h.ptr p = t.addr := by
  obtain ⟨us, vs, rfl, rfl⟩ : ∃ us vs, fr = us ++ vs ∧ p = lastOf h.base us := by
    rcases mem_cons.mp hp with rfl | hp
    · exact ⟨[], fr, rfl, rfl⟩
    · obtain ⟨u, hu, rfl⟩ := mem_map.mp hp
      obtain ⟨us, vs, rfl⟩ := append_of_mem hu
      exact ⟨us ++ [u], vs, by simp, (lastOf_concat _ _ _).symm⟩
  obtain ⟨-, hcross, -, -⟩ := r.links_split
  cases vs with
  | nil =>
    -- `base` is never large enough
    have hbase : h.ptr (lastOf h.base us) = h.base := hcross
    rw [hbase, r.base_size] at hfit
    omega
  | cons t vs => exact ⟨us, t, vs, rfl, rfl, hcross⟩

/-- The block that `malloc` returns for `n` units. -/
structure Given (h h' : Heap) (start : Nat) (lv : Multiset Tile) (n ret : Nat) (fr' : List Tile) (t : Tile) :
    Prop where
  base : h'.base = h.base
  grows : h.brk ≤ h'.brk
  rep : Rep h' start fr' ({t} + lv)
  ret : ret = t.addr + HEADER
  len : t.len = HEADER * n

/-- A search finds a block, or all free blocks are too small and it asks for more memory. -/
theorem Rep.round (r : Rep h start fr lv) (hn : 0 < n) (fuel : Nat) (hfuel : fr.length < fuel) :
    wp (mallocLoop n fuel h.freep (h.ptr h.freep)) (fun ret h' => ∃ fr' t, Given h h' start lv n ret fr' t) h ∨
    ((∀ t ∈ fr, t.len < HEADER * n) ∧ mallocLoop n fuel h.freep (h.ptr h.freep) h = (do
      let p ← morecore n
      if p = 0 then pure 0 else mallocLoop n (fuel - (fr.length + 1)) p ((← get).ptr p)) h) := by
  obtain ⟨xs, hchain, hout, hlen, hsame⟩ := r.rotate
  rw [← hlen] at hfuel ⊢
  rcases mallocLoop_round (n := n) hchain hout hfuel with ⟨p, hp, hfit, heq⟩ | ⟨hall, heq⟩
  · obtain ⟨us, t, vs, rfl, rfl, hptr⟩ := r.found ((hsame p).mp hp) hn hfit
    rw [hptr] at hfit heq
    obtain ⟨ret, h', htake, he, fr', t', hrep, hret, hlen⟩ := r.wp_takeBlock hn hfit
    exact .inl ⟨ret, h', heq.trans htake, fr', t', he.base, he.brk.ge, hrep, hret, hlen⟩
  · refine .inr ⟨fun t ht => ?_, heq⟩
    have hin : t.addr ∈ xs ++ [h.freep] := by
      have := (hsame t.addr).mpr (mem_cons_of_mem _ (mem_map_of_mem ht))
      simp only [mem_append, mem_cons, not_mem_nil, or_false] at this ⊢
      tauto
    rw [(r.size t (Multiset.mem_add.mpr (.inl ht))).2]
    exact mul_lt_mul_of_pos_left (hall t.addr hin) (by decide)

/-- **The loop of `malloc`** fails without a trace, or returns a block. -/
theorem Rep.wp_mallocLoop (r : Rep h start fr lv) (hn : 0 < n) (hlt : HEADER * n < 2 ^ 31) :
    wp (mallocLoop n (2 * maxHeaders) h.freep (h.ptr h.freep)) (fun ret h' =>
      (ret = 0 ∧ h' = { h with fails := h.fails.tail }) ∨ ∃ fr' t, Given h h' start lv n ret fr' t) h := by
  have hlen := r.length_lt
  rcases r.round hn (2 * maxHeaders) (by omega) with hgiven | ⟨-, heq⟩
  · exact wp_mono hgiven fun _ _ hg => .inr hg
  · rw [wp, heq]
    refine wp_seq (r.wp_morecore hlt) ?_
    rintro p h1 (⟨rfl, rfl⟩ | ⟨hp, hne, hbase, hbrk, fr1, r1, t, ht, hfit⟩)
    · exact wp_pure (.inl ⟨rfl, rfl⟩)
    · rw [if_neg hne]
      refine wp_bind (wp_get ?_)
      -- the new block is large enough for the second round
      have hlen1 := r1.length_lt
      rw [hp]
      rcases r1.round hn (2 * maxHeaders - (fr.length + 1)) (by omega) with hgiven | ⟨hsmall, -⟩
      · refine wp_mono hgiven ?_
        rintro ret h2 ⟨fr2, t2, hg⟩
        exact .inr ⟨fr2, t2, hg.base.trans hbase, hbrk.trans hg.grows, hg.rep, hg.ret, hg.len⟩
      · have := hsmall t ht
        omega

/-! ## `malloc` -/

/-- The heap before the first `malloc`. -/
structure Fresh (h : Heap) (start : Nat) : Prop where
  freep : h.freep = 0
  base : 0 < h.base ∧ h.base + HEADER ≤ start
  brk : h.brk = start
  limit : start ≤ USERMAX

/-- The free blocks are `fr` and the live ones are `lv`; before the first `malloc` there are none. -/
def HeapAt (h : Heap) (start : Nat) (fr : List Tile) (lv : Multiset Tile) : Prop :=
  (Fresh h start ∧ fr = [] ∧ lv = 0) ∨ Rep h start fr lv

/-- The list that the first `malloc` makes. -/
theorem Fresh.rep (f : Fresh h start) :
    Rep (({ h with freep := h.base }.withPtr h.base h.base).withSize h.base 0) start [] 0 := by
  have hbase : h.base < 2 ^ 64 := by
    have hmax : USERMAX < 2 ^ 64 := by decide
    have hlow := f.base
    have hlim := f.limit
    omega
  refine ⟨⟨f.base, ⟨f.brk.ge, f.brk.le.trans f.limit⟩, ?_, fun t ht => ?_, ?_⟩, List.Pairwise.nil, ?_,
    mem_cons_self⟩
  · have hnone := tiles_nil start
    rw [← f.brk] at hnone ⊢
    exact hnone
  · exact absurd ht (Multiset.notMem_zero t)
  · exact (size_withSize (.inl rfl) (by decide)).trans (if_pos rfl)
  · refine isChain_cons_cons.mpr ⟨?_, isChain_singleton _⟩
    exact (ptr_withSize (.inl rfl)).trans ((ptr_withPtr (.inl rfl) hbase).trans (if_pos rfl))

/-- The units for a request, with the header. -/
def units (nbytes : Nat) : Nat := (nbytes + HEADER - 1) / HEADER + 1

theorem le_units (nbytes : Nat) : HEADER + nbytes ≤ HEADER * units nbytes := by
  unfold units HEADER
  omega

/-- **`malloc`** returns 0 and the blocks are as they were, or returns a block. -/
theorem HeapAt.wp_malloc (a : HeapAt h start fr lv) (hlt : HEADER * units nbytes < 2 ^ 31) :
    wp (malloc nbytes) (fun ret h' =>
      (ret = 0 ∧ h'.brk = h.brk ∧ HeapAt h' start fr lv ∧ (h.freep ≠ 0 → h'.mem = h.mem ∧ h'.freep = h.freep)) ∨
      ∃ fr' t, Given h h' start lv (units nbytes) ret fr' t) h := by
  have hunits : ((nbytes + HEADER - 1) / HEADER + 1) % 2 ^ 32 = units nbytes := by
    refine mod_eq_of_lt ?_
    have : HEADER * units nbytes < HEADER * 2 ^ 32 := hlt.trans (by decide)
    exact Nat.lt_of_mul_lt_mul_left this
  rw [malloc]
  simp only [hunits]
  refine wp_bind (wp_get ?_)
  rcases a with ⟨f, rfl, rfl⟩ | r
  · rw [if_pos f.freep]
    refine wp_bind (wp_modify (wp_bind (wp_modify (wp_bind (wp_modify ?_)))))
    refine wp_bind (wp_get (wp_bind (wp_get ?_)))
    refine wp_mono (f.rep.wp_mallocLoop (succ_pos _) hlt) ?_
    rintro ret h' (⟨rfl, rfl⟩ | ⟨fr', t, hg⟩)
    · refine .inl ⟨rfl, rfl, .inr ?_, fun hne => absurd f.freep hne⟩
      exact ⟨⟨f.rep.base, f.rep.limit, f.rep.tiles, f.rep.size, f.rep.base_size⟩, f.rep.sorted, f.rep.links,
        f.rep.freep⟩
    · exact .inr ⟨fr', t, hg.base, hg.grows, hg.rep, hg.ret, hg.len⟩
  · rw [if_neg r.freep_ne]
    refine wp_bind (wp_pure (wp_bind (wp_get (wp_bind (wp_get ?_)))))
    refine wp_mono (r.wp_mallocLoop (succ_pos _) hlt) ?_
    rintro ret h' (⟨rfl, rfl⟩ | hg)
    · exact .inl ⟨rfl, rfl, .inr ⟨⟨r.base, r.limit, r.tiles, r.size, r.base_size⟩, r.sorted, r.links, r.freep⟩,
        fun _ => ⟨rfl, rfl⟩⟩
    · exact .inr hg

/-! ## Programs -/

/-- A byte of a block that is not in its header is written. -/
theorem Rep.write (r : Rep h start fr lv) (ht : t ∈ lv) (hlow : t.addr + HEADER ≤ a)
    (hhigh : a < t.addr + t.len) (v : Byte) :
    Rep { h with mem := store 1 h.mem a v } start fr lv := by
  have hmem : t ∈ (↑fr) + lv := Multiset.mem_add.mpr (.inr ht)
  have hpos : 0 < HEADER := by decide
  have hout : ∀ p, IsHeader h (↑fr + lv) p → a + 1 ≤ p ∨ p + 16 ≤ a := by
    rintro p (rfl | ⟨s, hs, rfl⟩)
    · have hbase : h.base + 16 ≤ t.addr := r.base_le hmem
      omega
    · have hlow : t.addr + 16 ≤ a := hlow
      by_cases hst : s = t
      · subst s
        omega
      · have hlen : 16 ≤ s.len := r.header_le hs
        rcases r.tiles.apart hs hmem hst (r.size s hs).1 (r.size t hmem).1 with hle | hle <;> omega
  have hsize : ∀ p, IsHeader h (↑fr + lv) p →
      Heap.size { h with mem := store 1 h.mem a v } p = h.size p := fun p hp => by
    have := hout p hp
    rw [Heap.size, load_store_of_disjoint _ _ (by omega)]
    rfl
  have hptr : ∀ p, IsHeader h (↑fr + lv) p →
      Heap.ptr { h with mem := store 1 h.mem a v } p = h.ptr p := fun p hp => by
    have := hout p hp
    rw [Heap.ptr, load_store_of_disjoint _ _ (by omega)]
    rfl
  refine ⟨⟨r.base, r.limit, r.tiles, fun s hs => ?_, ?_⟩, r.sorted, isChain_ptr r.links fun p hp => ?_, r.freep⟩
  · rw [hsize s.addr (.inr ⟨s, hs, rfl⟩)]
    exact r.size s hs
  · exact (hsize h.base (.inl rfl)).trans r.base_size
  · rw [← cons_append, dropLast_concat] at hp
    exact hptr p (isHeader_of_mem (fun s hs => by simp [hs]) hp)

/-- A program with its heap, and the blocks that it was given and did not free: their addresses and the
numbers of bytes that it asked for. -/
structure Client where
  heap : Heap
  live : List Tile

inductive ClientAct where
  | malloc (nbytes : Nat)
  | free (ap : Nat)
  | write (a : Nat) (v : Byte)

/-- Why there is no next state: the program did what it may not do, or a loop has no end. -/
inductive ClientFault where
  | caller
  | stuck (msg : String)
deriving DecidableEq

def Client.step (s : Client) : ClientAct → Except ClientFault Client
  | .malloc nbytes =>
    if ((nbytes + 15) / 16 + 1) * 16 < 2 ^ 31 then
      match malloc nbytes s.heap with
      | .error e => .error (.stuck e)
      | .ok (p, h) => .ok ⟨h, if p = 0 then s.live else ⟨p, nbytes⟩ :: s.live⟩
    else .error .caller
  | .free ap =>
    if ∃ b ∈ s.live, b.addr = ap then
      match free ap s.heap with
      | .error e => .error (.stuck e)
      | .ok (_, h) => .ok ⟨h, s.live.eraseP fun b => b.addr = ap⟩
    else .error .caller
  | .write a v =>
    if ∃ b ∈ s.live, b.Covers a then
      .ok { s with heap := { s.heap with mem := store 1 s.heap.mem a v } }
    else .error .caller

/-- `b` is what the program sees of the block `t`. -/
def Payload (t b : Tile) : Prop := b.addr = t.addr + HEADER ∧ b.addr + b.len ≤ t.addr + t.len

/-- The heap of a program, with its free blocks `fr` and its live blocks `lv`. -/
structure HeapOk (start : Nat) (s : Client) (fr lv : List Tile) : Prop where
  heap : HeapAt s.heap start fr lv
  live : List.Forall₂ Payload lv s.live

variable {s s' : Client} {ls : List Tile}

/-- One call of `malloc`. -/
theorem HeapOk.wp_malloc (ok : HeapOk start s fr ls)
    (hlt : ((nbytes + 15) / 16 + 1) * 16 < 2 ^ 31) :
    wp (malloc nbytes) (fun ret h' =>
      (ret = 0 ∧ h'.brk = s.heap.brk ∧ HeapOk start { s with heap := h' } fr ls ∧
        (s.heap.freep ≠ 0 → h'.mem = s.heap.mem ∧ h'.freep = s.heap.freep)) ∨
      (ret ≠ 0 ∧ ∃ fr' t, HeapOk start ⟨h', ⟨ret, nbytes⟩ :: s.live⟩ fr' (t :: ls))) s.heap := by
  have hunits : HEADER * units nbytes < 2 ^ 31 := by
    unfold units HEADER
    omega
  refine wp_mono (ok.heap.wp_malloc hunits) ?_
  rintro ret h' (⟨rfl, hbrk, ha, hsame⟩ | ⟨fr', t, hg⟩)
  · exact .inl ⟨rfl, hbrk, ⟨ha, ok.live⟩, hsame⟩
  · have hpos : 0 < HEADER := by decide
    have hle := le_units nbytes
    refine .inr ⟨by rw [hg.ret]; omega, fr', t, .inr ?_, List.Forall₂.cons ⟨hg.ret, ?_⟩ ok.live⟩
    · rw [← Multiset.cons_coe, ← Multiset.singleton_add]
      exact hg.rep
    · have hret := hg.ret
      have hlen := hg.len
      simp only
      omega

/-- One call of `free`. -/
theorem HeapOk.wp_free (ok : HeapOk start s fr ls) (hap : ∃ b ∈ s.live, b.addr = ap) :
    wp (free ap) (fun _ h' => ∃ fr' lv', HeapOk start ⟨h', s.live.eraseP fun b => b.addr = ap⟩ fr' lv')
      s.heap := by
  obtain ⟨b, hb, hbap⟩ := hap
  obtain ⟨b, l1, l2, -, hbap, hlive, herase⟩ :=
    exists_of_eraseP (p := fun b : Tile => decide (b.addr = ap)) hb (decide_eq_true hbap)
  -- the block of the payload that is freed
  have hall := ok.live
  rw [hlive] at hall
  have hfront := forall₂_take_append _ _ _ hall
  have hback := forall₂_drop_append _ _ _ hall
  obtain ⟨t, m2, ht, hback, hdrop⟩ := forall₂_cons_right_iff.mp hback
  have hls : ls = ls.take l1.length ++ t :: m2 := by rw [← hdrop, take_append_drop]
  have hap : ap = t.addr + HEADER := (of_decide_eq_true hbap).symm.trans ht.1
  rcases ok.heap with ⟨-, -, hnone⟩ | r
  · rw [hls] at hnone
    simp at hnone
  · have hsum : (↑ls : Multiset Tile) = {t} + ↑(ls.take l1.length ++ m2) := by
      rw [hls, take_left' (by simp [hfront.length_eq]), ← Multiset.coe_add, ← Multiset.coe_add,
        ← Multiset.cons_coe, ← Multiset.singleton_add]
      abel
    rw [hsum] at r
    rw [hap]
    refine wp_mono r.wp_free ?_
    rintro - h' ⟨-, fr', hrep, -⟩
    refine ⟨fr', ls.take l1.length ++ m2, .inr hrep, ?_⟩
    rw [← hap, herase]
    exact rel_append hfront hback

theorem exists_payload (h : List.Forall₂ Payload ls bs) (hb : b ∈ bs) :
    ∃ t ∈ ls, Payload t b := by
  induction h with
  | nil => exact nomatch hb
  | cons hpay hrest ih =>
    rcases mem_cons.mp hb with rfl | hb
    · exact ⟨_, mem_cons_self, hpay⟩
    · obtain ⟨t, ht, hpay⟩ := ih hb
      exact ⟨t, mem_cons_of_mem _ ht, hpay⟩

/-- A write to a live block. -/
theorem HeapOk.write (ok : HeapOk start s fr ls) (ha : ∃ b ∈ s.live, b.Covers a) (v : Byte) :
    HeapOk start { s with heap := { s.heap with mem := store 1 s.heap.mem a v } } fr ls := by
  obtain ⟨b, hb, hcov⟩ := ha
  obtain ⟨t, ht, haddr, hend⟩ := exists_payload ok.live hb
  rcases ok.heap with ⟨-, -, hnone⟩ | r
  · rw [(Multiset.coe_eq_zero ls).mp hnone] at ht
    exact nomatch ht
  · refine ⟨.inr (r.write ht ?_ ?_ v), ok.live⟩
    · exact haddr ▸ hcov.1
    · exact hcov.2.trans_le hend

/-- **One step** keeps the heap, and does not get stuck. -/
theorem HeapOk.step (ok : HeapOk start s fr ls) (a : ClientAct) :
    (∀ msg, s.step a ≠ .error (.stuck msg)) ∧
      ∀ s', s.step a = .ok s' → ∃ fr' lv', HeapOk start s' fr' lv' := by
  cases a with
  | malloc nbytes =>
    rw [Client.step]
    by_cases hlt : ((nbytes + 15) / 16 + 1) * 16 < 2 ^ 31
    · obtain ⟨ret, h', hrun, hpost⟩ := ok.wp_malloc hlt
      rw [if_pos hlt, hrun]
      refine ⟨fun _ hstuck => (nomatch hstuck), fun s' hs' => ?_⟩
      cases hs'
      rcases hpost with ⟨rfl, -, hok, -⟩ | ⟨hne, fr', t, hok⟩
      · exact ⟨fr, ls, hok⟩
      · rw [if_neg hne]
        exact ⟨fr', t :: ls, hok⟩
    · rw [if_neg hlt]
      exact ⟨fun _ hstuck => (nomatch hstuck), fun _ hs' => (nomatch hs')⟩
  | free ap =>
    rw [Client.step]
    by_cases hap : ∃ b ∈ s.live, b.addr = ap
    · obtain ⟨_, h', hrun, hpost⟩ := ok.wp_free hap
      rw [if_pos hap, hrun]
      refine ⟨fun _ hstuck => (nomatch hstuck), fun s' hs' => ?_⟩
      cases hs'
      exact hpost
    · rw [if_neg hap]
      exact ⟨fun _ hstuck => (nomatch hstuck), fun _ hs' => (nomatch hs')⟩
  | write a v =>
    rw [Client.step]
    by_cases ha : ∃ b ∈ s.live, b.Covers a
    · rw [if_pos ha]
      refine ⟨fun _ hstuck => (nomatch hstuck), fun s' hs' => ?_⟩
      cases hs'
      exact ⟨fr, ls, ok.write ha v⟩
    · rw [if_neg ha]
      exact ⟨fun _ hstuck => (nomatch hstuck), fun _ hs' => (nomatch hs')⟩

/-- Payloads are apart where their blocks are. -/
theorem pairwise_payload (h : List.Forall₂ Payload ls bs) (hap : ls.Pairwise Tile.Apart) :
    bs.Pairwise Tile.Apart := by
  induction h with
  | nil => exact List.Pairwise.nil
  | cons hpay hrest ih =>
    obtain ⟨hfirst, hap⟩ := pairwise_cons.mp hap
    refine pairwise_cons.mpr ⟨fun c hc => ?_, ih hap⟩
    obtain ⟨u, hu, hupay⟩ := exists_payload hrest hc
    have := hfirst u hu
    unfold Payload at hpay hupay
    unfold Tile.Apart at this ⊢
    omega

/-- The live blocks of a program are inside the memory from `sbrk`, apart from each other and from the free
blocks. -/
structure LiveOk (start : Nat) (s : Client) (fr : List Tile) : Prop where
  inside : ∀ b ∈ s.live, start ≤ b.addr ∧ b.addr + b.len ≤ s.heap.brk
  apart : s.live.Pairwise Tile.Apart
  free : ∀ b ∈ s.live, ∀ t ∈ fr, t.Apart b

theorem HeapOk.liveOk (ok : HeapOk start s fr ls) : LiveOk start s fr := by
  rcases ok.heap with ⟨-, rfl, hnone⟩ | r
  · have hlive := ok.live
    rw [(Multiset.coe_eq_zero ls).mp hnone] at hlive
    have hnil := forall₂_nil_left_iff.mp hlive
    refine ⟨?_, ?_, ?_⟩ <;> rw [hnil]
    · exact fun _ hb => (nomatch hb)
    · exact List.Pairwise.nil
    · exact fun _ hb => (nomatch hb)
  · have hlist : Tiles (↑(fr ++ ls) + 0) start s.heap.brk := by
      rw [add_zero, ← Multiset.coe_add]
      exact r.tiles
    have hpair := hlist.pairwise fun t ht =>
      (r.size t (by rw [Multiset.coe_add]; exact ht)).1
    obtain ⟨-, hls, hcross⟩ := pairwise_append.mp hpair
    refine ⟨fun b hb => ?_, pairwise_payload ok.live hls, fun b hb t ht => ?_⟩
    · obtain ⟨t, ht, haddr, hend⟩ := exists_payload ok.live hb
      have hin := r.inside (Multiset.mem_add.mpr (.inr ht))
      omega
    · obtain ⟨u, hu, haddr, hend⟩ := exists_payload ok.live hb
      have := hcross t ht u hu
      unfold Tile.Apart at this ⊢
      omega

/-- **The heap of a user program.**  No run gets stuck.  In every state that is reached, the free list goes from
`base` through the free blocks in the order of their addresses and back, without two that touch; the free and
the live blocks tile the memory from `sbrk`; every block that `malloc` returned has the bytes asked for inside
one of the live blocks; and a `malloc` that returns 0 leaves all of this as it was. -/
theorem malloc_free_heap (hfresh : Fresh s.heap start) (hnone : s.live = []) (as : List ClientAct) :
    (∀ msg, run Client.step s as ≠ .error (.stuck msg)) ∧
    ∀ s', run Client.step s as = .ok s' → ∃ fr ls, HeapOk start s' fr ls ∧ LiveOk start s' fr ∧
      ∀ nbytes h', ((nbytes + 15) / 16 + 1) * 16 < 2 ^ 31 → malloc nbytes s'.heap = .ok (0, h') →
        h'.brk = s'.heap.brk ∧ HeapOk start { s' with heap := h' } fr ls ∧
          (s'.heap.freep ≠ 0 → h'.mem = s'.heap.mem ∧ h'.freep = s'.heap.freep) := by
  have hok : ∃ fr ls, HeapOk start s fr ls :=
    ⟨[], [], .inl ⟨hfresh, rfl, rfl⟩, by rw [hnone]; exact List.Forall₂.nil⟩
  have hinv : ∀ {as s'}, run Client.step s as = .ok s' → ∃ fr ls, HeapOk start s' fr ls := fun hrun =>
    run_invariant (I := fun s => ∃ fr ls, HeapOk start s fr ls)
      (fun _ a s' ⟨_, _, ok⟩ hs' => (ok.step a).2 s' hs') hrun hok
  refine ⟨fun msg hstuck => ?_, fun s' hrun => ?_⟩
  · obtain ⟨pre, a, post, t, -, hpre, hstep⟩ := run_error_iff.mp hstuck
    obtain ⟨fr, ls, ok⟩ := hinv hpre
    exact (ok.step a).1 msg hstep
  · obtain ⟨fr, ls, ok⟩ := hinv hrun
    refine ⟨fr, ls, ok, ok.liveOk, fun nbytes h' hlt hmalloc => ?_⟩
    obtain ⟨ret, h'', hrun', hpost⟩ := ok.wp_malloc hlt
    rw [hmalloc] at hrun'
    cases hrun'
    rcases hpost with ⟨-, hbrk, hok', hsame⟩ | ⟨hne, -⟩
    · exact ⟨hbrk, hok', hsame⟩
    · exact absurd rfl hne

/-- A program without memory; its second `sbrk` fails. -/
def tinyClient : Client where
  heap := { mem := fun _ => 0, base := 256, freep := 0, brk := 16384, fails := [false, true] }
  live := []

def tinyActs : List ClientAct := [.malloc 100, .malloc 20, .write 81760 1, .free 81808, .malloc 70000]

/-- After a run in which a block is cut twice, one of the pieces is freed and a request fails, one block is
live. -/
theorem malloc_free_heap_tiny :
    ∃ s', run Client.step tinyClient tinyActs = .ok s' ∧ s'.live = [⟨81760, 20⟩] ∧
      ∃ fr ls, HeapOk 16384 s' fr ls ∧ LiveOk 16384 s' fr := by
  have hlive : (run Client.step tinyClient tinyActs).toOption.map Client.live = some [⟨81760, 20⟩] := by
    decide +kernel
  have hfresh : Fresh tinyClient.heap 16384 := ⟨rfl, by decide, rfl, by decide⟩
  obtain ⟨s', hrun, hs⟩ := ok_of_map hlive
  obtain ⟨fr, ls, hok, hl, -⟩ := (malloc_free_heap hfresh rfl tinyActs).2 s' hrun
  exact ⟨s', hrun, hs, fr, ls, hok, hl⟩

end Xv6
