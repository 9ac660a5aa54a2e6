/-
# Xv6.Proc.Stack — the user stack, and the image that `exec` commits to (`kernel/exec.c`).

Above the segments come an inaccessible page and a page for the stack.  The strings of `argv` are
pushed on it from the top, and below them the array of their addresses with a null pointer at its end.
`exec` up to the commit gives a complete address space that holds the segments and this stack, or all
its pages are free again.
-/
import Xv6.Proc.Segments
import Mathlib.Data.List.Find

namespace Xv6

open Lib Lib.Store Lib.Prog Multiset List Nat

variable {argv ps : List Nat} {m u : Store} {lo sp : Nat}

variable {s₀ s s' : Mach} {root sz trapframe usyscall : Nat} {guard : Option Nat} {F : Multiset Nat}

/-! ## The guard page -/

theorem mul_PGSIZE_lt (h : n ≤ vUSYSCALL) : n * PGSIZE < MAXVA :=
  (mul_le_mul_right PGSIZE h).trans_lt (by decide)

/-- Rounding the size up changes nothing. -/
theorem Building.roundup (b : Building s₀ root sz trapframe usyscall guard s) :
    npages (PGROUNDUP sz) = npages sz ∧
      Building s₀ root (PGROUNDUP sz) trapframe usyscall guard s := by
  have hnp := b.space.npages_lt.1
  have heq : npages (PGROUNDUP sz) = npages sz := by
    rw [PGROUNDUP_eq]
    exact npages_mul (hnp.trans_lt (by decide))
  refine ⟨heq, ?_, b.space.root_dvd, b.space.linked, ?_, ?_, ?_⟩
  · rw [spacePages, heq]
    exact b.moves
  · rw [PGROUNDUP_eq]
    exact (mul_PGSIZE_lt hnp).le
  · rw [heq]
    exact b.space.layout
  · rw [heq]
    exact b.space.user

/-- `uvmclear` makes a user page the guard page. -/
theorem Building.wp_uvmclear (h : Idle s₀ ({usyscall} + F))
    (b : Building s₀ root sz trapframe usyscall none s) (hv : v < npages sz) :
    wp (uvmclear root (v * PGSIZE)) (fun _ s' =>
      Building s₀ root sz trapframe usyscall (some v) s' ∧
      ∀ c, Filled s.mem root sz none c → Filled s'.mem root sz (some v) c) s := by
  obtain ⟨h1, h2, h3, h4⟩ := vUSYSCALL_lt
  obtain ⟨hnp, hlt⟩ := b.space.npages_lt
  have hva : v * PGSIZE < MAXVA := mul_PGSIZE_lt (by omega)
  rcases uvmclear_cases (b.own h).tree hva with ⟨hz, -⟩ | ⟨s', hrun, hset⟩
  · rw [vpn_mul] at hz
    have := (b.space.layout.user v hv).1
    rw [hz] at this
    cases this
  rw [vpn_mul] at hset
  have hent := hset.entry
  have hbit : ∀ w < npages sz, ∀ i, i < 64 → i ≠ 4 ∨ w ≠ v →
      (ptEntry s'.mem root w).getLsbD i = (ptEntry s.mem root w).getLsbD i := by
    intro w hw i hi hne
    rw [hent w (by omega)]
    split
    · subst w
      rw [BitVec.getLsbD_and, BitVec.getLsbD_not, PTE_U,
        getLsbD_bit_ne (hne.resolve_right (not_not.mpr rfl))]
      simp [hi]
    · rfl
  have hpa : ∀ w < npages sz, PTE2PA (ptEntry s'.mem root w) = PTE2PA (ptEntry s.mem root w) := by
    intro w hw
    rw [hent w (by omega)]
    split
    · subst w
      exact PTE2PA_and_not (x := PTE_U) (by decide)
    · rfl
  have hpages : spacePages s'.mem root sz = spacePages s.mem root sz := by
    rw [spacePages, spacePages, hset.pages, mapped_congr_page fun w _ hw => hpa w (by omega)]
  have hfilled : ∀ c, Filled s.mem root sz none c → Filled s'.mem root sz (some v) c := by
    intro c hf
    refine ⟨fun va hva => ?_, hf.above, fun w hw => ?_⟩
    · have hlt := div_lt_npages.mpr hva
      have hin : PTE2PA (ptEntry s.mem root (va / PGSIZE)) ∈
          (mapped (ptEntry s.mem root) 0 (npages sz)) :=
        mem_mapped.mpr ⟨_, zero_le _, by omega, rfl⟩
      rw [← hf.bytes va hva, userView, userView, physAddr, hpa _ hlt, ← physAddr]
      refine hset.touches.mem _ ?_
      rw [PGROUNDDOWN_physAddr]
      exact ((b.own h).notMem hin).1
    · obtain rfl := Option.some.inj hw
      refine ⟨hv, ?_⟩
      rw [hent v (by omega), if_pos rfl, BitVec.getLsbD_and, BitVec.getLsbD_not]
      simp [PTE_U]
  refine ⟨_, _, hrun, ⟨b.moves.trans ?_, b.space.root_dvd, hset.tree.linked, b.space.size, ?_, ?_⟩,
    hfilled⟩
  · rw [hpages]
    exact (hset.touches.mono (subset_of_le (le_add_right _ _))).moves
      hset.freelist hset.refreed
  · refine b.space.layout.resize hnp (fun w hw => ?_) (fun w hw hw' => ?_) fun w hw hge => ?_
    · rw [hbit w hw 0 (by omega) (.inl (by omega)), hbit w hw 1 (by omega) (.inl (by omega))]
      exact b.space.layout.user w hw
    · rw [hent w (by omega), if_neg (by omega)]
      exact b.space.unmapped hw hw'
    · rw [hent w hw, if_neg (by omega)]
  · intro w hw hg
    rw [hbit w hw 4 (by omega) (.inr fun heq => hg (heq ▸ rfl))]
    exact b.space.user w hw (by simp)

/-! ## Strings -/

theorem strlen_lt (m : Store) (a : Nat) : strlen m a + 1 ≤ PGSIZE := by
  have hpos : 0 < PGSIZE := by decide
  rw [strlen]
  cases hfind : (List.range (PGSIZE - 1)).find? fun n => decide (m (a + n) = 0) with
  | none =>
    rw [Option.getD_none]
    omega
  | some n =>
    have := List.mem_range.mp (List.mem_of_find?_eq_some hfind)
    rw [Option.getD_some]
    omega

theorem strlen_congr (h : ∀ n < PGSIZE, m' (a + n) = m (a + n)) :
    strlen m' a = strlen m a := by
  have hfind : ((List.range (PGSIZE - 1)).find? fun n => decide (m' (a + n) = 0)) =
      (List.range (PGSIZE - 1)).find? fun n => decide (m (a + n) = 0) := by
    refine find?_congr fun n hn => ?_
    have := List.mem_range.mp hn
    rw [h n (by omega)]
  rw [strlen, strlen, hfind]

/-- Pushing what fits. -/
theorem push_le (hn : n ≤ sp) (hsp : sp < 2 ^ 64) :
    push sp n + n ≤ sp ∧ push sp n % 16 = 0 := by
  rw [push]
  have : (sp + 2 ^ 64 - n) % 2 ^ 64 = sp - n := by omega
  rw [this]
  omega

/-- In `u` the strings of `m` at `argv` are at the addresses `ps`, each below the one before; the first
is below `sp`, and the last begins at `lo`. -/
inductive Pushed (m u : Store) : Nat → List Nat → List Nat → Nat → Prop
  | nil {sp : Nat} : Pushed m u sp [] [] sp
  | cons {sp arg p lo : Nat} {argv ps : List Nat} (fits : p + (strlen m arg + 1) ≤ sp)
      (bytes : ∀ j < strlen m arg + 1, u (p + j) = m (arg + j))
      (rest : Pushed m u p argv ps lo) : Pushed m u sp (arg :: argv) (p :: ps) lo

theorem Pushed.le (h : Pushed m u sp argv ps lo) : lo ≤ sp := by
  induction h with
  | nil => exact le_rfl
  | cons fits _ _ ih => omega

theorem Pushed.length (h : Pushed m u sp argv ps lo) : ps.length = argv.length := by
  induction h with
  | nil => rfl
  | cons _ _ _ ih => rw [length_cons, length_cons, ih]

/-- What is written elsewhere does not matter to the strings. -/
theorem Pushed.congr (h : Pushed m u sp argv ps lo)
    (hu : ∀ x, lo ≤ x → x < sp → u' x = u x) : Pushed m u' sp argv ps lo := by
  induction h with
  | nil => exact .nil
  | cons fits bytes rest ih =>
    have := rest.le
    refine .cons fits (fun j hj => ?_) (ih fun x h1 h2 => hu x h1 (by omega))
    rw [hu _ (by omega) (by omega), bytes j hj]

section

variable (h : Idle s₀ ({usyscall} + F)) (b : Building s₀ root sz trapframe usyscall guard s)

include h b

/-- Pages in use elsewhere are as they were. -/
theorem Building.kept (hq : q ∈ F) : ∀ n < PGSIZE, s.mem (q + n) = s₀.mem (q + n) := by
  intro n hn
  have hidle : Idle s₀ (0 + ({usyscall} + F)) := by rwa [zero_add]
  have hpage := h.page q (mem_add.mpr (.inr (mem_add.mpr (.inr hq))))
  refine b.moves.eqOff_frame hidle ?_
  rw [PGROUNDDOWN_of_mem hpage.1 (le_add_right q n) (by omega)]
  exact mem_add.mpr (.inr hq)

/-- **The loop over `argv`** writes to the stack page only, and pushes every string. -/
theorem pushArgs_run
    (hbase : PGSIZE ≤ stackbase) (hargs : ∀ a ∈ argv, a ∈ F) (sp : Nat) (ustack : List Nat)
    (hsp : stackbase ≤ sp) (hsz : sp ≤ sz) (hlen : ustack.length ≤ MAXARG) :
    wp (pushArgs root stackbase argv sp ustack) (fun r s' =>
      Building s₀ root sz trapframe usyscall guard s' ∧
      ∀ x, r = some x → stackbase ≤ x.1 ∧ x.1 ≤ sz ∧ x.2.length ≤ MAXARG ∧
        x.2.length = ustack.length + argv.length ∧
        ∀ c, Filled s.mem root sz guard c → ∃ ps u, x.2 = ustack ++ ps ∧
          Pushed s₀.mem u sp argv ps x.1 ∧ Filled s'.mem root sz guard u ∧
          ∀ va, va < x.1 ∨ sp ≤ va → u va = c va) s := by
  induction argv generalizing sp ustack s with
  | nil =>
    refine wp_pure ⟨b, fun x hx => ?_⟩
    cases hx
    exact ⟨hsp, hsz, hlen, rfl, fun c hf =>
      ⟨[], c, (append_nil ustack).symm, .nil, hf, fun _ _ => rfl⟩⟩
  | cons arg argv ih =>
    rw [pushArgs]
    split
    · exact wp_pure ⟨b, fun _ hx => nomatch hx⟩
    refine wp_bind (wp_get ?_)
    dsimp only
    have hpage := b.kept h (hargs arg mem_cons_self)
    rw [strlen_congr hpage]
    set len := strlen s₀.mem arg + 1 with hlen'
    have hstr : len ≤ PGSIZE := strlen_lt s₀.mem arg
    have hlt : sp < 2 ^ 64 := by
      have := b.space.size
      unfold MAXVA at this
      omega
    obtain ⟨hpush, -⟩ := push_le (n := len) (by omega) hlt
    split
    · exact wp_pure ⟨b, fun _ hx => nomatch hx⟩
    refine wp_seq (b.wp_copyout h _ (by omega)) ?_
    rintro r s₁ ⟨b1, hfill⟩
    split
    · exact wp_pure ⟨b1, fun _ hx => nomatch hx⟩
    rename_i hr
    have hlen1 : (ustack ++ [push sp len]).length ≤ MAXARG := by
      rw [length_append, length_singleton]
      omega
    refine wp_mono (ih b1 (fun a ha => hargs a (mem_cons_of_mem arg ha)) _ _ (by omega) (by omega)
      hlen1) ?_
    rintro r' s₂ ⟨b2, hres⟩
    refine ⟨b2, fun x hx => ?_⟩
    obtain ⟨hlo, hhi, hmax, hcount, hbytes⟩ := hres x hx
    rw [length_append, length_singleton] at hcount
    refine ⟨hlo, hhi, hmax, by rw [hcount, length_cons]; omega, fun c hf => ?_⟩
    obtain ⟨ps, u, hps, hpushed, hf2, hsame⟩ := hbytes _ (hfill c hf hr)
    have hle := hpushed.le
    refine ⟨push sp len :: ps, u, by rw [hps, append_assoc]; rfl, .cons hpush (fun j hj => ?_) hpushed,
      hf2, fun va hva => ?_⟩
    · rw [hsame _ (.inr (Nat.le_add_right _ _)), fill_of_mem _ _ (Nat.le_add_right _ _) (by omega),
        Nat.add_sub_cancel_left, hpage j (by omega)]
    · rw [hsame va (by omega), fill_of_not_mem _ _ (by omega)]

end

/-! ## The image -/

/-- The arguments on the stack below `top`: the strings at `ps`, and at `sp` the array of their addresses
with a null pointer at its end. -/
structure ArgsAt (m u : Store) (argv ps : List Nat) (top sp : Nat) : Prop where
  strings : ∃ lo, Pushed m u top argv ps lo ∧ sp + 8 * (ps.length + 1) ≤ lo
  array : ∀ i ≤ ps.length, load 8 u (sp + 8 * i) = BitVec.ofNat 64 (ps.getD i 0)

/-- Word `i` of an array. -/
theorem load_words
    (h : ∀ j < 8 * (ws.length + 1), u (a + j) = wordsByte ws j) (hi : i ≤ ws.length) :
    load 8 u (a + 8 * i) = BitVec.ofNat 64 (ws.getD i 0) := by
  refine load_eq fun j hj => ?_
  rw [add_assoc, h _ (by omega), wordsByte, show (8 * i + j) / 8 = i by omega,
    show (8 * i + j) % 8 = j by omega]
  rfl

/-- What a stack and its image are: the arguments are in the page above the guard page, and below it user
memory is as it was. -/
structure StackOf (s₀ : Mach) (argv : List Nat) (root sz : Nat) (c : Store) (img : Image) (s : Mach) :
    Prop where
  pagetable : img.pagetable = root
  size : img.sz = npages sz * PGSIZE + 2 * PGSIZE
  argc : img.argc = argv.length
  aligned : img.sp % 16 = 0
  base : img.sz - PGSIZE ≤ img.sp
  user : ∃ ps u, Filled s.mem root img.sz (some img.guard) u ∧ ArgsAt s₀.mem u argv ps img.sz img.sp ∧
    ∀ va < img.sz - PGSIZE, u va = c va

/-- **The stack** is complete, or the address space is given up. -/
theorem Building.wp_buildStack (h : Idle s₀ ({usyscall} + F)) (hk : KERNBASE ≤ s₀.kend)
    (b : Building s₀ root sz trapframe usyscall none s) (entry : Nat) (hargs : ∀ a ∈ argv, a ∈ F) :
    wp (buildStack root sz entry argv) (fun r s' => (r = none ∧ Moves 0 0 s₀ s') ∨
      ∃ img, r = some img ∧
        Building s₀ img.pagetable img.sz trapframe usyscall (some img.guard) s' ∧
        img.entry = entry ∧
        ∀ c, Filled s.mem root sz none c → StackOf s₀ argv root sz c img s') s := by
  obtain ⟨heq, b⟩ := b.roundup
  have hup : PGROUNDUP sz = npages sz * PGSIZE := PGROUNDUP_eq sz
  have hmax := mul_PGSIZE_lt b.space.npages_lt.1
  rw [heq] at hmax
  rw [buildStack, hup]
  rw [hup] at b heq
  set np := npages sz with hnp
  have hnew : (np * PGSIZE + 2 * PGSIZE) % 2 ^ 64 = np * PGSIZE + 2 * PGSIZE := by
    have hroom : MAXVA + 2 * PGSIZE < 2 ^ 64 := by decide
    exact mod_eq_of_lt (by omega)
  rw [hnew]
  refine wp_seq (b.wp_uvmalloc h hk _ (by decide)) ?_
  rintro sz1 s₁ ⟨b1, hr, hgrow⟩
  by_cases hz : sz1 = 0
  · rw [if_pos hz]
    rw [sizeAfter, if_pos hz] at b1
    exact b1.wp_execBad h
  rw [if_neg hz]
  rw [sizeAfter, if_neg hz] at b1
  have hsz1 : sz1 = np * PGSIZE + 2 * PGSIZE := (hr hz).2.2 (le_add_right _ _)
  have hguard : sz1 - 2 * PGSIZE = np * PGSIZE := by omega
  have hlt : np < npages sz1 := by
    have := le_npages b1.space.npages_lt.2
    have hpos : 0 < PGSIZE := by decide
    by_contra hge
    have := mul_le_mul_right PGSIZE (not_lt.mp hge)
    omega
  rw [hguard]
  refine wp_seq (b1.wp_uvmclear h hlt) ?_
  rintro ⟨⟩ s₂ ⟨b2, hclear⟩
  have hbase : PGSIZE ≤ sz1 - PGSIZE := by omega
  refine wp_seq (pushArgs_run h b2 hbase hargs sz1 [] (sub_le _ _) le_rfl (zero_le _)) ?_
  rintro r s₃ ⟨b3, hres⟩
  cases r with
  | none => exact b3.wp_execBad h
  | some x =>
    obtain ⟨sp, ustack⟩ := x
    obtain ⟨hlo, hhi, hlen, hcount, hbytes⟩ := hres _ rfl
    rw [length_nil, zero_add] at hcount
    dsimp only at hlo hhi hlen hcount hbytes ⊢
    split
    · exact b3.wp_execBad h
    rename_i hroom
    have hsmall : (ustack.length + 1) * 8 ≤ sp := by
      have : (MAXARG + 1) * 8 ≤ PGSIZE := by decide
      omega
    have hsp : sp < 2 ^ 64 := by
      have := b3.space.size
      omega
    obtain ⟨hpush, haligned⟩ := push_le hsmall hsp
    refine wp_seq (b3.wp_copyout h _ (by omega)) ?_
    rintro r s₄ ⟨b4, hfill⟩
    split
    · exact b4.wp_execBad h
    rename_i hr4
    have hg : Image.guard ⟨root, sz1, push sp ((ustack.length + 1) * 8), entry,
        ustack.length⟩ = np := by
      rw [Image.guard, hsz1, ← Nat.add_mul, vpn_mul, Nat.add_sub_cancel]
    refine wp_pure (.inr ⟨_, rfl, by rw [hg]; exact b4, rfl, fun c hf => ⟨rfl, hsz1, hcount, haligned,
      not_lt.mp hroom, ?_⟩⟩)
    obtain ⟨ps, u, hps, hpushed, hf3, hsame⟩ := hbytes c (hclear c (hgrow c (hf.resize heq) hz))
    obtain rfl : ustack = ps := hps
    set sp' := push sp ((ustack.length + 1) * 8) with hsp'
    have hword : ∀ j < 8 * (ustack.length + 1),
        fill u sp' ((ustack.length + 1) * 8) (wordsByte ustack) (sp' + j) = wordsByte ustack j := by
      intro j hj
      rw [fill_of_mem _ _ (Nat.le_add_right _ _) (by omega), Nat.add_sub_cancel_left]
    have hbelow := not_lt.mp hroom
    rw [hg]
    refine ⟨ustack, _, hfill u hf3 hr4, ⟨⟨sp, hpushed.congr fun x hx _ => ?_, ?_⟩, fun i hi =>
      load_words hword hi⟩, fun va hva => ?_⟩
    · exact fill_of_not_mem _ _ (by omega)
    · rw [mul_comm]
      exact hpush
    · have hva : va < sz1 - PGSIZE := hva
      rw [fill_of_not_mem _ _ (by omega)]
      exact hsame va (by omega)

/-- Words of the ELF header that `exec` uses. -/
def elfEntry (ip : List Byte) : Nat := (load 8 (asStore ip) 24).toNat
@[inherit_doc elfEntry] def elfPhoff (ip : List Byte) : Nat := (load 8 (asStore ip) 32).toNat
@[inherit_doc elfEntry] def elfPhnum (ip : List Byte) : Nat := (load 2 (asStore ip) 56).toNat

/-- The image of a file: the segments as `exec` read them, below a stack. -/
structure ImageOf (s₀ : Mach) (ip : List Byte) (argv : List Nat) (img : Image) (s : Mach) : Prop where
  entry : img.entry = elfEntry ip
  segments : ∀ m < elfPhnum ip, SegOk ip (img.sz - 2 * PGSIZE) (elfPhoff ip % 2 ^ 32 + PROGHDR * m)
  stack : ∃ root sz, StackOf s₀ argv root sz
      (writes (fun _ => 0) (segWrites ip (elfPhnum ip) (elfPhoff ip % 2 ^ 32))) img s

/-- **`exec` up to the commit**: a complete address space for the process with the same trapframe and
shared page, or nothing, and then every page is free again. -/
theorem wp_buildImage (h : Idle s₀ ({usyscall} + F)) (hk : KERNBASE ≤ s₀.kend)
    (hT : PGSIZE ∣ s₀.trampoline) (hT' : s₀.trampoline < 2 ^ 64) (htf : s₀.IsPage trapframe)
    (hus : s₀.IsPage usyscall) (ip : List Byte) (hargs : ∀ a ∈ argv, a ∈ F) :
    wp (buildImage ip argv trapframe usyscall) (fun r s' => (r = none ∧ Moves 0 0 s₀ s') ∨
      ∃ img, r = some img ∧
        Building s₀ img.pagetable img.sz trapframe usyscall (some img.guard) s' ∧
        ImageOf s₀ ip argv img s') s₀ := by
  rw [buildImage]
  split
  · exact wp_pure (.inl ⟨rfl, Moves.refl _ _⟩)
  rename_i hlen
  split
  · exact wp_pure (.inl ⟨rfl, Moves.refl _ _⟩)
  -- the header is the beginning of the file
  have hword : ∀ k a, a + k ≤ ELFHDR → load k (asStore (readi ip 0 ELFHDR)) a = load k (asStore ip) a := by
    obtain ⟨-, -, hbytes⟩ := readi_full (by decide) (by decide) (by decide) (not_not.mp hlen)
    intro k a ha
    refine load_congr fun x _ hx => ?_
    rw [hbytes x (by omega), zero_add]
    rfl
  rw [hword 2 56 (by decide), hword 8 32 (by decide), hword 8 24 (by decide)]
  refine wp_seq (wp_newSpace h hT hT' htf hus) ?_
  rintro r s₁ (⟨rfl, m⟩ | ⟨root, rfl, m, hs⟩)
  · exact wp_pure (.inl ⟨rfl, m⟩)
  refine wp_seq (loadSegments_run h hk ⟨m, hs⟩ ip _ (mod_lt _ (by decide))) ?_
  rintro ⟨sz, ok⟩ s₂ ⟨b2, hseg⟩
  cases ok with
  | true =>
    obtain ⟨-, hf, hok⟩ := hseg _ (filled_zero s₁.mem root) rfl
    refine wp_mono (b2.wp_buildStack h hk _ hargs) ?_
    rintro r s₃ (hbad | ⟨img, rfl, b3, hentry, hstack⟩)
    · exact .inl hbad
    · have hst := hstack _ hf
      have hsz : sz ≤ img.sz - 2 * PGSIZE := by
        have := le_npages b2.space.npages_lt.2
        have := hst.size
        omega
      exact .inr ⟨img, rfl, b3, hentry, fun m hm => (hok m hm).mono hsz, root, sz, hst⟩
  | false => exact b2.wp_execBad h

/-- User memory depends on the pages of the address space only. -/
theorem Filled.kept (hf : Filled m root sz guard c) (hroot : PGSIZE ∣ root)
    (hk : Kept (spacePages m root sz) m m') : Filled m' root sz guard c := by
  have hent := ptEntry_congr ((hk.mono (subset_of_le (le_add_right _ _))).agree hroot)
  refine ⟨fun va hva => ?_, hf.above, fun v hv => ?_⟩
  · rw [← hf.bytes va hva, userView, userView, physAddr, hent, ← physAddr]
    refine hk _ (mem_add.mpr (.inr (mem_mapped.mpr ⟨va / PGSIZE, zero_le _, ?_, ?_⟩)))
    · rw [zero_add]
      exact div_lt_npages.mpr hva
    · rw [PGROUNDDOWN_physAddr]
  · rw [hent]
    exact hf.guarded v hv

theorem ImageOf.kept (h : ImageOf s₀ ip argv img s)
    (hroot : PGSIZE ∣ img.pagetable)
    (hk : Kept (spacePages s.mem img.pagetable img.sz) s.mem s'.mem) : ImageOf s₀ ip argv img s' := by
  obtain ⟨hentry, hok, root, sz, hst⟩ := h
  obtain rfl := hst.pagetable
  obtain ⟨ps, u, hf, hargs, hu⟩ := hst.user
  exact ⟨hentry, hok, _, sz, rfl, hst.size, hst.argc, hst.aligned, hst.base, ps, u, hf.kept hroot hk,
    hargs, hu⟩

end Xv6
