/-
# Xv6.Mem.Print — printing a page table (`kernel/vm.c`).

`printwalk` prints a line for each valid entry and goes down where the entry has no access bits.
Read as a text, the lines are the entries in depth-first order; read as indices under a nesting
depth, they are the map that `walk` follows.
-/
import Xv6.Printf
import Xv6.Mem.Walk

namespace Xv6.Vmprint

open Lib Lib.Store Lib.Prog List Option Printf Text

variable {path : List Nat} {cs ds : List Char} {n pt : Nat} {l : Line} {ls : List Line}

/-- Memory, and the characters printed so far. -/
structure Term where
  mach : Mach
  out : List Char

variable (cstr : BitVec 64 → List Char)

def inMach {α : Type} (x : Prog Mach α) : Prog Term α :=
  Prog.zoom Term.mach (fun m t => { t with mach := m }) x

def print (fmt : String) (ap : List (BitVec 64)) : Prog Term Unit :=
  modify fun t => { t with out := t.out ++ Printf.printf cstr fmt.toList ap }

/-- `printwalk` on a stack with room for `frames` calls. -/
def printwalk : (frames pt dep : Nat) → Prog Term Unit
  | 0, _, _ => Prog.stop "stack"
  | frames + 1, pt, dep => (List.range 512).forM fun i => do
    let pte ← inMach (readPte (pt + 8 * i))
    if pte &&& PTE_V ≠ 0 then
      (List.range (dep - 1)).forM fun _ => print cstr ".. " []
      print cstr "..%d: pte %p " [BitVec.ofNat 64 i, pte]
      let child := PTE2PA pte
      print cstr "pa %p\n" [BitVec.ofNat 64 child]
      if pte &&& (PTE_R ||| PTE_W ||| PTE_X) = 0 then
        printwalk frames child (dep + 1)

def vmprint (frames pt : Nat) : Prog Term Unit := do
  print cstr "page table %p\n" [BitVec.ofNat 64 pt]
  printwalk cstr frames pt 1

/-! ## The lines of a table -/

/-- What a line tells. -/
structure Line where
  depth : Nat
  index : Nat
  pte : Pte
  pa : Nat

/-- The line as it is printed, without its end. -/
def Line.text (l : Line) : List Char :=
  (List.range (l.depth - 1)).flatMap (fun _ => ['.', '.', ' ']) ++ '.' :: '.' ::
    (Printf.printint (BitVec.ofNat 32 l.index) 10 true ++ (": pte 0x".toList ++
      (Text.hexDigits Printf.digit 16 l.pte ++ (" pa 0x".toList ++
        Text.hexDigits Printf.digit 16 (BitVec.ofNat 64 l.pa)))))

/-- The line of entry `i` of the page at `pt`. -/
def entryLine (m : Store) (dep pt i : Nat) : Line :=
  ⟨dep, i, load 8 m (pt + 8 * i), PTE2PA (load 8 m (pt + 8 * i))⟩

/-- The valid entries of a table of `n` levels, depth first: an entry, then what is below it, one
index after another. -/
def treeLines (m : Store) : (n dep pt : Nat) → List Line
  | 0, _, _ => []
  | n + 1, dep, pt => (List.range 512).flatMap fun i =>
    if load 8 m (pt + 8 * i) &&& PTE_V ≠ 0 then
      entryLine m dep pt i :: treeLines m n (dep + 1) (PTE2PA (load 8 m (pt + 8 * i)))
    else
      []

/-- A table whose valid entries at `level` 0 are leaves, and at the levels above are not. -/
def LeafTable (m : Store) : (level pt : Nat) → Prop
  | 0, pt => ∀ i < 512, load 8 m (pt + 8 * i) &&& PTE_V ≠ 0 → ¬IsDir (load 8 m (pt + 8 * i))
  | level + 1, pt => ∀ i < 512, load 8 m (pt + 8 * i) &&& PTE_V ≠ 0 →
    IsDir (load 8 m (pt + 8 * i)) ∧ LeafTable m level (PTE2PA (load 8 m (pt + 8 * i)))

/-! ## What is printed -/

/-- In memory `m`, `x` prints `cs` and changes nothing. -/
def Emits (m : Mach) (x : Prog Term Unit) (cs : List Char) : Prop :=
  ∀ out, x ⟨m, out⟩ = .ok ((), ⟨m, out ++ cs⟩)

variable {cstr} {m : Mach}

theorem emits_nil : Emits m (pure ()) [] := by
  intro out
  rw [append_nil]
  rfl

theorem Emits.seq {x y : Prog Term Unit} {cs' : List Char} (hx : Emits m x cs) (hy : Emits m y cs') :
    Emits m (do x; y) (cs ++ cs') := by
  intro out
  rw [bind_ok (hx out), hy, append_assoc]

theorem emits_forM {β : Type} (l : List β) {f : β → Prog Term Unit} {cs : β → List Char}
    (h : ∀ b ∈ l, Emits m (f b) (cs b)) : Emits m (l.forM f) (l.flatMap cs) := by
  induction l with
  | nil => exact emits_nil
  | cons b l ih =>
    rw [flatMap_cons]
    exact (h b mem_cons_self).seq (ih fun b' hb' => h b' (mem_cons_of_mem b hb'))

theorem emits_print (cstr : BitVec 64 → List Char) (fmt : String) (ap : List (BitVec 64)) :
    Emits m (print cstr fmt ap) (printf cstr fmt.toList ap) := fun _ => rfl

theorem emits_readPte {f : Pte → Prog Term Unit} (h : Emits m (f (load 8 m.mem a)) cs) :
    Emits m (do f (← inMach (readPte a))) cs := h

theorem printf_dots : printf cstr ".. ".toList [] = ['.', '.', ' '] := rfl

theorem printf_entry (i : Nat) (e : Pte) :
    printf cstr "..%d: pte %p ".toList [BitVec.ofNat 64 i, e] =
      '.' :: '.' :: (printint (BitVec.ofNat 32 i) 10 true ++
        (": pte 0x".toList ++ (hexDigits digit 16 e ++ [' ']))) := by
  rw [← BitVec.setWidth_ofNat_of_le (show 32 ≤ 64 by decide)]
  rfl

theorem printf_pa (x : BitVec 64) :
    printf cstr "pa %p\n".toList [x] =
      "pa 0x".toList ++ (hexDigits digit 16 x ++ ['\n']) := rfl

/-- The calls of `printf` that make a line, and what follows. -/
theorem emits_line (dep pt i : Nat) (he : load 8 m.mem (pt + 8 * i) = e)
    (hy : Emits m y cs) :
    Emits m (do
      (range (dep - 1)).forM fun _ => print cstr ".. " []
      print cstr "..%d: pte %p " [BitVec.ofNat 64 i, e]
      print cstr "pa %p\n" [BitVec.ofNat 64 (PTE2PA e)]
      y)
    ((entryLine m.mem dep pt i).text ++ ['\n'] ++ cs) := by
  have hdots := emits_forM (m := m) (range (dep - 1)) fun _ _ => emits_print cstr ".. " []
  have hline := hdots.seq ((emits_print cstr "..%d: pte %p " [BitVec.ofNat 64 i, e]).seq
    ((emits_print cstr "pa %p\n" [BitVec.ofNat 64 (PTE2PA e)]).seq hy))
  rw [printf_entry, printf_pa, printf_dots] at hline
  convert hline using 1
  simp [entryLine, Line.text, he]

/-- The text of some lines. -/
def linesText (ls : List Line) : List Char := ls.flatMap fun l => l.text ++ ['\n']

/-- **`printwalk`** prints the table's lines, on a stack with a frame for each level. -/
theorem emits_printwalk (h : LeafTable m.mem level pt) (dep : Nat)
    (hf : level < frames) :
    Emits m (printwalk cstr frames pt dep) (linesText (treeLines m.mem (level + 1) dep pt)) := by
  induction frames generalizing level pt dep with
  | zero => omega
  | succ frames ih =>
    rw [linesText, treeLines, flatMap_assoc]
    apply emits_forM
    intro i hi
    apply emits_readPte
    obtain ⟨e, he⟩ : ∃ e, load 8 m.mem (pt + 8 * i) = e := ⟨_, rfl⟩
    rw [he]
    split
    · next hv =>
      rw [flatMap_cons]
      apply emits_line dep pt i he
      cases level with
      | zero =>
        have hleaf := h i (mem_range.mp hi)
        rw [he, IsDir] at hleaf
        rw [if_neg (hleaf hv)]
        exact emits_nil
      | succ level =>
        have hdir := h i (mem_range.mp hi)
        rw [he, IsDir] at hdir
        obtain ⟨hd, hsub⟩ := hdir hv
        rw [if_pos hd]
        exact ih hsub (dep + 1) (by omega)
    · exact emits_nil

/-! ## Reading a line -/

/-- What is left of `cs` after `lit`. -/
def expect : List Char → List Char → Option (List Char)
  | [], cs => some cs
  | _ :: _, [] => none
  | c :: lit, d :: cs => if c = d then expect lit cs else none

/-- The nesting depth, told by the dots a line starts with. -/
def readDots : List Char → Option (Nat × List Char)
  | '.' :: '.' :: ' ' :: cs => (readDots cs).map fun r => (r.1 + 1, r.2)
  | '.' :: '.' :: cs => some (1, cs)
  | _ => none

def readLine (cs : List Char) : Option Line := do
  let (depth, cs) ← readDots cs
  let index := Text.value Printf.digitVal 10 0 (cs.takeWhile (· ≠ ':'))
  let cs ← expect ": pte 0x".toList (cs.dropWhile (· ≠ ':'))
  let pte := Text.value Printf.digitVal 16 0 (cs.take 16)
  let cs ← expect " pa 0x".toList (cs.drop 16)
  pure ⟨depth, index, BitVec.ofNat 64 pte, Text.value Printf.digitVal 16 0 cs⟩

def readLines (cs : List Char) : Option (List Line) := (Text.splitLines '\n' cs).mapM readLine

/-- What a printed line of a table tells fits the format. -/
structure Line.Ok (l : Line) : Prop where
  depth : 0 < l.depth
  index : l.index < 512
  pa : l.pa = PTE2PA l.pte

theorem treeLines_ok {m : Store} {dep : Nat} (hdep : 0 < dep) (hl : l ∈ treeLines m n dep pt) : l.Ok := by
  induction n generalizing dep pt with
  | zero => cases hl
  | succ n ih =>
    obtain ⟨i, hi, hl⟩ := mem_flatMap.mp hl
    split at hl
    · rcases mem_cons.mp hl with rfl | hl
      · exact ⟨hdep, mem_range.mp hi, rfl⟩
      · exact ih (Nat.succ_pos dep) hl
    · cases hl

theorem expect_append (lit cs : List Char) : expect lit (lit ++ cs) = some cs := by
  induction lit with
  | nil => rfl
  | cons c lit ih => simp [expect, ih]

theorem readDots_last (h : ∀ c ∈ cs.head?, c ≠ ' ') :
    readDots ('.' :: '.' :: cs) = some (1, cs) := by
  cases cs with
  | nil => rfl
  | cons c cs =>
    have hc : c ≠ ' ' := h c rfl
    rw [readDots]
    intro cs' heq
    exact hc (cons.inj heq).1

theorem readDots_flatMap (n : Nat) (h : readDots cs = some r) :
    readDots ((range n).flatMap (fun _ => ['.', '.', ' ']) ++ cs) = some (r.1 + n, r.2) := by
  induction n with
  | zero => simpa using h
  | succ n ih =>
    rw [range_succ_eq_map, flatMap_cons, flatMap_map, append_assoc]
    simp only [cons_append, nil_append]
    rw [readDots, ih]
    rfl

theorem value_hex (x : BitVec 64) :
    value digitVal 16 0 (hexDigits digit 16 x) = x.toNat :=
  value_hexDigits digitVal_digit x

theorem take_hex (x : BitVec 64) (cs : List Char) :
    (hexDigits digit 16 x ++ cs).take 16 = hexDigits digit 16 x :=
  take_left' (length_hexDigits 16 x)

theorem drop_hex (x : BitVec 64) (cs : List Char) :
    (hexDigits digit 16 x ++ cs).drop 16 = cs :=
  drop_left' (length_hexDigits 16 x)

/-- The index ends at the colon. -/
theorem takeWhile_index (h : ∀ c ∈ ds, c ≠ ':') (cs : List Char) :
    (ds ++ (": pte 0x".toList ++ cs)).takeWhile (· ≠ ':') = ds := by
  rw [takeWhile_append_of_pos (by simpa using h)]
  simp

theorem dropWhile_index (h : ∀ c ∈ ds, c ≠ ':') (cs : List Char) :
    (ds ++ (": pte 0x".toList ++ cs)).dropWhile (· ≠ ':') = ": pte 0x".toList ++ cs := by
  rw [dropWhile_append_of_pos (by simpa using h)]
  simp

theorem head_index (h : ∀ c ∈ ds, c ≠ ' ') (cs : List Char) :
    ∀ c ∈ (ds ++ (": pte 0x".toList ++ cs)).head?, c ≠ ' ' := by
  intro c hc
  cases ds with
  | nil =>
    obtain rfl : ':' = c := by simpa using hc
    decide
  | cons d ds =>
    obtain rfl : d = c := by simpa using hc
    exact h d mem_cons_self

/-- **A line is read back.** -/
theorem readLine_text (h : l.Ok) : readLine l.text = some l := by
  obtain ⟨dep, i, e, pa⟩ := l
  obtain ⟨hdep, hi, hpa⟩ := h
  dsimp only at hdep hi hpa
  have hindex : i < 2 ^ 31 := by omega
  have hvalue := value_printint hindex
  have hmem := fun c => mem_printint (c := c) hindex
  have hpos : (BitVec.ofNat 64 pa).toNat = pa := by
    rw [BitVec.toNat_ofNat, hpa]
    exact Nat.mod_eq_of_lt (PTE2PA_lt e)
  rw [readLine, Line.text]
  rw [readDots_flatMap (dep - 1) (readDots_last (head_index (fun c hc => (hmem c hc).2.1) _))]
  simp only [bind_eq_bind, bind_some]
  rw [takeWhile_index fun c hc => (hmem c hc).1, dropWhile_index fun c hc => (hmem c hc).1,
    expect_append, bind_some, drop_hex, expect_append, take_hex, hvalue, value_hex,
    bind_some, value_hex, hpos, BitVec.ofNat_toNat, BitVec.setWidth_eq]
  rw [show 1 + (dep - 1) = dep by omega]
  rfl

theorem eol_notMem_text (h : l.Ok) : '\n' ∉ l.text := by
  have hindex : l.index < 2 ^ 31 := by
    have := h.index
    omega
  intro hc
  simp only [Line.text, mem_append, mem_cons, mem_flatMap] at hc
  rcases hc with ⟨-, -, hc⟩ | hc | hc | hc | hc | hc | hc | hc
  · revert hc
    decide
  · cases hc
  · cases hc
  · exact (mem_printint hindex hc).2.2 rfl
  · revert hc
    decide
  · obtain ⟨k, hk, hc⟩ := mem_hexDigits hc
    exact (digit_ne k hk).2.2 hc.symm
  · revert hc
    decide
  · obtain ⟨k, hk, hc⟩ := mem_hexDigits hc
    exact (digit_ne k hk).2.2 hc.symm

/-- **The text is read back.** -/
theorem readLines_linesText (h : ∀ l ∈ ls, l.Ok) : readLines (linesText ls) = some ls := by
  rw [readLines, linesText, splitLines_flatMap Line.text ls fun l hl => eol_notMem_text (h l hl)]
  induction ls with
  | nil => rfl
  | cons l ls ih =>
    rw [map_cons, mapM_cons, readLine_text (h l mem_cons_self),
      ih fun l' hl' => h l' (mem_cons_of_mem l hl')]
    rfl

/-! ## The map that the lines tell -/

/-- The number with base-512 digits `path`. -/
def pageNumber (path : List Nat) : Nat := Text.value id 512 0 path

/-- The pages that lines tell of, with where they lead and their flags.  A line belongs below the
last line of each smaller depth, whose indices are `path`; the third index is that of a page. -/
def decode : (path : List Nat) → List Line → List (Nat × Nat × Pte)
  | _, [] => []
  | path, l :: ls =>
    let path := path.take (l.depth - 1) ++ [l.index]
    (if path.length = 3 then [(pageNumber path, l.pa, PTE_FLAGS l.pte)] else []) ++ decode path ls

/-- The page that `walk`'s answer leads to. -/
def pageOf (m : Mach) : Except String (Option Nat × Mach) → Option (Nat × Pte)
  | .ok (some pte, _) =>
    let e := load 8 m.mem pte
    if e &&& PTE_V ≠ 0 then some (PTE2PA e, PTE_FLAGS e) else none
  | _ => none

/-- The map from page numbers that `walk` defines. -/
def walkMap (m : Mach) (pt v : Nat) : Option (Nat × Pte) := pageOf m (walk pt (v * PGSIZE) false m)

/-- The pages of a table of `n` levels below `path`, in order. -/
def treePages (m : Store) : (n : Nat) → (path : List Nat) → (pt : Nat) → List (Nat × Nat × Pte)
  | 0, _, _ => []
  | n + 1, path, pt => (List.range 512).flatMap fun i =>
    let e := load 8 m (pt + 8 * i)
    if e &&& PTE_V ≠ 0 then
      (if n = 0 then [(pageNumber (path ++ [i]), PTE2PA e, PTE_FLAGS e)] else []) ++
        treePages m n (path ++ [i]) (PTE2PA e)
    else
      []

/-- Below `path` the lines `ls` tell of `ms`, and leave the reader below `path`. -/
def Tells (path : List Nat) (ls : List Line) (ms : List (Nat × Nat × Pte)) : Prop :=
  ∀ p rest, p.take path.length = path →
    ∃ p', p'.take path.length = path ∧ decode p (ls ++ rest) = ms ++ decode p' rest

theorem tells_nil (path : List Nat) : Tells path [] [] := fun p _ hp => ⟨p, hp, rfl⟩

theorem Tells.append (h : Tells path ls ms)
    (h' : Tells path ls' ms') : Tells path (ls ++ ls') (ms ++ ms') := by
  intro p rest hp
  obtain ⟨p1, hp1, h1⟩ := h p (ls' ++ rest) hp
  obtain ⟨p2, hp2, h2⟩ := h' p1 rest hp1
  refine ⟨p2, hp2, ?_⟩
  rw [append_assoc, h1, h2, append_assoc]

theorem tells_flatMap (is : List Nat) {f : Nat → List Line} {g : Nat → List (Nat × Nat × Pte)}
    (h : ∀ i ∈ is, Tells path (f i) (g i)) : Tells path (is.flatMap f) (is.flatMap g) := by
  induction is with
  | nil => exact tells_nil path
  | cons i is ih =>
    rw [flatMap_cons, flatMap_cons]
    exact (h i mem_cons_self).append (ih fun j hj => h j (mem_cons_of_mem i hj))

/-- A line and the lines below it. -/
theorem tells_cons (hdep : l.depth = path.length + 1)
    (h : Tells (path ++ [l.index]) ls ms) :
    Tells path (l :: ls)
      ((if path.length = 2 then [(pageNumber (path ++ [l.index]), l.pa, PTE_FLAGS l.pte)] else [])
        ++ ms) := by
  intro p rest hp
  have hpath : p.take (l.depth - 1) ++ [l.index] = path ++ [l.index] := by
    rw [hdep, Nat.add_sub_cancel, hp]
  obtain ⟨p', hp', hrest⟩ := h (path ++ [l.index]) rest (take_length ..)
  refine ⟨p', ?_, ?_⟩
  · have := congrArg (take path.length) hp'
    simpa [take_take] using this
  · rw [cons_append, decode, hpath, hrest, append_assoc]
    simp

theorem tells_treeLines (m : Store) (hn : path.length + n = 3) (pt : Nat) :
    Tells path (treeLines m n (path.length + 1) pt) (treePages m n path pt) := by
  induction n generalizing path pt with
  | zero => exact tells_nil path
  | succ n ih =>
    apply tells_flatMap
    intro i _
    dsimp only
    split
    · have hlen : (path ++ [i]).length = path.length + 1 := by simp
      have hbelow := @ih (path ++ [i]) (by omega) (PTE2PA (load 8 m (pt + 8 * i)))
      rw [hlen] at hbelow
      have htells := tells_cons (l := entryLine m (path.length + 1) pt i) rfl hbelow
      simp only [show path.length = 2 ↔ n = 0 by omega] at htells
      exact htells
    · exact tells_nil path

theorem pageNumber_concat (path : List Nat) (i : Nat) :
    pageNumber (path ++ [i]) = pageNumber path * 512 + i := by
  simp [pageNumber, value]

theorem mem_treePages_succ {m : Store} {y : Nat × Nat × Pte} :
    y ∈ treePages m (n + 1) path pt ↔ ∃ i : Fin 512, ptRadix.read m pt i &&& PTE_V ≠ 0 ∧
      ((n = 0 ∧ y = (pageNumber path * 512 + i, PTE2PA (ptRadix.read m pt i),
        PTE_FLAGS (ptRadix.read m pt i))) ∨
      y ∈ treePages m n (path ++ [i.val]) (PTE2PA (ptRadix.read m pt i))) := by
  rw [treePages, mem_flatMap]
  constructor
  · rintro ⟨i, hi, hy⟩
    dsimp only at hy
    split at hy
    · next hv =>
      refine ⟨⟨i, mem_range.mp hi⟩, hv, ?_⟩
      rcases mem_append.mp hy with hy | hy
      · split at hy
        · next hn =>
          rw [mem_singleton, pageNumber_concat] at hy
          exact .inl ⟨hn, hy⟩
        · cases hy
      · exact .inr hy
    · cases hy
  · rintro ⟨i, hv, hy⟩
    refine ⟨i, mem_range.mpr i.isLt, ?_⟩
    have hload : load 8 m (pt + 8 * i) &&& PTE_V ≠ 0 := hv
    rw [if_pos hload, mem_append]
    rcases hy with ⟨hn, hy⟩ | hy
    · rw [if_pos hn, mem_singleton, pageNumber_concat]
      exact .inl hy
    · exact .inr hy

/-- The digit at level `l` and the number above it. -/
theorem div_eq_iff_vkey {v l a : Nat} {i : Fin 512} :
    v / 512 ^ l = a * 512 + i ↔ v / 512 ^ (l + 1) = a ∧ vkey v l = i := by
  have hdigit : (vkey v l).val = v / 512 ^ l % 512 := rfl
  rw [Fin.ext_iff, hdigit, pow_succ, ← Nat.div_div_eq_div_mul]
  omega

/-- **The pages of a table** below `path` are the valid entries that its keys lead to. -/
theorem mem_treePages {m : Store} {v : Nat} {x : Nat × Pte} :
    (v, x) ∈ treePages m (n + 1) path pt ↔ v / 512 ^ (n + 1) = pageNumber path ∧
      ∃ e, ptRadix.get m n pt (vkey v) = some e ∧ e &&& PTE_V ≠ 0 ∧
        x = (PTE2PA e, PTE_FLAGS e) := by
  induction n generalizing path pt with
  | zero =>
    rw [mem_treePages_succ, Radix.get_zero]
    constructor
    · rintro ⟨i, hv, ⟨-, hy⟩ | hy⟩
      · obtain ⟨hnum, rfl⟩ := Prod.mk.inj hy
        have hdiv : v / 512 ^ 0 = pageNumber path * 512 + i := by simpa using hnum
        obtain ⟨hpath, rfl⟩ := div_eq_iff_vkey.mp hdiv
        exact ⟨hpath, _, rfl, hv, rfl⟩
      · cases hy
    · rintro ⟨hpath, e, he, hv, rfl⟩
      obtain rfl := some.inj he
      have hdiv := div_eq_iff_vkey.mpr ⟨hpath, rfl⟩
      refine ⟨vkey v 0, hv, .inl ⟨rfl, ?_⟩⟩
      rw [← hdiv, pow_zero, Nat.div_one]
  | succ n ih =>
    rw [mem_treePages_succ, Radix.get_succ]
    constructor
    · rintro ⟨i, hv, ⟨hn, -⟩ | hy⟩
      · cases hn
      · rw [ih, pageNumber_concat, div_eq_iff_vkey] at hy
        obtain ⟨⟨hpath, rfl⟩, he⟩ := hy
        rw [child_of_valid hv]
        exact ⟨hpath, he⟩
    · rintro ⟨hpath, e, he, hx⟩
      obtain ⟨c, hc, hget⟩ := bind_eq_some_iff.mp he
      obtain ⟨hv, rfl⟩ := child_eq_some.mp hc
      refine ⟨vkey v (n + 1), hv, .inr ?_⟩
      rw [ih, pageNumber_concat, div_eq_iff_vkey]
      exact ⟨⟨hpath, rfl⟩, e, hget, hx⟩

/-! ## The whole table -/

theorem pageOf_walkFrom (m : Mach) (pt v : Nat) (x : Nat × Pte) :
    pageOf m (walkFrom 2 pt (v * PGSIZE) false m) = some x ↔
      ∃ e, ptRadix.get m.mem 2 pt (vkey v) = some e ∧ e &&& PTE_V ≠ 0 ∧
        x = (PTE2PA e, PTE_FLAGS e) := by
  have hpage : v * PGSIZE / PGSIZE = v := Nat.mul_div_cancel v (by decide)
  rw [walkFrom_false, hpage, Radix.get, PX_eq, hpage]
  cases hslot : ptRadix.slot m.mem 2 pt (vkey v) with
  | none => simp [pageOf]
  | some q =>
    obtain ⟨e, he⟩ : ∃ e, load 8 m.mem (q + 8 * (vkey v 0).val) = e := ⟨_, rfl⟩
    have hread : ptRadix.read m.mem q (vkey v 0) = e := he
    simp only [map_some, pageOf, he, hread, some.injEq, exists_eq_left']
    split
    · next hv =>
      rw [some.injEq, eq_comm]
      exact (and_iff_right hv).symm
    · next hv => simp [not_not.mp hv]

/-- **`vmprint`.**  On a table of three levels with its leaves at the bottom, `vmprint` prints a
header and then the table's lines, one for each valid entry in depth-first order, and changes
nothing.  The lines are read back from the text, each with the physical address its entry has, and
the pages they tell of are the ones `walk` finds.  From `MAXVA` on, where `walk` panics, they are the
ones its loop would find. -/
theorem vmprint_shows (cstr : BitVec 64 → List Char) {m : Mach} {pt : Nat}
    (h : LeafTable m.mem 2 pt) {frames : Nat} (hf : 2 < frames) (out : List Char) :
    ∃ text, vmprint cstr frames pt ⟨m, out⟩ = .ok ((), ⟨m,
        out ++ (Printf.printf cstr "page table %p\n".toList [BitVec.ofNat 64 pt] ++ text)⟩) ∧
      readLines text = some (treeLines m.mem 3 1 pt) ∧
      (∀ l ∈ treeLines m.mem 3 1 pt, l.pa = PTE2PA l.pte) ∧
      (∀ v < MAXVA / PGSIZE, ∀ x,
        (v, x) ∈ decode [] (treeLines m.mem 3 1 pt) ↔ walkMap m pt v = some x) ∧
      ∀ v x, (v, x) ∈ decode [] (treeLines m.mem 3 1 pt) ↔
        v < 512 ^ 3 ∧ pageOf m (walkFrom 2 pt (v * PGSIZE) false m) = some x := by
  have hok : ∀ l ∈ treeLines m.mem 3 1 pt, l.Ok := fun l hl => treeLines_ok Nat.one_pos hl
  have hpages : ∀ v x, (v, x) ∈ decode [] (treeLines m.mem 3 1 pt) ↔
      v < 512 ^ 3 ∧ pageOf m (walkFrom 2 pt (v * PGSIZE) false m) = some x := by
    intro v x
    obtain ⟨p, -, hdec⟩ := tells_treeLines m.mem (show ([] : List Nat).length + 3 = 3 from rfl) pt [] [] rfl
    rw [append_nil, decode, append_nil] at hdec
    rw [pageOf_walkFrom, show decode [] (treeLines m.mem 3 1 pt) = _ from hdec]
    refine mem_treePages.trans (and_congr_left fun _ => ?_)
    exact Nat.div_eq_zero_iff_lt (by decide)
  refine ⟨_, ((emits_print cstr _ _).seq (emits_printwalk h 1 hf)) out,
    readLines_linesText hok, fun l hl => (hok l hl).pa, fun v hv x => ?_, hpages⟩
  have hva : v * PGSIZE < MAXVA := by
    rw [mul_comm]
    exact (Nat.lt_div_iff_mul_lt' (by decide) v).mp hv
  rw [hpages, walkMap, walk, if_neg (by omega)]
  refine and_iff_right ?_
  have : MAXVA / PGSIZE < 512 ^ 3 := by decide
  omega

/-- A table with one page, at index 1, 2, 3. -/
def onePage : Store :=
  store 8 (store 8 (store 8 (fun _ => 0) (4096 + 8 * 1) (PA2PTE 8192 ||| PTE_V))
    (8192 + 8 * 2) (PA2PTE 12288 ||| PTE_V)) (12288 + 8 * 3) (PA2PTE 16384 ||| PTE_R ||| PTE_V)

theorem onePage_valid : (∀ i < 512, load 8 onePage (4096 + 8 * i) &&& PTE_V ≠ 0 → i = 1) ∧
    (∀ i < 512, load 8 onePage (8192 + 8 * i) &&& PTE_V ≠ 0 → i = 2) ∧
    ∀ i < 512, load 8 onePage (12288 + 8 * i) &&& PTE_V ≠ 0 → i = 3 := by
  decide +kernel

theorem onePage_leafTable : LeafTable onePage 2 4096 := by
  obtain ⟨h2, h1, h0⟩ := onePage_valid
  intro i hi hv
  obtain rfl := h2 i hi hv
  refine ⟨by rw [IsDir]; decide, ?_⟩
  rw [show PTE2PA (load 8 onePage (4096 + 8 * 1)) = 8192 by decide]
  intro i hi hv
  obtain rfl := h1 i hi hv
  refine ⟨by rw [IsDir]; decide, ?_⟩
  rw [show PTE2PA (load 8 onePage (8192 + 8 * 2)) = 12288 by decide]
  intro i hi hv
  obtain rfl := h0 i hi hv
  rw [IsDir]
  decide

/-- Page `(1 * 512 + 2) * 512 + 3` is read back with its flags. -/
theorem vmprint_shows_onePage : ∃ text, vmprint (fun _ => []) 3 4096
      ⟨⟨0, 0, onePage, [], [], false⟩, []⟩ = .ok ((), ⟨⟨0, 0, onePage, [], [], false⟩,
        Printf.printf (fun _ => []) "page table %p\n".toList [4096] ++ text⟩) ∧
      (263171, 16384, PTE_R ||| PTE_V) ∈
        decode [] ((readLines text).getD []) := by
  obtain ⟨text, hrun, hread, -, hmap, -⟩ := vmprint_shows (fun _ => [])
    (m := ⟨0, 0, onePage, [], [], false⟩) onePage_leafTable (Nat.lt_succ_self 2) []
  refine ⟨text, hrun, ?_⟩
  have hpage := (hmap 263171 (by decide) (16384, PTE_R ||| PTE_V)).mpr (by decide +kernel)
  rwa [hread, getD_some]

end Xv6.Vmprint
