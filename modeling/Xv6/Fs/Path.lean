/-
# Xv6.Fs.Path — `skipelem`, `namex`, `namei` and `nameiparent` (`kernel/fs.c`).

`Xv6.Fs.Names` takes a path apart before it looks names up.  Here is the code as it stands: `skipelem`
moves along the path and copies one element into the caller's buffer, between two lookups.  The two
compute the same (`Path.namex_eq`), and both are the lookup, one after the other, of the maximal parts of
the path without a slash.
-/
import Mathlib.Data.List.DropRight
import Xv6.Fs.Dir

namespace Xv6.Fs

open Lib Lib.Prog List Nat

/-! ## Paths as lists of components -/

/-- The maximal parts of a path that have no slash. -/
def components (path : List Byte) : List (List Byte) := (path.splitOn slash).filter (· ≠ [])

theorem components_nil : components [] = [] := by decide

theorem components_slash (path : List Byte) : components (slash :: path) = components path := by
  have hsplit := @splitOnP_append_cons_of_forall_mem _ (· == slash) [] nofun slash
    (beq_self_eq_true _) path
  rw [nil_append] at hsplit
  rw [components, splitOn, hsplit]
  exact filter_cons_of_neg (by simp)

theorem components_dropWhile (path : List Byte) :
    components (path.dropWhile (· = slash)) = components path := by
  induction path with
  | nil => rfl
  | cons c path ih =>
    by_cases hc : c = slash
    · rw [hc, dropWhile_cons_of_pos (by simp), ih, components_slash]
    · rw [dropWhile_cons_of_neg (by simpa using hc)]

/-- A path that does not begin with a slash is a component and what follows it. -/
theorem components_takeWhile (hne : path.takeWhile (· ≠ slash) ≠ []) :
    components path = path.takeWhile (· ≠ slash) :: components (path.dropWhile (· ≠ slash)) := by
  have hfree : ∀ x ∈ path.takeWhile (· ≠ slash), (x == slash) = false := fun x hx => by
    have := mem_takeWhile_imp hx
    simpa using this
  have happ := takeWhile_append_dropWhile (p := (· ≠ slash)) (l := path)
  cases hd : path.dropWhile (· ≠ slash) with
  | nil =>
    rw [hd, append_nil] at happ
    rw [components_nil]
    conv_lhs => rw [← happ]
    rw [components, splitOn, splitOnP_eq_singleton hfree]
    exact filter_cons_of_pos (by simpa using hne)
  | cons c rest =>
    obtain rfl : c = slash := by
      have hne : path.dropWhile (· ≠ slash) ≠ [] := by
        rw [hd]
        exact cons_ne_nil _ _
      have hhead := head_dropWhile_not (p := (· ≠ slash)) (l := path) hne
      simp only [hd, head_cons] at hhead
      simpa using hhead
    rw [hd] at happ
    rw [components_slash]
    conv_lhs => rw [← happ]
    rw [components, splitOn, splitOnP_append_cons_of_forall_mem hfree _ (beq_self_eq_true _)]
    exact filter_cons_of_pos (by simpa using hne)

/-! ## `skipelem` -/

variable {path rest name buf buf' : List Byte}

theorem skipelem_eq_none : skipelem path = none ↔ path.dropWhile (· = slash) = [] := by
  rw [skipelem]
  split
  · next h => exact iff_of_true rfl h
  · next h => exact iff_of_false (Option.some_ne_none _) h

/-- What `skipelem` returns, with the element before it is cut to `DIRSIZ` bytes. -/
theorem skipelem_eq_some (h : skipelem path = some (name, rest)) :
    ∃ s, s ≠ [] ∧ s = (path.dropWhile (· = slash)).takeWhile (· ≠ slash) ∧ name = s.take DIRSIZ ∧
      components path = s :: components rest ∧ rest.length < path.length ∧
      rest.dropWhile (· = slash) = rest := by
  rw [skipelem] at h
  split at h
  · cases h
  next hne =>
  injection h with h
  obtain ⟨rfl, rfl⟩ := Prod.mk.inj h
  have hhead : (path.dropWhile (· = slash)).head hne ≠ slash := by
    have := head_dropWhile_not (p := (· = slash)) (l := path) hne
    simpa using this
  have hs : (path.dropWhile (· = slash)).takeWhile (· ≠ slash) ≠ [] := by
    intro hnil
    obtain ⟨c, t, ht⟩ := exists_cons_of_ne_nil hne
    simp only [ht, head_cons] at hhead
    rw [ht, takeWhile_cons_of_pos (by simpa using hhead)] at hnil
    cases hnil
  refine ⟨_, hs, rfl, rfl, ?_, ?_, ?_⟩
  · rw [← components_dropWhile path, components_takeWhile hs, components_dropWhile]
  · have happ := congrArg length
      (takeWhile_append_dropWhile (p := (· ≠ slash)) (l := path.dropWhile (· = slash)))
    rw [length_append] at happ
    have hpos := length_pos_of_ne_nil hs
    have h1 := (dropWhile_sublist (p := (· = slash)) (l := path)).length_le
    have h2 := (dropWhile_sublist (p := (· = slash))
      (l := (path.dropWhile (· = slash)).dropWhile (· ≠ slash))).length_le
    omega
  · exact dropWhile_idempotent ..

theorem skipelem_subset (h : skipelem path = some (name, rest)) : rest ⊆ path := by
  rw [skipelem] at h
  split at h
  · cases h
  injection h with h
  obtain ⟨-, rfl⟩ := Prod.mk.inj h
  intro x hx
  have h1 := (dropWhile_sublist _).subset hx
  have h2 := (dropWhile_sublist _).subset h1
  exact (dropWhile_sublist _).subset h2

theorem components_eq_nil : components path = [] ↔ skipelem path = none := by
  constructor
  · intro hnil
    cases h : skipelem path with
    | none => rfl
    | some x =>
      obtain ⟨s, -, -, -, hcomp, -, -⟩ := skipelem_eq_some h
      rw [hcomp] at hnil
      cases hnil
  · intro h
    rw [← components_dropWhile, skipelem_eq_none.mp h, components_nil]

/-- **The elements of a path** are its components, cut to `DIRSIZ` bytes. -/
theorem elems_eq (hfuel : path.length ≤ fuel) :
    elems fuel path = (components path).map (·.take DIRSIZ) := by
  induction fuel generalizing path with
  | zero =>
    obtain rfl := length_eq_zero_iff.mp (le_zero.mp hfuel)
    rfl
  | succ fuel ih =>
    rw [elems]
    cases h : skipelem path with
    | none =>
      rw [components_eq_nil.mpr h]
      rfl
    | some x =>
      obtain ⟨s, -, -, hname, hcomp, hlt, -⟩ := skipelem_eq_some h
      rw [hcomp, map_cons, ← hname, ← ih (by omega)]

theorem pathElems_eq (path : List Byte) :
    pathElems path = (components (cstr path)).map (·.take DIRSIZ) :=
  elems_eq le_rfl

/-! ## Lookups one after the other -/

/-- What the name is in inode `d`, which must be a directory. -/
def lookupIn (ino : Nat → Ino) (d : Nat) (name : List Byte) : Option Nat :=
  if (ino d).type = T_DIR then
    (dirFind (ino d).data name).map fun k => (direntAt (ino d).data k).inum.toNat
  else none

/-- The inode that the names lead to. -/
def resolve (ino : Nat → Ino) (start : Nat) (names : List (List Byte)) : Option Nat :=
  names.foldlM (lookupIn ino) start

/-- The directory that all names but the last lead to, and the last name. -/
def resolveParent (ino : Nat → Ino) (start : Nat) (names : List (List Byte)) :
    Option (Nat × List Byte) := do
  let last ← names.getLast?
  let d ← resolve ino start names.dropLast
  if (ino d).type = T_DIR then some (d, last) else none

/-- What `namex` looks for. -/
def walk (nameiparent : Bool) (ino : Nat → Ino) (start : Nat) (names : List (List Byte)) :
    Option (Nat × List Byte) :=
  if nameiparent then resolveParent ino start names else (resolve ino start names).map (·, [])

variable {ino : Nat → Ino} {i : Nat} {names : List (List Byte)} {nip : Bool}

theorem walk_nil : walk nip ino i [] = if nip then none else some (i, []) := by
  cases nip <;> rfl

theorem walk_not_dir (ht : (ino i).type ≠ T_DIR) : walk nip ino i (name :: names) = none := by
  have hnone : lookupIn ino i name = none := if_neg ht
  cases nip with
  | false =>
    show (resolve ino i (name :: names)).map _ = none
    rw [resolve, foldlM_cons, hnone]
    rfl
  | true =>
    show resolveParent ino i (name :: names) = none
    cases names with
    | nil =>
      show (if (ino i).type = T_DIR then some (i, name) else none) = none
      exact if_neg ht
    | cons next rest =>
      rw [resolveParent, dropLast_cons_cons, resolve, foldlM_cons, hnone]
      simp

theorem walk_last (ht : (ino i).type = T_DIR) : walk true ino i [name] = some (i, name) :=
  if_pos ht

theorem walk_cons (hmore : ¬(nip = true ∧ names = [])) :
    walk nip ino i (name :: names) = (lookupIn ino i name).bind fun j => walk nip ino j names := by
  cases nip with
  | false =>
    show (resolve ino i (name :: names)).map _ = _
    rw [resolve, foldlM_cons]
    cases lookupIn ino i name <;> rfl
  | true =>
    cases names with
    | nil => exact absurd ⟨rfl, rfl⟩ hmore
    | cons next rest =>
      show resolveParent ino i (name :: next :: rest) = _
      rw [resolveParent, dropLast_cons_cons, resolve, foldlM_cons, getLast?_cons_cons]
      cases lookupIn ino i name <;> simp [walk, resolveParent, resolve]

/-! ## `namex` -/

section Namex

variable {fs fs₀ : State} {ip cwd : Ptr} {c : Nat} {held : Multiset (Ptr × Nat)} {lk : Finset Ptr}
  {E : String → Prop}

/-- Inode `i` is allocated, and it has links or was in use when the call began: the call does not free
it. -/
def Kept (fs₀ fs : State) (i : Nat) : Prop :=
  (fs.ino i).type ≠ 0 ∧ ((fs.ino i).nlink ≠ 0 ∨ ∃ p, fs₀.Refers p i)

/-- Whatever a path may lead to is there. -/
structure Walkable (fs₀ fs : State) : Prop where
  root : Kept fs₀ fs ROOTINO
  size : ∀ d, (fs.ino d).type = T_DIR → DIRENT ∣ (fs.ino d).data.length
  entry : ∀ d, (fs.ino d).type = T_DIR → ∀ k < entryCount (fs.ino d).data,
    (direntAt (fs.ino d).data k).inum ≠ 0 → Kept fs₀ fs (direntAt (fs.ino d).data k).inum.toNat

theorem Kept.of_ino (h : Kept fs₀ fs i) (he : fs'.ino = fs.ino) : Kept fs₀ fs' i := by
  rw [Kept, he]
  exact h

theorem Walkable.of_ino (h : Walkable fs₀ fs) (he : fs'.ino = fs.ino) :
    Walkable fs₀ fs' := by
  refine ⟨h.root.of_ino he, ?_, ?_⟩
  · rw [he]
    exact h.size
  · intro d hd k hk hused
    rw [he] at hd hk hused ⊢
    exact (h.entry d hd k hk hused).of_ino he

/-- What a name leads to is kept. -/
theorem Walkable.lookupIn (h : Walkable fs₀ fs) (ht : (fs.ino d).type = T_DIR)
    (hm : dirFind (fs.ino d).data name = some m) :
    Kept fs₀ fs (direntAt (fs.ino d).data m).inum.toNat := by
  obtain ⟨hlt, his, -⟩ := dirFind_eq_some.mp hm
  exact h.entry d ht m hlt his.1

/-- Giving back a reference to it is not freeing it. -/
theorem Inside.keep (h : Inside fs₀ ((ip, i) ::ₘ held) lk fs) (hk : Kept fs₀ fs i) :
    (fs.ino i).nlink ≠ 0 ∨ 0 < (fs₀.itable ip).ref + refsTo held ip := by
  rcases hk.2 with hn | ⟨p, hp⟩
  · exact .inl hn
  · obtain ⟨hpos, hin⟩ := h.refers (Multiset.mem_cons_self _ _)
    obtain ⟨hpos', hin'⟩ := h.refers_base hp
    obtain rfl : p = ip := h.uniq hpos' hpos (hin'.trans hin.symm)
    have := hp.1
    exact .inr (by omega)

/-- What `namex` leaves: one more reference, to the inode that it returns. -/
def Walked (fs₀ : State) (held : Multiset (Ptr × Nat)) (fs : State) (w : Option (Nat × List Byte))
    (r : Option (Ptr × List Byte)) (fs' : State) : Prop :=
  TableOnly fs fs' ∧ match w with
    | none => r = none ∧ Inside fs₀ held ∅ fs'
    | some (j, name) => ∃ jp, r = some (jp, name) ∧ Inside fs₀ ((jp, j) ::ₘ held) ∅ fs'

/-- **The loop of `namex`**, with a reference to the inode that it has come to. -/
theorem Inside.wpe_namexLoop (hE : fs₀.room ≤ held.card + 1 → E "iget: no inodes") (nip : Bool)
    (names : List (List Byte)) (h : Inside fs₀ ((ip, i) ::ₘ held) ∅ fs) (hw : Walkable fs₀ fs)
    (hk : Kept fs₀ fs i) :
    wpe E (namexLoop nip names ip) (Walked fs₀ held fs (walk nip fs.ino i names)) fs := by
  induction names generalizing fs ip i with
  | nil =>
    rw [namexLoop, walk_nil]
    cases nip with
    | false => exact wpe_pure ⟨TableOnly.refl fs, ip, rfl, h⟩
    | true =>
      refine wpe_seq (h.wpe_iput (Finset.notMem_empty _) (h.keep hk)) ?_
      rintro - fs' ⟨hin, ht⟩
      exact wpe_pure ⟨ht, rfl, hin⟩
  | cons name rest ih =>
    rw [namexLoop]
    refine wpe_seq (h.wpe_ilock (h.refers (Multiset.mem_cons_self _ _)) (Finset.notMem_empty _)
      fun hz => absurd hz hk.1) ?_
    rintro - fs₁ ⟨h1, ht1, -⟩
    have hlk : ip ∈ insert ip (∅ : Finset Ptr) := Finset.mem_insert_self _ _
    have hd := (h1.refers (Multiset.mem_cons_self _ _)).2
    have herase : (insert ip (∅ : Finset Ptr)).erase ip = ∅ := by simp
    have hk1 := hk.of_ino ht1.ino
    refine wpe_bind (wpe_get ?_)
    rw [h1.type_eq hlk hd, ← ht1.ino]
    split
    · next hnot =>
      -- not a directory
      rw [walk_not_dir hnot]
      refine wpe_seq (h1.wpe_iunlockput hlk (h1.keep hk1)) ?_
      rintro - fs₂ ⟨h2, ht2⟩
      rw [herase] at h2
      exact wpe_pure ⟨ht1.trans ht2, rfl, h2⟩
    next hdir =>
    have hdir := not_not.mp hdir
    split
    · next hlast =>
      obtain ⟨rfl, rfl⟩ := hlast
      rw [walk_last hdir]
      refine wpe_seq (h1.wpe_iunlock hlk) ?_
      rintro - fs₂ ⟨h2, ht2⟩
      rw [herase] at h2
      exact wpe_pure ⟨ht1.trans ht2, ip, rfl, h2⟩
    next hmore =>
    rw [walk_cons hmore, Fs.lookupIn, if_pos hdir]
    have hw1 := hw.of_ino ht1.ino
    refine wpe_seq (h1.wpe_dirlookup hlk hd hdir (hw1.size i hdir)
      (fun hfull => hE (by simpa using h1.room_le hfull)) name) ?_
    rintro r fs₂ (⟨hnone, rfl, rfl⟩ | ⟨m, jp, hsome, rfl, hgot⟩)
    · rw [hnone]
      refine wpe_seq (h1.wpe_iunlockput hlk (h1.keep hk1)) ?_
      rintro - fs₂ ⟨h2, ht2⟩
      rw [herase] at h2
      exact wpe_pure ⟨ht1.trans ht2, rfl, h2⟩
    · have hnext := hw1.lookupIn hdir hsome
      have h2 := h1.got (lt_of_ino hnext.1) hgot
      have ht2 := hgot.tableOnly
      rw [Multiset.cons_swap] at h2
      rw [hsome]
      refine wpe_seq (h2.wpe_iunlockput hlk (h2.keep (hk1.of_ino ht2.ino))) ?_
      rintro - fs₃ ⟨h3, ht3⟩
      rw [herase] at h3
      have ht := ht2.trans ht3
      refine wpe_mono (ih h3 (hw1.of_ino ht.ino) (hnext.of_ino ht.ino)) ?_
      rintro r fs₄ ⟨ht4, hres⟩
      rw [ht.ino] at hres
      exact ⟨ht1.trans (ht.trans ht4), hres⟩

/-- The inode where a path begins, with the current directory `c`. -/
def startOf (path : List Byte) (c : Nat) : Nat := if (cstr path).head? = some slash then ROOTINO else c

/-- **`namex`** is the lookup of the components, one after the other. -/
theorem Inside.wpe_namex (hE : fs₀.room ≤ held.card + 1 → E "iget: no inodes")
    (h : Inside fs₀ held ∅ fs) (hw : Walkable fs₀ fs) (hcwd : fs₀.Refers cwd c)
    (hc : (fs.ino c).type ≠ 0) (path : List Byte) (nip : Bool) :
    wpe E (namex cwd path nip)
      (Walked fs₀ held fs (walk nip fs.ino (startOf path c) (pathElems path))) fs := by
  -- the reference with which the loop begins
  have hstart : wpe E (if (cstr path).head? = some slash then iget ROOTINO else idup cwd)
      (fun ip fs' => Inside fs₀ ((ip, startOf path c) ::ₘ held) ∅ fs' ∧ TableOnly fs fs' ∧
        Kept fs₀ fs (startOf path c)) fs := by
    rw [startOf]
    split
    · refine wpe_mono (h.wpe_iget (lt_of_ino hw.root.1) fun hfull => hE (by omega)) ?_
      rintro ip fs' ⟨hin, ht⟩
      exact ⟨hin, ht, hw.root⟩
    · refine wpe_mono (h.wpe_idup (h.refers_base hcwd)) ?_
      rintro ip fs' ⟨rfl, hin, ht⟩
      exact ⟨hin, ht, hc, .inr ⟨_, hcwd⟩⟩
  rw [namex]
  refine wpe_seq hstart ?_
  rintro ip fs₁ ⟨h1, ht1, hk⟩
  refine wpe_mono (h1.wpe_namexLoop hE nip _ (hw.of_ino ht1.ino) (hk.of_ino ht1.ino)) ?_
  rintro r fs₂ ⟨ht2, hres⟩
  rw [ht1.ino] at hres
  exact ⟨ht1.trans ht2, hres⟩

end Namex

/-! ## The code -/

namespace Path

/-- The copy of an element `s` to the memory `name`, ended by a zero byte if there is room for one. -/
def copyElem (name s : List Byte) : List Byte :=
  if DIRSIZ ≤ s.length then splice name 0 (s.take DIRSIZ) else splice (splice name 0 s) s.length [0]

/-- Copy the next path element from `path` into the memory `name`; 0 if there is none. -/
def skipelem (path name : List Byte) : Option (List Byte × List Byte) :=
  let path := path.dropWhile (· = slash)
  if path = [] then none
  else
    let s := path.takeWhile (· ≠ slash)
    some ((path.dropWhile (· ≠ slash)).dropWhile (· = slash), copyElem name s)

/-- The loop of `namex`; it returns the inode and what is in `name`. -/
def namexLoop (nameiparent : Bool) :
    (fuel : Nat) → (path name : List Byte) → Ptr → Prog State (Option (Ptr × List Byte))
  | 0, _, _, _ => stop "namex"
  | fuel + 1, path, name, ip => do
    match skipelem path name with
    | some (path, name) =>
      ilock ip
      if ((← get).itable ip).type ≠ T_DIR then
        iunlockput ip
        pure none
      else if nameiparent ∧ path = [] then
        -- stop one level early
        iunlock ip
        pure (some (ip, name))
      else
        match ← dirlookup ip name with
        | none =>
          iunlockput ip
          pure none
        | some (next, _) =>
          iunlockput ip
          namexLoop nameiparent fuel path name next
    | none =>
      if nameiparent then
        iput ip
        pure none
      else
        pure (some (ip, name))

/-- Look up and return the inode for a path name; with `nameiparent` the inode for the parent, and the
final path element in `name`. -/
def namex (cwd : Ptr) (path : List Byte) (nameiparent : Bool) (name : List Byte) :
    Prog State (Option (Ptr × List Byte)) := do
  let ip ← (if (cstr path).head? = some slash then iget ROOTINO else idup cwd)
  namexLoop nameiparent ((cstr path).length + 1) (cstr path) name ip

/-- `namei`; `name` is what its stack frame holds. -/
def namei (cwd : Ptr) (path name : List Byte) : Prog State (Option Ptr) := do
  pure ((← namex cwd path false name).map Prod.fst)

def nameiparent (cwd : Ptr) (path name : List Byte) : Prog State (Option (Ptr × List Byte)) :=
  namex cwd path true name

/-- The copy stays below `name[DIRSIZ]`. -/
theorem copyElem_within (s : List Byte) (hlen : DIRSIZ ≤ buf.length) :
    (copyElem buf s).length = buf.length ∧ ∀ j, DIRSIZ ≤ j → (copyElem buf s)[j]? = buf[j]? := by
  rw [copyElem]
  split
  · next hlong =>
    have htake : (s.take DIRSIZ).length = DIRSIZ := length_take_of_le hlong
    refine ⟨by rw [length_splice (zero_le _), htake]; omega, fun j hj => ?_⟩
    rw [getElem?_splice (zero_le _), htake, if_neg (by omega)]
  · next hshort =>
    have hin : (splice buf 0 s).length = buf.length := by
      rw [length_splice (zero_le _)]
      omega
    refine ⟨by rw [length_splice (by omega), hin, length_singleton]; omega, fun j hj => ?_⟩
    rw [getElem?_splice (by omega), length_singleton, if_neg (by omega),
      getElem?_splice (zero_le _), if_neg (by omega)]

theorem cname_copyElem (hs : 0 ∉ s) : cname (copyElem buf s) = s.take DIRSIZ := by
  have hsplice : ∀ xs : List Byte, splice buf 0 xs = xs ++ buf.drop xs.length := fun xs => by
    rw [splice, take_zero, nil_append, zero_add]
  rw [copyElem, cname]
  split
  · next hlong =>
    have htake : (s.take DIRSIZ).length = DIRSIZ := length_take_of_le hlong
    have hfree : ∀ x ∈ s.take DIRSIZ, decide (x ≠ 0) = true := fun x hx => by
      simpa using fun hz : x = 0 => hs (hz ▸ mem_of_mem_take hx)
    rw [hsplice, cstr, takeWhile_append_of_pos hfree, take_left' htake]
  · next hshort =>
    have hfree : ∀ x ∈ s, decide (x ≠ 0) = true := fun x hx => by
      simpa using fun hz : x = 0 => hs (hz ▸ hx)
    rw [hsplice, splice, take_left' rfl, append_assoc, cstr,
      takeWhile_append_of_pos hfree]
    simp

/-- `skipelem` copies the element that it passes over. -/
theorem skipelem_eq (path buf : List Byte) :
    skipelem path buf = (Fs.skipelem path).map fun x =>
      (x.2, copyElem buf ((path.dropWhile (· = slash)).takeWhile (· ≠ slash))) := by
  rw [skipelem, Fs.skipelem]
  split <;> rfl

theorem subset_path
    (hs : s = (path.dropWhile (· = slash)).takeWhile (· ≠ slash)) : s ⊆ path := by
  intro x hx
  rw [hs] at hx
  exact (dropWhile_sublist _).subset ((takeWhile_sublist _).subset hx)

/-- What is in `name` once every element of the path has been copied there. -/
def lastName : (fuel : Nat) → (path name : List Byte) → List Byte
  | 0, _, name => name
  | fuel + 1, path, name =>
    match skipelem path name with
    | none => name
    | some (path, name) => lastName fuel path name

/-- `dirlookup` reads `DIRSIZ` bytes of the name, and none after a zero byte. -/
theorem dirlookup_congr (h : cname a = cname b) (dp : Ptr) :
    dirlookup dp a = dirlookup dp b := by
  have hcmp : ∀ x, namecmp a x = 0 ↔ namecmp b x = 0 := fun x => by
    rw [namecmp_eq_zero_iff, namecmp_eq_zero_iff, h]
  have hloop : ∀ fuel off, dirlookupLoop dp a fuel off = dirlookupLoop dp b fuel off := by
    intro fuel
    induction fuel with
    | zero => intro off; rfl
    | succ fuel ih =>
      intro off
      simp only [dirlookupLoop, ih, hcmp]
  simp only [dirlookup, hloop]

theorem lastName_none (h : Fs.skipelem path = none) : lastName (fuel + 1) path buf = buf := by
  rw [lastName, skipelem_eq, h]
  rfl

/-- The end of the path. -/
theorem namexLoop_none (nameiparent : Bool) (fuel : Nat) (h : Fs.skipelem path = none) (buf : List Byte)
    (ip : Ptr) : namexLoop nameiparent (fuel + 1) path buf ip =
      (Option.map fun x => (x.1, lastName (fuel + 1) path buf)) <$> Fs.namexLoop nameiparent [] ip := by
  simp only [namexLoop, skipelem_eq, h, Option.map_none, lastName_none h, Fs.namexLoop]
  cases nameiparent <;> simp

/-- **The loop of `namex`** looks up the elements of the path. -/
theorem namexLoop_eq (nameiparent : Bool) (hzero : 0 ∉ path) (hfuel : path.length ≤ fuel)
    (buf : List Byte) (ip : Ptr) :
    namexLoop nameiparent (fuel + 1) path buf ip =
      (Option.map fun x => (x.1, lastName (fuel + 1) path buf)) <$>
        Fs.namexLoop nameiparent (elems fuel path) ip := by
  induction fuel generalizing path buf ip with
  | zero =>
    obtain rfl := length_eq_zero_iff.mp (le_zero.mp hfuel)
    exact namexLoop_none nameiparent 0 rfl buf ip
  | succ fuel ih =>
    rw [elems]
    cases h : Fs.skipelem path with
    | none => exact namexLoop_none nameiparent _ h buf ip
    | some x =>
      obtain ⟨name, rest⟩ := x
      obtain ⟨s, -, hs, hname, -, hlt, hrest⟩ := skipelem_eq_some h
      have hs0 : 0 ∉ s := fun hx => hzero (subset_path hs hx)
      have hlook : dirlookup ip (copyElem buf s) = dirlookup ip name := by
        refine dirlookup_congr ?_ ip
        rw [cname_copyElem hs0, hname, cname, cstr_of_not_mem fun hx => hs0 (mem_of_mem_take hx),
          take_take, min_self]
      -- the rest of the path begins with an element, or it is empty
      have hend : elems fuel rest = [] ↔ rest = [] := by
        rw [elems_eq (by omega), map_eq_nil_iff, components_eq_nil, skipelem_eq_none, hrest]
      have hnext := @ih rest (fun hx => hzero (skipelem_subset h hx)) (by omega) (copyElem buf s)
      have hskip : skipelem path buf = some (rest, copyElem buf s) := by
        rw [skipelem_eq, h, hs]
        rfl
      rw [namexLoop, lastName, hskip, Fs.namexLoop, map_bind]
      refine bind_congr fun _ => ?_
      rw [map_bind]
      refine bind_congr fun fs => ?_
      rw [hlook]
      simp only [hend]
      split
      · rw [map_bind]
        rfl
      · split
        · next hlast =>
          obtain rfl := hlast.2
          rw [lastName_none rfl, map_bind]
          rfl
        · rw [map_bind]
          refine bind_congr fun r => ?_
          cases r with
          | none =>
            rw [map_bind]
            rfl
          | some y =>
            rw [map_bind]
            exact bind_congr fun _ => hnext y.1

/-- **The element that is left in `name`** is the last one. -/
theorem cname_lastName (hzero : 0 ∉ path) (hfuel : path.length ≤ fuel) (buf : List Byte)
    (hlast : (elems fuel path).getLast? = some last) :
    cname (lastName (fuel + 1) path buf) = last := by
  induction fuel generalizing path buf with
  | zero => cases hlast
  | succ fuel ih =>
    rw [elems] at hlast
    cases h : Fs.skipelem path with
    | none =>
      rw [h] at hlast
      cases hlast
    | some x =>
      obtain ⟨name, rest⟩ := x
      obtain ⟨s, -, hs, hname, -, hlt, -⟩ := skipelem_eq_some h
      have hrest : 0 ∉ rest := fun hx => hzero (skipelem_subset h hx)
      have hskip : skipelem path buf = some (rest, copyElem buf s) := by
        rw [skipelem_eq, h, hs]
        rfl
      rw [h] at hlast
      dsimp only at hlast
      rw [lastName, hskip]
      dsimp only
      cases he : elems fuel rest with
      | nil =>
        rw [he, getLast?_singleton] at hlast
        have hnone : Fs.skipelem rest = none := by
          rw [elems_eq (by omega)] at he
          exact components_eq_nil.mp (map_eq_nil_iff.mp he)
        rw [lastName_none hnone, cname_copyElem fun hx => hzero (subset_path hs hx), ← hname]
        exact Option.some.inj hlast
      | cons y ys =>
        rw [he, getLast?_cons_cons, ← he] at hlast
        exact ih hrest (by omega) (copyElem buf s) hlast

/-- **`namex`** is the lookup of the elements of the path. -/
theorem namex_eq (cwd : Ptr) (path : List Byte) (nameiparent : Bool) (buf : List Byte) :
    namex cwd path nameiparent buf =
      (Option.map fun x => (x.1, lastName ((cstr path).length + 1) (cstr path) buf)) <$>
        Fs.namex cwd path nameiparent := by
  rw [namex, Fs.namex, map_bind]
  exact bind_congr fun ip => namexLoop_eq nameiparent (zero_not_mem_cstr path) le_rfl buf ip

/-- However many elements are copied there, `name[DIRSIZ]` and what follows stay. -/
theorem lastName_within (fuel : Nat) (path : List Byte) (hlen : DIRSIZ ≤ buf.length) :
    (lastName fuel path buf).length = buf.length ∧
      ∀ j, DIRSIZ ≤ j → (lastName fuel path buf)[j]? = buf[j]? := by
  induction fuel generalizing path buf with
  | zero => exact ⟨rfl, fun _ _ => rfl⟩
  | succ fuel ih =>
    rw [lastName, skipelem_eq]
    cases Fs.skipelem path with
    | none => exact ⟨rfl, fun _ _ => rfl⟩
    | some x =>
      obtain ⟨hlen', hrest'⟩ :=
        copyElem_within ((path.dropWhile (· = slash)).takeWhile (· ≠ slash)) hlen
      obtain ⟨h1, h2⟩ := ih x.2 (hlen'.symm ▸ hlen)
      exact ⟨h1.trans hlen', fun j hj => (h2 j hj).trans (hrest' j hj)⟩

/-! ## The specification -/

variable {fs : State} {cwd : Ptr} {c : Nat}

/-- What `namei` returns and leaves, if the path leads to `w`. -/
def Resolved (fs : State) (w : Option Nat) (r : Option Ptr) (fs' : State) : Prop :=
  TableOnly fs fs' ∧ match w with
    | none => r = none ∧ Inside fs 0 ∅ fs'
    | some i => ∃ ip, r = some ip ∧ Inside fs {(ip, i)} ∅ fs'

/-- What `nameiparent` returns and leaves: the directory, and its last argument with the name. -/
def ResolvedParent (fs : State) (buf : List Byte) (w : Option (Nat × List Byte))
    (r : Option (Ptr × List Byte)) (fs' : State) : Prop :=
  TableOnly fs fs' ∧ match w with
    | none => r = none ∧ Inside fs 0 ∅ fs'
    | some (d, last) => ∃ dp buf', r = some (dp, buf') ∧ cname buf' = last ∧
        buf'.length = buf.length ∧ (∀ j, DIRSIZ ≤ j → buf'[j]? = buf[j]?) ∧ Inside fs {(dp, d)} ∅ fs'

/-- From `start`, the path leads where the names lead; only a full inode table stops it. -/
def LeadsBy (fs : State) (cwd : Ptr) (buf path : List Byte) (start : Nat) (names : List (List Byte)) :
    Prop :=
  wpe (fun e => e = "iget: no inodes" ∧ fs.room ≤ 1) (namei cwd path buf)
      (Resolved fs (resolve fs.ino start names)) fs ∧
    wpe (fun e => e = "iget: no inodes" ∧ fs.room ≤ 1) (nameiparent cwd path buf)
      (ResolvedParent fs buf (resolveParent fs.ino start names)) fs

theorem leadsBy (hs : Settled fs) (hun : ∀ p, (fs.itable p).locked = false) (hw : Walkable fs fs)
    (hcwd : fs.Refers cwd c) (hc : (fs.ino c).type ≠ 0) (path : List Byte)
    (hbuf : DIRSIZ ≤ buf.length) :
    LeadsBy fs cwd buf path (startOf path c) ((components (cstr path)).map (·.take DIRSIZ)) := by
  have hnamex := fun nip => (hs.enter hun).wpe_namex (E := fun e => e = "iget: no inodes" ∧ fs.room ≤ 1)
    (fun hroom => ⟨rfl, by simpa using hroom⟩) hw hcwd hc path nip
  rw [← pathElems_eq]
  constructor
  · rw [namei, namex_eq, bind_map_left]
    refine wpe_seq (hnamex false) ?_
    rintro r fs' ⟨ht, hres⟩
    refine wpe_pure ⟨ht, ?_⟩
    rw [show walk false fs.ino (startOf path c) (pathElems path) =
      (resolve fs.ino (startOf path c) (pathElems path)).map (·, []) from rfl] at hres
    cases hw : resolve fs.ino (startOf path c) (pathElems path) with
    | none =>
      rw [hw] at hres
      obtain ⟨rfl, hin⟩ := hres
      exact ⟨rfl, hin⟩
    | some i =>
      rw [hw] at hres
      obtain ⟨ip, rfl, hin⟩ := hres
      exact ⟨ip, rfl, hin⟩
  · rw [nameiparent, namex_eq]
    refine wpe_map (wpe_mono (hnamex true) ?_)
    rintro r fs' ⟨ht, hres⟩
    refine ⟨ht, ?_⟩
    rw [show walk true fs.ino (startOf path c) (pathElems path) =
      resolveParent fs.ino (startOf path c) (pathElems path) from rfl] at hres
    cases hw : resolveParent fs.ino (startOf path c) (pathElems path) with
    | none =>
      rw [hw] at hres
      obtain ⟨rfl, hin⟩ := hres
      exact ⟨rfl, hin⟩
    | some x =>
      obtain ⟨d, last⟩ := x
      rw [hw] at hres
      obtain ⟨dp, rfl, hin⟩ := hres
      have hlast : (pathElems path).getLast? = some last := by
        cases hl : (pathElems path).getLast? with
        | none => simp [resolveParent, hl] at hw
        | some y =>
          simp only [resolveParent, hl, Option.bind_eq_bind, Option.bind_some] at hw
          obtain ⟨e, -, he⟩ := Option.bind_eq_some_iff.mp hw
          split at he
          · cases he
            rfl
          · cases he
      obtain ⟨hlen, hrest⟩ := lastName_within ((cstr path).length + 1) (cstr path) hbuf
      exact ⟨dp, _, rfl, cname_lastName (zero_not_mem_cstr path) le_rfl buf hlast, hlen, hrest, hin⟩

theorem booted_walkable : Walkable booted booted := by
  have hdir : ∀ d, (booted.ino d).type = T_DIR → d = ROOTINO := fun d hd => by
    by_contra hne
    rw [booted_free hne] at hd
    exact absurd hd (by decide)
  have hroot : Kept booted booted ROOTINO := by
    refine ⟨?_, .inr ⟨rootPtr, by decide, rfl⟩⟩
    rw [booted_root_type]
    decide
  refine ⟨hroot, fun d hd => ?_, fun d hd k hk hused => ?_⟩
  · obtain rfl := hdir d hd
    rw [booted_root_data]
    exact rootData_ok.size
  · obtain rfl := hdir d hd
    rw [booted_root_data] at hk hused ⊢
    have hlen : entryCount rootData = 64 := by simp [entryCount, rootData, DIRENT]
    have hinum : (direntAt rootData k).inum.toNat = ROOTINO := by
      rcases rootData_used k (hlen ▸ hk) hused with rfl | rfl <;> decide +kernel
    rw [hinum]
    exact hroot

end Path

end Xv6.Fs
