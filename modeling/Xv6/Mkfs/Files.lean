/-
# Xv6.Mkfs.Files — the image as a function of the files on the command line.

`filesOf` says what the inodes of the image are: the root directory has `.`, `..` and one entry for each
file, and the files follow in the order of the command line.  `Fits` says what `mkfs` checks, some of it
by reading past the end of the image; if the files fit, `main` returns an image with these inodes, and if
they do not it dies.
-/
import Xv6.Mkfs.Build

namespace Xv6.Mkfs

open Lib Lib.Prog List
open Xv6.Fs hiding State ialloc balloc

/-! ## The files -/

/-- What `read` delivers of a file before it returns 0. -/
def delivered (ps : List (List Byte)) : List Byte := (ps.takeWhile fun p => p.length ≠ 0).flatten

/-- The bytes of a file. -/
def Arg.bytes (a : Arg) : List Byte := delivered (a.file.getD [])

/-- The contents of the root directory before its size is fixed. -/
def rootBytes (args : List Arg) : List Byte :=
  direntBytes 1 dot ++ direntBytes 1 dotdot ++
    (args.zipIdx.map fun a => direntBytes (.ofNat 32 (a.2 + 2)) a.1.name).flatten

/-- The inodes of the image. -/
def filesOf (args : List Arg) : Files := (T_DIR, rootBytes args) :: args.map fun a => (T_FILE, a.bytes)

theorem length_strncpy (n : Nat) (t : List Byte) : (strncpy n t).length = n := by
  rw [strncpy, length_append, length_replicate, length_take]
  omega

theorem length_direntBytes (inum : BitVec 32) (name : List Byte) :
    (direntBytes inum name).length = DIRENT := by
  rw [direntBytes, Dirent.toBytes, length_cons, length_cons, length_strncpy]
  rfl

theorem length_filesOf (args : List Arg) : (filesOf args).length = args.length + 1 := by
  rw [filesOf, length_cons, length_map]

theorem rootBytes_snoc (args : List Arg) (a : Arg) :
    rootBytes (args ++ [a]) = rootBytes args ++ direntBytes (.ofNat 32 (args.length + 2)) a.name := by
  simp [rootBytes, zipIdx_append]

theorem length_rootBytes (args : List Arg) :
    (rootBytes args).length = (args.length + 2) * DIRENT := by
  induction args using List.reverseRecOn with
  | nil => rfl
  | append_singleton args a ih =>
    rw [rootBytes_snoc, length_append, length_append, ih, length_direntBytes,
      length_singleton, DIRENT]
    omega

theorem filesOf_snoc (args : List Arg) (a : Arg) : filesOf (args ++ [a]) =
    (T_DIR, rootBytes args ++ direntBytes (.ofNat 32 (args.length + 2)) a.name) ::
      (args.map fun a => (T_FILE, a.bytes)) ++ [(T_FILE, a.bytes)] := by
  rw [filesOf, rootBytes_snoc, map_append]
  rfl

theorem blocks_cons (f : BitVec 16 × List Byte) (t : Files) :
    blocks (f :: t) = need f.2.length + blocks t := rfl

theorem blocks_filesOf_snoc (args : List Arg) (a : Arg) :
    blocks (filesOf args) + need a.bytes.length ≤ blocks (filesOf (args ++ [a])) := by
  have hroot : need (rootBytes args).length ≤
      need (rootBytes args ++ direntBytes (.ofNat 32 (args.length + 2)) a.name).length :=
    need_mono (by rw [length_append]; omega)
  have hone : blocks [((T_FILE, a.bytes) : BitVec 16 × List Byte)] = need a.bytes.length := rfl
  rw [filesOf_snoc, cons_append, filesOf, blocks_cons, blocks_cons, blocks_append, hone]
  dsimp only
  omega

/-- The files that `mkfs` can write to the image. -/
structure Fits (args : List Arg) : Prop where
  name : ∀ a ∈ args, slash ∉ a.shortname
  opens : ∀ a ∈ args, a.file ≠ none
  size : ∀ a ∈ args, a.bytes.length ≤ MAXFILE * BSIZE
  root : (rootBytes args).length ≤ MAXFILE * BSIZE
  blocks : nmeta + blocks (filesOf args) ≤ FSSIZE

theorem Fits.snoc (h : Fits (args ++ [a])) : Fits args where
  name b hb := h.name b (mem_append_left _ hb)
  opens b hb := h.opens b (mem_append_left _ hb)
  size b hb := h.size b (mem_append_left _ hb)
  root := by
    have := h.root
    rw [rootBytes_snoc, length_append] at this
    omega
  blocks := by
    have h1 := h.blocks
    have h2 := blocks_filesOf_snoc args a
    omega

theorem Fits.left (h : Fits (args ++ rest)) : Fits args := by
  induction rest using List.reverseRecOn with
  | nil => rwa [append_nil] at h
  | append_singleton rest a ih =>
    rw [← append_assoc] at h
    exact ih h.snoc

/-! ## Copying a file -/

section

variable {n : Nat} {t : Files} {s : State} {v : View} {E : String → Prop}

theorem wpe_copyFile (hn : n / IPB = 12) (h : Holds n t s v)
    (hf : t[j]? = some f) (hi : inum.toNat = j + 1)
    (hE : MAXFILE * BSIZE < (f.2 ++ delivered ps).length ∨
      FSSIZE < nmeta + blocks (t.set j (f.1, f.2 ++ delivered ps)) → ∀ msg, E msg) :
    wpe E (copyFile inum ps) (fun _ s' => ∃ v', Holds n (t.set j (f.1, f.2 ++ delivered ps)) s' v')
      s := by
  have hset : ∀ {t : Files} {f}, t[j]? = some f → t.set j (f.1, f.2 ++ []) = t := fun hf => by
    obtain ⟨hlt, rfl⟩ := List.getElem?_eq_some_iff.mp hf
    rw [append_nil]
    exact set_getElem_self hlt
  induction ps generalizing t f s v with
  | nil =>
    rw [copyFile]
    exact wpe_pure ⟨v, by rw [show delivered [] = [] from rfl, hset hf]; exact h⟩
  | cons p ps ih =>
    rw [copyFile]
    by_cases hp : p.length = 0
    · have hnil : delivered (p :: ps) = [] := by
        rw [delivered, takeWhile_cons_of_neg (by simpa using hp), flatten_nil]
      rw [if_pos hp, hnil, hset hf]
      exact wpe_pure ⟨v, h⟩
    · have hcons : delivered (p :: ps) = p ++ delivered ps := by
        rw [delivered, takeWhile_cons_of_pos (by simpa using hp), flatten_cons, delivered]
      rw [hcons, ← append_assoc] at hE ⊢
      rw [if_neg hp]
      -- a piece does not need more blocks than the file
      have hlen : (f.2 ++ p).length ≤ (f.2 ++ p ++ delivered ps).length := by
        simp only [length_append]
        omega
      have h1 := blocks_set hf (f.1, f.2 ++ p)
      have h2 := blocks_set hf (f.1, f.2 ++ p ++ delivered ps)
      have hmono := need_mono hlen
      refine wpe_seq (wpe_iappend hn h hf hi fun hfull => hE ?_) ?_
      · dsimp only at h1 h2
        omega
      · rintro _ s' ⟨v', h'⟩
        have hf' : (t.set j (f.1, f.2 ++ p))[j]? = some (f.1, f.2 ++ p) := by
          rw [List.getElem?_set_self (List.getElem?_eq_some_iff.mp hf).1]
        have hrest := ih h' hf' fun hfull => hE (by rwa [set_set] at hfull)
        rwa [set_set] at hrest

/-- **The loop over the files**, one turn. -/
theorem wpe_addFile (hn : n / IPB = 12) (h : Holds n (filesOf args) s v)
    (hfits : args.length + 2 < n) (hE : ¬Fits (args ++ [a]) → ∀ msg, E msg) :
    wpe E (addFile 1 a) (fun _ s' => ∃ v', Holds n (filesOf (args ++ [a])) s' v') s := by
  have hmem : a ∈ args ++ [a] := mem_append_right _ (mem_singleton_self a)
  rw [addFile]
  by_cases hslash : slash ∈ a.shortname
  · rw [if_pos hslash]
    exact wpe_stop (hE (fun hf => hf.name a hmem hslash) _)
  rw [if_neg hslash]
  cases hfile : a.file with
  | none => exact wpe_stop (hE (fun hf => hf.opens a hmem hfile) _)
  | some ps =>
    have hbytes : a.bytes = delivered ps := by rw [Arg.bytes, hfile, Option.getD_some]
    refine wpe_seq (wpe_ialloc hn h (by rw [length_filesOf]; exact hfits) (by decide)) ?_
    rintro inum s1 ⟨hinum, v1, h1⟩
    rw [length_filesOf] at hinum
    have hroot : (filesOf args ++ [(T_FILE, [])])[0]? = some (T_DIR, rootBytes args) := rfl
    have hde : inum = .ofNat 32 (args.length + 2) := by
      rw [IPB_eq] at hn
      refine BitVec.eq_of_toNat_eq ?_
      rw [hinum, BitVec.toNat_ofNat]
      omega
    -- the image with the new entry, but without the bytes of the file
    have hstep : blocks ((filesOf args ++ [(T_FILE, [])]).set 0
          (T_DIR, rootBytes args ++ direntBytes inum a.name)) + need a.bytes.length =
        blocks (filesOf (args ++ [a])) := by
      have hzero : blocks [((T_FILE, []) : BitVec 16 × List Byte)] = 0 := show need 0 + 0 = 0 by decide
      have hone : blocks [((T_FILE, a.bytes) : BitVec 16 × List Byte)] = need a.bytes.length := rfl
      rw [filesOf_snoc, hde, filesOf, cons_append, set_cons_zero, cons_append,
        blocks_cons, blocks_cons, blocks_append, blocks_append, hzero, hone]
      omega
    refine wpe_seq (wpe_iappend hn h1 hroot (show (1 : BitVec 32).toNat = 0 + 1 from rfl)
      fun hfull => hE fun hf => ?_) ?_
    · have hr := hf.root
      have hb := hf.blocks
      rw [rootBytes_snoc, ← hde] at hr
      dsimp only at hfull
      omega
    · rintro _ s2 ⟨v2, h2⟩
      have hlast : ((filesOf args ++ [(T_FILE, [])]).set 0
          (T_DIR, rootBytes args ++ direntBytes inum a.name))[args.length + 1]? = some (T_FILE, []) := by
        rw [List.getElem?_set_ne (by omega), List.getElem?_append_right (by rw [length_filesOf]),
          length_filesOf, Nat.sub_self]
        rfl
      have hset : ((filesOf args ++ [(T_FILE, [])]).set 0
            (T_DIR, rootBytes args ++ direntBytes inum a.name)).set (args.length + 1)
            (T_FILE, [] ++ delivered ps) = filesOf (args ++ [a]) := by
        rw [nil_append, ← hbytes, filesOf_snoc, ← hde, filesOf, cons_append,
          set_cons_zero, set_cons_succ, cons_append,
          set_append_right _ _ (by rw [length_map]), length_map, Nat.sub_self]
        rfl
      rw [← hset]
      refine wpe_copyFile hn h2 hlast hinum fun hfull => hE fun hf => ?_
      rw [hset, nil_append, ← hbytes] at hfull
      have hs := hf.size a hmem
      have hb := hf.blocks
      omega

theorem wpe_addFiles (hn : n / IPB = 12) (h : Holds n (filesOf args) s v)
    (hfits : args.length + rest.length + 1 < n) (hE : ¬Fits (args ++ rest) → ∀ msg, E msg) :
    wpe E (addFiles 1 rest) (fun _ s' => ∃ v', Holds n (filesOf (args ++ rest)) s' v') s := by
  induction rest generalizing args s v with
  | nil =>
    rw [addFiles, append_nil]
    exact wpe_pure ⟨v, h⟩
  | cons a rest ih =>
    rw [length_cons] at hfits
    have hassoc : args ++ a :: rest = args ++ [a] ++ rest := by
      rw [append_assoc, singleton_append]
    rw [hassoc] at hE ⊢
    rw [addFiles]
    refine wpe_seq (wpe_addFile hn h (by omega) fun hf => hE fun hall => hf hall.left) ?_
    rintro _ s' ⟨v', h'⟩
    exact ih h' (by rw [length_append, length_singleton]; omega) hE

end

end Xv6.Mkfs
