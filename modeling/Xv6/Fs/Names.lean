/-
# Xv6.Fs.Names — directories, paths and the calls on them (`kernel/fs.c`, `kernel/sysfile.c`).

A directory is a file of `struct dirent`s.  Every name here is a C string in a list of bytes, and is
compared and copied on its first `DIRSIZ` bytes.  The current directory of the caller is a parameter.
-/
import Xv6.Fs.Defs

namespace Xv6.Fs

open Lib Lib.Prog

/-! ## Strings -/

/-- A C string ends at its first zero byte. -/
def cstr (s : List Byte) : List Byte := s.takeWhile (· ≠ 0)

/-- `strncmp`. -/
def strncmp : Nat → List Byte → List Byte → Int
  | 0, _, _ => 0
  | n + 1, p, q =>
    if p.headD 0 ≠ 0 ∧ p.headD 0 = q.headD 0 then strncmp n p.tail q.tail
    else (p.headD 0).toNat - (q.headD 0).toNat

/-- `strncpy` into a field of `n` bytes, which pads with zeros. -/
def strncpy (n : Nat) (t : List Byte) : List Byte :=
  (cstr t).take n ++ List.replicate (n - ((cstr t).take n).length) 0

def namecmp (s t : List Byte) : Int := strncmp DIRSIZ s t

/-- `"."` -/
def dot : List Byte := [0x2e]
/-- `".."` -/
def dotdot : List Byte := [0x2e, 0x2e]
/-- The byte that separates path elements. -/
def slash : Byte := 0x2f

/-! ## Directory entries -/

/-- `struct dirent`. -/
@[ext] structure Dirent where
  inum : BitVec 16
  name : List Byte
  deriving DecidableEq, Repr

namespace Dirent

/-- The entry in a buffer of `sizeof(de)` bytes. -/
def ofBytes (l : List Byte) : Dirent := ⟨(l.getD 1 0 ++ l.getD 0 0 : BitVec (8 + 8)), l.drop 2⟩

/-- The bytes of an entry. -/
def toBytes (de : Dirent) : List Byte :=
  de.inum.extractLsb' 0 8 :: de.inum.extractLsb' 8 8 :: de.name

end Dirent

/-- A source that is a buffer in the kernel. -/
def kernelSrc (bytes : List Byte) : Nat → Option Byte := fun i => some (bytes.getD i 0)

/-- `readi(dp, 0, (uint64)&de, off, sizeof(de))`, which panics if it returns another number. -/
def readDirent (dp : Ptr) (off : Nat) (msg : String) : Prog State Dirent := do
  let (r, bytes) ← readi dp (fun _ => true) off DIRENT
  if r = some DIRENT then pure (.ofBytes bytes) else stop msg

/-- The loop of `dirlookup`: the entry that matches, and its offset. -/
def dirlookupLoop (dp : Ptr) (name : List Byte) : (fuel off : Nat) → Prog State (Option (Ptr × Nat))
  | 0, _ => pure none
  | fuel + 1, off => do
    if off < ((← get).itable dp).size.toNat then
      let de ← readDirent dp off "dirlookup read"
      if de.inum = 0 then
        dirlookupLoop dp name fuel (off + DIRENT)
      else if namecmp name de.name = 0 then
        let ip ← iget de.inum.toNat
        pure (some (ip, off))
      else
        dirlookupLoop dp name fuel (off + DIRENT)
    else
      pure none

/-- Look for a directory entry in a directory; if found, also its byte offset. -/
def dirlookup (dp : Ptr) (name : List Byte) : Prog State (Option (Ptr × Nat)) := do
  let x := (← get).itable dp
  if x.type ≠ T_DIR then
    stop "dirlookup not DIR"
  else
    dirlookupLoop dp name x.size.toNat 0

/-- The loop of `dirlink`: the offset of an empty entry, or the end of the directory. -/
def dirlinkLoop (dp : Ptr) : (fuel off : Nat) → Prog State Nat
  | 0, off => pure off
  | fuel + 1, off => do
    if off < ((← get).itable dp).size.toNat then
      let de ← readDirent dp off "dirlink read"
      if de.inum = 0 then pure off else dirlinkLoop dp fuel (off + DIRENT)
    else
      pure off

/-- Write a new directory entry (name, inum) into the directory `dp`; false on failure. -/
def dirlink (dp : Ptr) (name : List Byte) (inum : Nat) : Prog State Bool := do
  match ← dirlookup dp name with
  | some (ip, _) =>
    iput ip
    pure false
  | none =>
    let off ← dirlinkLoop dp ((← get).itable dp).size.toNat 0
    let de : Dirent := ⟨BitVec.ofNat 16 inum, strncpy DIRSIZ name⟩
    let r ← writei dp (kernelSrc de.toBytes) off DIRENT
    pure (decide (r = some DIRENT))

/-! ## Paths -/

/-- Copy the next path element from path into name; the rest of the path has no leading slashes. -/
def skipelem (path : List Byte) : Option (List Byte × List Byte) :=
  let path := path.dropWhile (· = slash)
  if path = [] then none
  else some ((path.takeWhile (· ≠ slash)).take DIRSIZ,
    (path.dropWhile (· ≠ slash)).dropWhile (· = slash))

/-- The elements that `skipelem` takes from a path, one after the other. -/
def elems : (fuel : Nat) → List Byte → List (List Byte)
  | 0, _ => []
  | fuel + 1, path =>
    match skipelem path with
    | none => []
    | some (name, rest) => name :: elems fuel rest

/-- The elements of a path. -/
def pathElems (path : List Byte) : List (List Byte) := elems (cstr path).length (cstr path)

/-- The loop of `namex`, over the path elements that are left. -/
def namexLoop (nameiparent : Bool) : List (List Byte) → Ptr → Prog State (Option (Ptr × List Byte))
  | [], ip => do
    if nameiparent then
      iput ip
      pure none
    else
      pure (some (ip, []))
  | name :: rest, ip => do
    ilock ip
    if ((← get).itable ip).type ≠ T_DIR then
      iunlockput ip
      pure none
    else if nameiparent ∧ rest = [] then
      -- stop one level early
      iunlock ip
      pure (some (ip, name))
    else
      match ← dirlookup ip name with
      | none =>
        iunlockput ip
        pure none
      | some (next, _) =>
        iunlockput ip
        namexLoop nameiparent rest next

/-- Look up and return the inode for a path name, or that of its parent with the last element. -/
def namex (cwd : Ptr) (path : List Byte) (nameiparent : Bool) :
    Prog State (Option (Ptr × List Byte)) := do
  let ip ← (if (cstr path).head? = some slash then iget ROOTINO else idup cwd)
  namexLoop nameiparent (pathElems path) ip

def namei (cwd : Ptr) (path : List Byte) : Prog State (Option Ptr) := do
  pure ((← namex cwd path false).map Prod.fst)

def nameiparent (cwd : Ptr) (path : List Byte) : Prog State (Option (Ptr × List Byte)) :=
  namex cwd path true

/-! ## `kernel/sysfile.c` -/

/-- `ip->nlink = …; iupdate(ip)`. -/
def setNlink (ip : Ptr) (g : BitVec 16 → BitVec 16) : Prog State Unit := do
  setInode ip fun x => { x with nlink := g x.nlink }
  iupdate ip

/-- `bad:` of `sys_link`. -/
def sysLinkBad (ip : Ptr) : Prog State Int := do
  ilock ip
  setNlink ip (· - 1)
  iunlockput ip
  pure (-1)

/-- Create the path `new` as a link to the same inode as `old`. -/
def sysLink (cwd : Ptr) (old new : List Byte) : Prog State Int := do
  match ← namei cwd old with
  | none => pure (-1)
  | some ip =>
    ilock ip
    if ((← get).itable ip).type = T_DIR then
      iunlockput ip
      pure (-1)
    else
      setNlink ip (· + 1)
      iunlock ip
      match ← nameiparent cwd new with
      | none => sysLinkBad ip
      | some (dp, name) =>
        ilock dp
        if ← dirlink dp name ((← get).itable ip).inum then
          iunlockput dp
          iput ip
          pure 0
        else
          iunlockput dp
          sysLinkBad ip

/-- The loop of `isdirempty`. -/
def isdiremptyLoop (dp : Ptr) : (fuel off : Nat) → Prog State Bool
  | 0, _ => pure true
  | fuel + 1, off => do
    if off < ((← get).itable dp).size.toNat then
      let de ← readDirent dp off "isdirempty: readi"
      if de.inum ≠ 0 then pure false else isdiremptyLoop dp fuel (off + DIRENT)
    else
      pure true

/-- Is the directory `dp` empty except for "." and ".."? -/
def isdirempty (dp : Ptr) : Prog State Bool := do
  isdiremptyLoop dp ((← get).itable dp).size.toNat (2 * DIRENT)

/-- `bad:` of `sys_unlink`. -/
def sysUnlinkBad (dp : Ptr) : Prog State Int := do
  iunlockput dp
  pure (-1)

/-- `memset(&de, 0, sizeof(de))` and `writei`, in `sys_unlink`. -/
def eraseDirent (dp : Ptr) (off : Nat) : Prog State Unit := do
  let r ← writei dp (kernelSrc (List.replicate DIRENT 0)) off DIRENT
  if r = some DIRENT then pure () else stop "unlink: writei"

/-- `sys_unlink`. -/
def sysUnlink (cwd : Ptr) (path : List Byte) : Prog State Int := do
  match ← nameiparent cwd path with
  | none => pure (-1)
  | some (dp, name) =>
    ilock dp
    if namecmp name dot = 0 ∨ namecmp name dotdot = 0 then
      sysUnlinkBad dp
    else
      match ← dirlookup dp name with
      | none => sysUnlinkBad dp
      | some (ip, off) =>
        ilock ip
        let x := (← get).itable ip
        if x.nlink.toInt < 1 then
          stop "unlink: nlink < 1"
        else
          let keep ← (if x.type = T_DIR then do pure (!(← isdirempty ip)) else pure false)
          if keep then
            iunlockput ip
            sysUnlinkBad dp
          else
            eraseDirent dp off
            (if x.type = T_DIR then setNlink dp (· - 1) else pure ())
            iunlockput dp
            setNlink ip (· - 1)
            iunlockput ip
            pure 0

/-- `fail:` of `create`. -/
def createFail (ip dp : Ptr) : Prog State (Option Ptr) := do
  setNlink ip fun _ => 0
  iunlockput ip
  iunlockput dp
  pure none

/-- The entries `.` and `..` of a new directory; false if one could not be written. -/
def createDots (ip dp : Ptr) : Prog State Bool := do
  if ← dirlink ip dot ((← get).itable ip).inum then
    dirlink ip dotdot ((← get).itable dp).inum
  else
    pure false

/-- Create an inode with one link, at the path; returns it locked. -/
def create (cwd : Ptr) (path : List Byte) (type major minor : BitVec 16) :
    Prog State (Option Ptr) := do
  match ← nameiparent cwd path with
  | none => pure none
  | some (dp, name) =>
    ilock dp
    match ← dirlookup dp name with
    | some (ip, _) =>
      iunlockput dp
      ilock ip
      let t := ((← get).itable ip).type
      if type = T_FILE ∧ (t = T_FILE ∨ t = T_DEVICE) then
        pure (some ip)
      else
        iunlockput ip
        pure none
    | none =>
      match ← ialloc type with
      | none =>
        iunlockput dp
        pure none
      | some ip =>
        ilock ip
        setInode ip fun x => { x with major := major, minor := minor, nlink := 1 }
        iupdate ip
        let dots ← (if type = T_DIR then createDots ip dp else pure true)
        if dots then
          if ← dirlink dp name ((← get).itable ip).inum then
            (if type = T_DIR then setNlink dp (· + 1) else pure ())
            iunlockput dp
            pure (some ip)
          else
            createFail ip dp
        else
          createFail ip dp

end Xv6.Fs
