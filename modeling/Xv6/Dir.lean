import Xv6.Disk

namespace Xv6.Fs

open Lib

def DIRSIZ : Nat := 14

-- sizeof(struct dirent): a ushort and the name.
def sizeofDirent : Nat := 16

theorem sizeofDirent_eq : sizeofDirent = 16 := rfl

-- A char* is the memory from it on. These are the loops of kernel/string.c, at the i-th byte and
-- with n bytes to go; strncpy() gives the bytes that it stores.
abbrev Chars := Nat → Byte

def strncmp (p q : Chars) : Nat → Nat → Int
  | 0, _ => 0
  | n + 1, i => if p i ≠ 0 ∧ p i = q i then strncmp p q n (i + 1) else ((p i).toNat : Int) - (q i).toNat

def strncpy (t : Chars) : Nat → Nat → List Byte
  | 0, _ => []
  | n + 1, i => if t i ≠ 0 then t i :: strncpy t n (i + 1) else List.replicate (n + 1) 0

def namecmp (s t : Chars) : Int := strncmp s t DIRSIZ 0

def chars (s : List Byte) : Chars := fun i => s.getD i 0

def slash : Byte := 0x2f
def dot : Chars := chars [0x2e]
def dotdot : Chars := chars [0x2e, 0x2e]

-- A path is the bytes before its NUL. What skipelem() leaves of it, and what is in the buffer
-- for the name: a name that fills it has no NUL.
def skipelem (path : List Byte) (name : Chars) : Option (List Byte × Chars) :=
  let path := path.dropWhile (· = slash)
  if path = [] then none
  else
    let s := path.takeWhile (· ≠ slash)
    let path := path.dropWhile (· ≠ slash)
    let name := if s.length ≥ DIRSIZ then writeAt name 0 (s.take DIRSIZ) else writeAt name 0 (s ++ [0])
    some (path.dropWhile (· = slash), name)

def direntInum (de : List Byte) : Nat := field de 0 2
def direntName (de : List Byte) : Chars := chars (de.drop 2)

def dirent (inum : Nat) (name : List Byte) : List Byte := leBytes 2 inum ++ name

-- The loop of dirlookup(): the inode number and the offset of the entry. Each turn takes an
-- entry, so that the size is enough turns. iget() is left out.
def dirlookupLoop (sb : Super) (name : Chars) :
    Nat → Dinode → Nat → Disk → Except FsPanic (Option (Nat × Nat) × Dinode × Disk)
  | 0, dp, _, D => .ok (none, dp, D)
  | turns + 1, dp, off, D =>
    if off < dp.size then do
      let (r, de, dp, D) ← readi sb dp sizeofDirent off sizeofDirent D
      if r ≠ sizeofDirent then .error .dirlookupRead
      else if direntInum de = 0 then dirlookupLoop sb name turns dp (off + sizeofDirent) D
      else if namecmp name (direntName de) = 0 then .ok (some (direntInum de, off), dp, D)
      else dirlookupLoop sb name turns dp (off + sizeofDirent) D
    else .ok (none, dp, D)

def dirlookup (sb : Super) (dp : Dinode) (name : Chars) (D : Disk) :
    Except FsPanic (Option (Nat × Nat) × Dinode × Disk) :=
  if dp.type ≠ .T_DIR then .error .dirlookup else dirlookupLoop sb name dp.size dp 0 D

-- The loop of dirlink(): the offset of an empty dirent, or the end of the directory.
def dirlinkLoop (sb : Super) : Nat → Dinode → Nat → Disk → Except FsPanic (Nat × Dinode × Disk)
  | 0, dp, off, D => .ok (off, dp, D)
  | turns + 1, dp, off, D =>
    if off < dp.size then do
      let (r, de, dp, D) ← readi sb dp sizeofDirent off sizeofDirent D
      if r ≠ sizeofDirent then .error .dirlinkRead
      else if direntInum de = 0 then .ok (off, dp, D)
      else dirlinkLoop sb turns dp (off + sizeofDirent) D
    else .ok (off, dp, D)

-- dirlink(dp, name, inum), where dp has number dnum. The iput() of an entry that is there is left out.
def dirlink (sb : Super) (dnum : Nat) (dp : Dinode) (name : Chars) (inum : Nat) (D : Disk) :
    Except FsPanic (Int × Dinode × Disk) := do
  let (found, dp, D) ← dirlookup sb dp name D
  if found.isSome then return (-1, dp, D)
  let (off, dp, D) ← dirlinkLoop sb dp.size dp 0 D
  let (r, dp, D) ← writei sb dnum dp (dirent inum (strncpy name DIRSIZ 0)) off sizeofDirent D
  if r ≠ sizeofDirent then return (-1, dp, D)
  return (0, dp, D)

-- kernel/sysfile.c
def isdiremptyLoop (sb : Super) : Nat → Dinode → Nat → Disk → Except FsPanic (Bool × Dinode × Disk)
  | 0, dp, _, D => .ok (true, dp, D)
  | turns + 1, dp, off, D =>
    if off < dp.size then do
      let (r, de, dp, D) ← readi sb dp sizeofDirent off sizeofDirent D
      if r ≠ sizeofDirent then .error .isdirempty
      else if direntInum de ≠ 0 then .ok (false, dp, D)
      else isdiremptyLoop sb turns dp (off + sizeofDirent) D
    else .ok (true, dp, D)

def isdirempty (sb : Super) (dp : Dinode) (D : Disk) : Except FsPanic (Bool × Dinode × Disk) :=
  isdiremptyLoop sb dp.size dp (2 * sizeofDirent) D

-- The part of sys_unlink() that takes the entry at off out of the directory.
def unlinkEntry (sb : Super) (dnum : Nat) (dp : Dinode) (off : Nat) (D : Disk) : Except FsPanic (Dinode × Disk) := do
  let (r, dp, D) ← writei sb dnum dp (List.replicate sizeofDirent 0) off sizeofDirent D
  if r ≠ sizeofDirent then .error .unlinkWritei else return (dp, D)

end Xv6.Fs
