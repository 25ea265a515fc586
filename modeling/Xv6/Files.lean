import Xv6.Dir

namespace Xv6.Fs

open Lib

-- kernel/fs.c and kernel/sysfile.c on the disk. Between the calls the copy of an inode in the
-- inode table is the one on the disk, since every change of it ends with iupdate().

def ialloc (sb : Super) (type : FileType) (D : Disk) : Option (Nat × Disk) :=
  match (List.range' 1 (sb.ninodes - 1)).find? fun inum => (D.dinodes inum).type = .free with
  | some inum => some (inum, iupdate inum { Dinode.zero with type := type } D)
  | none => none

-- The part of iput() for the last reference to an inode that has no links.
def ifree (inum : Nat) (D : Disk) : Except FsPanic Disk := do
  let (ip, D) ← itrunc inum (D.dinodes inum) D
  return iupdate inum { ip with type := .free } D

-- The entries "." and ".." of a new directory, and whether both have been made.
def createDots (sb : Super) (dnum inum : Nat) (ip : Dinode) (D : Disk) : Except FsPanic (Bool × Dinode × Disk) := do
  let (r, ip, D) ← dirlink sb inum ip dot inum D
  if r < 0 then return (false, ip, D)
  let (r, ip, D) ← dirlink sb inum ip dotdot dnum D
  return (!decide (r < 0), ip, D)

-- The end of create() when something went wrong.
def createFail (inum : Nat) (ip : Dinode) (D : Disk) : Except FsPanic (Option Nat × Disk) := do
  let D ← ifree inum (iupdate inum { ip with nlink := 0 } D)
  return (none, D)

-- create() with the inode that ialloc() has returned.
def createNew (sb : Super) (dnum inum : Nat) (dp : Dinode) (name : Chars) (type : FileType) (major minor : Int)
    (D : Disk) : Except FsPanic (Option Nat × Disk) := do
  let ip := { D.dinodes inum with major := major, minor := minor, nlink := 1 }
  let D := iupdate inum ip D
  let (dots, ip, D) ← (if type = .T_DIR then createDots sb dnum inum ip D else pure (true, ip, D))
  if dots = false then createFail inum ip D
  else do
    let (r, dp, D) ← dirlink sb dnum dp name inum D
    if r < 0 then createFail inum ip D
    else if type = .T_DIR then
      return (some inum, iupdate dnum { dp with nlink := wrap16 (dp.nlink + 1) } D)
    else return (some inum, D)

-- create() with the directory that nameiparent() has found.
def create (sb : Super) (dnum : Nat) (name : Chars) (type : FileType) (major minor : Int) (D : Disk) :
    Except FsPanic (Option Nat × Disk) := do
  let (found, dp, D) ← dirlookup sb (D.dinodes dnum) name D
  match found with
  | some (inum, _) =>
    let ip := D.dinodes inum
    if ip.type = .free then .error .ilockType
    else if type = .T_FILE ∧ (ip.type = .T_FILE ∨ ip.type = .T_DEVICE) then return (some inum, D)
    else return (none, D)
  | none =>
    match ialloc sb type D with
    | none => return (none, D)
    | some (inum, D) => createNew sb dnum inum dp name type major minor D

-- sys_unlink() with the inode that the name stands for. `last` tells that the process has the only
-- reference to it.
def unlinkFound (sb : Super) (dnum inum off : Nat) (dp : Dinode) (last : Bool) (D : Disk) :
    Except FsPanic (Option Int × Disk) := do
  let ip := D.dinodes inum
  if ip.type = .free then .error .ilockType
  else if ip.nlink < 1 then .error .unlinkNlink
  else do
    let (empty, ip, D) ← (if ip.type = .T_DIR then isdirempty sb ip D else pure (true, ip, D))
    if empty = false then return (some (-1), D)
    else do
      let (dp, D) ← unlinkEntry sb dnum dp off D
      let D := if ip.type = .T_DIR then iupdate dnum { dp with nlink := wrap16 (dp.nlink - 1) } D else D
      let ip := { ip with nlink := wrap16 (ip.nlink - 1) }
      let D := iupdate inum ip D
      if ip.nlink = 0 ∧ last = true then do
        let D ← ifree inum D
        return (some 0, D)
      else return (some 0, D)

-- sys_unlink() from the directory on that nameiparent() has found. A call for the directory itself would wait
-- for its own lock: it returns nothing.
def unlink (sb : Super) (dnum : Nat) (name : Chars) (last : Bool) (D : Disk) : Except FsPanic (Option Int × Disk) := do
  if namecmp name dot = 0 ∨ namecmp name dotdot = 0 then return (some (-1), D)
  let (found, dp, D) ← dirlookup sb (D.dinodes dnum) name D
  match found with
  | none => return (some (-1), D)
  | some (inum, off) =>
    if inum = dnum then return (none, D) else unlinkFound sb dnum inum off dp last D

-- readi() outside of a transaction, as fileread() calls it: log_write() panics there, and balloc() comes to it
-- when it has found a block.
inductive Outside where
  | fs (e : FsPanic)
  | logWrite  -- "log_write outside of trans"
  deriving DecidableEq

def ballocOutside (sb : Super) (D : Disk) : Except Outside (Nat × Disk) :=
  match (List.range sb.size).find? fun b => !D.bitmap b with
  | some _ => .error .logWrite
  | none => .ok (0, D)

def bmapEntryOutside (sb : Super) (addr bn : Nat) (D : Disk) : Except Outside (Nat × Disk) :=
  if getUint (D.data addr) bn = 0 then ballocOutside sb D else .ok (getUint (D.data addr) bn, D)

def bmapOutside (sb : Super) (ip : Dinode) (bn : Nat) (D : Disk) : Except Outside (Nat × Dinode × Disk) :=
  if bn < NDIRECT then
    if ip.addrs bn = 0 then do
      let (addr, D) ← ballocOutside sb D
      return (addr, ip, D)
    else .ok (ip.addrs bn, ip, D)
  else if bn - NDIRECT < NINDIRECT then
    if ip.addrs NDIRECT = 0 then do
      let (addr, D) ← ballocOutside sb D
      return (addr, ip, D)
    else do
      let (a, D) ← bmapEntryOutside sb (ip.addrs NDIRECT) (bn - NDIRECT) D
      return (a, ip, D)
  else .error (.fs .bmap)

def readiLoopOutside (sb : Super) :
    Nat → Dinode → Nat → Nat → Nat → Nat → List Byte → Disk → Except Outside (Int × List Byte × Dinode × Disk)
  | 0, ip, _, _, _, tot, out, D => .ok (tot, out, ip, D)
  | turns + 1, ip, room, off, n, tot, out, D =>
    if tot < n then do
      let (addr, ip, D) ← bmapOutside sb ip (off / BSIZE) D
      if addr = 0 then return (tot, out, ip, D)
      let m := min (n - tot) (BSIZE - off % BSIZE)
      let bytes := readAt (D.data addr) (off % BSIZE) m
      if room < m then return (-1, out ++ bytes.take room, ip, D)
      readiLoopOutside sb turns ip (room - m) (off + m) n (tot + m) (out ++ bytes) D
    else .ok (tot, out, ip, D)

def readiOutside (sb : Super) (ip : Dinode) (room off n : Nat) (D : Disk) :
    Except Outside (Int × List Byte × Dinode × Disk) :=
  if off > ip.size ∨ wrapU32 (off + n) < off then .ok (0, [], ip, D)
  else
    let n := if wrapU32 (off + n) > ip.size then ip.size - off else n
    readiLoopOutside sb n ip room off n 0 [] D

end Xv6.Fs
