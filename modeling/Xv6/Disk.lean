import Xv6.Exec
import Xv6.Lib.Memory

namespace Xv6.Fs

open Lib Function

-- kernel/fs.h. A block is read and written through the buffer cache inside a
-- transaction, so that a call sees one disk: the bits of the bitmap blocks, the
-- structures of the inode blocks, and the bytes of the blocks after them. The
-- inode and bitmap blocks lie below the data blocks (IBLOCK and BBLOCK).
def BSIZE : Nat := 1024
def NDIRECT : Nat := 12
def NINDIRECT : Nat := BSIZE / 4
def MAXFILE : Nat := NDIRECT + NINDIRECT

theorem BSIZE_eq : BSIZE = 1024 := rfl
theorem NDIRECT_eq : NDIRECT = 12 := rfl
theorem NINDIRECT_eq : NINDIRECT = 256 := rfl
theorem MAXFILE_eq : MAXFILE = 268 := rfl

-- A short, kept in [-2^15, 2^15).
def wrap16 (x : Int) : Int := Int.bmod x (2 ^ 16)

-- kernel/stat.h; an inode of type 0 is free.
inductive FileType where
  | free
  | T_DIR
  | T_FILE
  | T_DEVICE
  deriving DecidableEq, Repr

-- struct dinode, and the copy of it in a struct inode. addrs has NDIRECT+1 places.
structure Dinode where
  type : FileType
  major : Int
  minor : Int
  nlink : Int
  size : Nat
  addrs : Nat → Nat

-- memset(dip, 0, sizeof(*dip))
def Dinode.zero : Dinode where
  type := .free
  major := 0
  minor := 0
  nlink := 0
  size := 0
  addrs := fun _ => 0

def Dinode.setAddr (ip : Dinode) (i addr : Nat) : Dinode :=
  { ip with addrs := update ip.addrs i addr }

abbrev Block := Nat → Byte

def zeroBlock : Block := fun _ => 0

-- The n bytes of an integer, the lowest first, as `field` reads them.
def leBytes (n v : Nat) : List Byte := (List.range n).map fun k => BitVec.ofNat 8 (v / 256 ^ k)

-- An indirect block is an array of uint.
def getUint (a : Block) (j : Nat) : Nat := field (readAt a (4 * j) 4) 0 4
def setUint (a : Block) (j v : Nat) : Block := writeAt a (4 * j) (leBytes 4 v)

-- The fields of the superblock that tell what is where. The metadata blocks come
-- first; balloc() counts blocks with an int.
structure Super where
  size : Nat
  nblocks : Nat
  ninodes : Nat
  size_lt : size < 2 ^ 31
  nblocks_lt : nblocks < size

def Super.nmeta (sb : Super) : Nat := sb.size - sb.nblocks

structure Disk where
  bitmap : Nat → Bool
  dinodes : Nat → Dinode
  data : Nat → Block

def Disk.fill (D : Disk) (b : Nat) (block : Block) : Disk :=
  { D with data := update D.data b block }

-- The calls of panic() in the file system, with the text each passes.
inductive FsPanic where
  | bfree          -- "freeing free block"
  | bmap           -- "bmap: out of range"
  | iget           -- "iget: no inodes"
  | ilock          -- "ilock"
  | ilockType      -- "ilock: no type"
  | iunlock        -- "iunlock"
  | dirlookup      -- "dirlookup not DIR"
  | dirlookupRead  -- "dirlookup read"
  | dirlinkRead    -- "dirlink read"
  | isdirempty     -- "isdirempty: readi"
  | unlinkNlink    -- "unlink: nlink < 1"
  | unlinkWritei   -- "unlink: writei"
  | filedup        -- "filedup"
  | fileclose      -- "fileclose"
  | fileread       -- "fileread"
  | filewrite      -- "filewrite"
  | initExiting    -- "init exiting"
  | schedLocks     -- "sched locks": here, iput() that waits for a sleep-lock
  | fault          -- no panic() of its own: a null pointer
  | freed          -- no panic() of its own: a pipe whose page is free
  deriving DecidableEq, Repr

-- kernel/fs.c. The loops of balloc() go through the bits of 0 ≤ b < sb.size in order.
def balloc (sb : Super) (D : Disk) : Nat × Disk :=
  match (List.range sb.size).find? fun b => !D.bitmap b with
  | some b => (b, { D with bitmap := update D.bitmap b true }.fill b zeroBlock)
  | none => (0, D)

def bfree (b : Nat) (D : Disk) : Except FsPanic Disk :=
  if D.bitmap b then .ok { D with bitmap := update D.bitmap b false } else .error .bfree

def iupdate (inum : Nat) (ip : Dinode) (D : Disk) : Disk :=
  { D with dinodes := update D.dinodes inum ip }

-- The part of bmap() that has the indirect block.
def bmapEntry (sb : Super) (addr bn : Nat) (D : Disk) : Nat × Disk :=
  if getUint (D.data addr) bn = 0 then
    let (a, D) := balloc sb D
    if a = 0 then (0, D) else (a, D.fill addr (setUint (D.data addr) bn a))
  else (getUint (D.data addr) bn, D)

-- The block of ip that has number bn, the inode after the call, and the disk.
def bmap (sb : Super) (ip : Dinode) (bn : Nat) (D : Disk) : Except FsPanic (Nat × Dinode × Disk) :=
  if bn < NDIRECT then
    if ip.addrs bn = 0 then
      let (addr, D) := balloc sb D
      if addr = 0 then .ok (0, ip, D) else .ok (addr, ip.setAddr bn addr, D)
    else .ok (ip.addrs bn, ip, D)
  else if bn - NDIRECT < NINDIRECT then
    if ip.addrs NDIRECT = 0 then
      let (addr, D) := balloc sb D
      if addr = 0 then .ok (0, ip, D)
      else
        let (a, D) := bmapEntry sb addr (bn - NDIRECT) D
        .ok (a, ip.setAddr NDIRECT addr, D)
    else
      let (a, D) := bmapEntry sb (ip.addrs NDIRECT) (bn - NDIRECT) D
      .ok (a, ip, D)
  else .error .bmap

-- The loops of itrunc(), over the places of addrs and of the indirect block.
def itruncDirect : List Nat → Dinode → Disk → Except FsPanic (Dinode × Disk)
  | [], ip, D => .ok (ip, D)
  | i :: rest, ip, D =>
    if ip.addrs i = 0 then itruncDirect rest ip D
    else do
      let D ← bfree (ip.addrs i) D
      itruncDirect rest (ip.setAddr i 0) D

def itruncEntries (a : Block) : List Nat → Disk → Except FsPanic Disk
  | [], D => .ok D
  | j :: rest, D =>
    if getUint a j = 0 then itruncEntries a rest D
    else do
      let D ← bfree (getUint a j) D
      itruncEntries a rest D

def itruncIndirect (ip : Dinode) (D : Disk) : Except FsPanic (Dinode × Disk) :=
  if ip.addrs NDIRECT = 0 then .ok (ip, D)
  else do
    let D ← itruncEntries (D.data (ip.addrs NDIRECT)) (List.range NINDIRECT) D
    let D ← bfree (ip.addrs NDIRECT) D
    return (ip.setAddr NDIRECT 0, D)

def itrunc (inum : Nat) (ip : Dinode) (D : Disk) : Except FsPanic (Dinode × Disk) := do
  let (ip, D) ← itruncDirect (List.range NDIRECT) ip D
  let (ip, D) ← itruncIndirect ip D
  let ip := { ip with size := 0 }
  return (ip, iupdate inum ip D)

-- readi() delivers bytes to dst, of which the first `room` can be written: all of
-- them for a buffer of the kernel. Each turn of the loop takes at least one byte,
-- so n turns are enough.
def readiLoop (sb : Super) :
    Nat → Dinode → Nat → Nat → Nat → Nat → List Byte → Disk → Except FsPanic (Int × List Byte × Dinode × Disk)
  | 0, ip, _, _, _, tot, out, D => .ok (tot, out, ip, D)
  | turns + 1, ip, room, off, n, tot, out, D =>
    if tot < n then do
      let (addr, ip, D) ← bmap sb ip (off / BSIZE) D
      if addr = 0 then return (tot, out, ip, D)
      let m := min (n - tot) (BSIZE - off % BSIZE)
      let bytes := readAt (D.data addr) (off % BSIZE) m
      if room < m then return (-1, out ++ bytes.take room, ip, D)
      readiLoop sb turns ip (room - m) (off + m) n (tot + m) (out ++ bytes) D
    else .ok (tot, out, ip, D)

def readi (sb : Super) (ip : Dinode) (room off n : Nat) (D : Disk) :
    Except FsPanic (Int × List Byte × Dinode × Disk) :=
  if off > ip.size ∨ wrapU32 (off + n) < off then .ok (0, [], ip, D)
  else
    let n := if wrapU32 (off + n) > ip.size then ip.size - off else n
    readiLoop sb n ip room off n 0 [] D

-- writei() takes n bytes from src, of which `src` lists those that can be read. A
-- copy that fails has already filled the block with the bytes before the fault.
def writeiLoop (sb : Super) :
    Nat → Dinode → List Byte → Nat → Nat → Nat → Disk → Except FsPanic (Nat × Nat × Dinode × Disk)
  | 0, ip, _, off, _, tot, D => .ok (tot, off, ip, D)
  | turns + 1, ip, src, off, n, tot, D =>
    if tot < n then do
      let (addr, ip, D) ← bmap sb ip (off / BSIZE) D
      if addr = 0 then return (tot, off, ip, D)
      let m := min (n - tot) (BSIZE - off % BSIZE)
      let D := D.fill addr (writeAt (D.data addr) (off % BSIZE) (src.take m))
      if src.length < m then return (tot, off, ip, D)
      writeiLoop sb turns ip (src.drop m) (off + m) n (tot + m) D
    else .ok (tot, off, ip, D)

def writei (sb : Super) (inum : Nat) (ip : Dinode) (src : List Byte) (off n : Nat) (D : Disk) :
    Except FsPanic (Int × Dinode × Disk) :=
  if off > ip.size ∨ wrapU32 (off + n) < off then .ok (-1, ip, D)
  else if wrapU32 (off + n) > MAXFILE * BSIZE then .ok (-1, ip, D)
  else do
    let (tot, off, ip, D) ← writeiLoop sb n ip src off n 0 D
    let ip := if off > ip.size then { ip with size := off } else ip
    return ((tot : Int), ip, iupdate inum ip D)

end Xv6.Fs
