import Xv6.Kalloc
import Xv6.Pte

namespace Xv6

open Lib

-- The functions of kernel/vm.c on user page tables. A pointer to an entry is
-- the page-table page and the index in it; a null pointer is none.

def walkFrom (va : Nat) (alloc : Bool) :
    Nat → Nat → Phys → Except Panic (Option (Nat × Fin 512) × Phys)
  | 0, pagetable, s => .ok (some (pagetable, PX 0 va), s)
  | level + 1, pagetable, s =>
    let i := PX (level + 1) va
    let pte := s.mem pagetable i
    if hasFlag pte PTE_V then walkFrom va alloc level (PTE2PA pte) s
    else if alloc then do
      let (page, s) ← kalloc s
      if page = 0 then return (none, s) else
        walkFrom va alloc level page ((s.memset page 0).store pagetable i (PA2PTE page ||| PTE_V))
    else .ok (none, s)

def walk (pagetable va : Nat) (alloc : Bool) (s : Phys) :
    Except Panic (Option (Nat × Fin 512) × Phys) :=
  if MAXVA ≤ va then .error .walk else walkFrom va alloc 2 pagetable s

def walkaddr (pagetable va : Nat) (s : Phys) : Except Panic Nat :=
  if MAXVA ≤ va then .ok 0 else do
    let (loc, s) ← walk pagetable va false s
    match loc with
    | none => return 0
    | some (b, i) =>
      let pte := s.mem b i
      if ¬hasFlag pte PTE_V then return 0
      else if ¬hasFlag pte PTE_U then return 0
      else return PTE2PA pte

-- The loop of mappages(), with the number of pages that are left: the test
-- `a == last` stops it after size / PGSIZE pages, also where the sums wrap.
def mappagesLoop (pagetable : Nat) (perm : Pte) : Nat → Nat → Nat → Phys → Except Panic (Int × Phys)
  | 0, _, _, s => .ok (0, s)
  | n + 1, a, pa, s => do
      let (loc, s) ← walk pagetable a true s
      match loc with
      | none => return (-1, s)
      | some (b, i) =>
        if hasFlag (s.mem b i) PTE_V then .error .mappagesRemap else
          mappagesLoop pagetable perm n (wrap64 (a + PGSIZE)) (wrap64 (pa + PGSIZE))
            (s.store b i (PA2PTE pa ||| perm ||| PTE_V))

def mappages (pagetable va size pa : Nat) (perm : Pte) (s : Phys) : Except Panic (Int × Phys) :=
  if va % PGSIZE ≠ 0 then .error .mappagesVa
  else if size % PGSIZE ≠ 0 then .error .mappagesSize
  else if size = 0 then .error .mappagesZero
  else mappagesLoop pagetable perm (size / PGSIZE) va pa s

def unmapPage (L : Layout) (pagetable a : Nat) (do_free : Bool) (s : Phys) : Except Panic Phys := do
  let (loc, s) ← walk pagetable a false s
  match loc with
  | none => return s
  | some (b, i) =>
    if ¬hasFlag (s.mem b i) PTE_V then return s
    else if do_free then do
      let s ← kfree L (PTE2PA (s.mem b i)) s
      return s.store b i 0#64
    else return s.store b i 0#64

-- for(a = va; a < last; a += PGSIZE): no more turns than pages in [va, last).
def uvmunmapLoop (L : Layout) (pagetable : Nat) (do_free : Bool) (last : Nat) :
    Nat → Nat → Phys → Except Panic Phys
  | 0, _, s => .ok s
  | n + 1, a, s =>
    if a < last then do
      let s ← unmapPage L pagetable a do_free s
      uvmunmapLoop L pagetable do_free last n (wrap64 (a + PGSIZE)) s
    else .ok s

def uvmunmap (L : Layout) (pagetable va npages : Nat) (do_free : Bool) (s : Phys) :
    Except Panic Phys :=
  if va % PGSIZE ≠ 0 then .error .uvmunmap
  else uvmunmapLoop L pagetable do_free (wrap64 (va + npages * PGSIZE)) npages va s

def uvmcreate (s : Phys) : Except Panic (Nat × Phys) := do
  let (pagetable, s) ← kalloc s
  if pagetable = 0 then return (0, s) else return (pagetable, s.memset pagetable 0)

def uvmdealloc (L : Layout) (pagetable oldsz newsz : Nat) (s : Phys) : Except Panic (Nat × Phys) :=
  if oldsz ≤ newsz then .ok (oldsz, s)
  else if PGROUNDUP newsz < PGROUNDUP oldsz then do
    -- int npages, passed on as uint64
    let npages := wrap32 (((PGROUNDUP oldsz - PGROUNDUP newsz) / PGSIZE : Nat) : Int)
    let s ← uvmunmap L pagetable (PGROUNDUP newsz) (npages % 2 ^ 64).toNat true s
    return (newsz, s)
  else .ok (newsz, s)

-- The loop of uvmalloc(); `start` is PGROUNDUP(oldsz). The result is false
-- where the C function returns 0.
def uvmallocLoop (L : Layout) (pagetable start newsz : Nat) (xperm : Pte) :
    Nat → Nat → Phys → Except Panic (Bool × Phys)
  | 0, _, s => .ok (true, s)
  | n + 1, a, s =>
    if a < newsz then do
      let (mem, s) ← kalloc s
      if mem = 0 then do
        let (_, s) ← uvmdealloc L pagetable a start s
        return (false, s)
      else do
        let (r, s) ← mappages pagetable a PGSIZE mem (PTE_R ||| PTE_U ||| xperm) (s.memset mem 0)
        if r ≠ 0 then do
          let s ← kfree L mem s
          let (_, s) ← uvmdealloc L pagetable a start s
          return (false, s)
        else uvmallocLoop L pagetable start newsz xperm n (wrap64 (a + PGSIZE)) s
    else .ok (true, s)

def uvmalloc (L : Layout) (pagetable oldsz newsz : Nat) (xperm : Pte) (s : Phys) :
    Except Panic (Nat × Phys) :=
  if newsz < oldsz then .ok (oldsz, s) else do
    let start := PGROUNDUP oldsz
    let turns := (newsz - start + (PGSIZE - 1)) / PGSIZE
    let (done, s) ← uvmallocLoop L pagetable start newsz xperm turns start s
    return (if done then newsz else 0, s)

-- The body of freewalk()'s loop for each entry from `i` on, with `recur` for
-- the recursive call.
def freewalkLoop (pagetable : Nat) (recur : Nat → Phys → Except Panic Phys) :
    Nat → Phys → Except Panic Phys
  | 0, s => .ok s
  | n + 1, s => do
      let i : Fin 512 := Fin.ofNat 512 (512 - (n + 1))
      let pte := s.mem pagetable i
      if hasFlag pte PTE_V ∧ innerPte pte then do
        let s ← recur (PTE2PA pte) s
        freewalkLoop pagetable recur n (s.store pagetable i 0#64)
      else if hasFlag pte PTE_V then .error .freewalkLeaf
      else freewalkLoop pagetable recur n s

-- `depth` bounds the recursion: a page table has three levels.
def freewalkAt (L : Layout) : Nat → Nat → Phys → Except Panic Phys
  | 0, _, _ => .error .stack
  | depth + 1, pagetable, s => do
      let s ← freewalkLoop pagetable (freewalkAt L depth) 512 s
      kfree L pagetable s

def freewalk (L : Layout) (pagetable : Nat) (s : Phys) : Except Panic Phys :=
  freewalkAt L 3 pagetable s

def uvmfree (L : Layout) (pagetable sz : Nat) (s : Phys) : Except Panic Phys := do
  let s ← if 0 < sz then uvmunmap L pagetable 0 (PGROUNDUP sz / PGSIZE) true s else .ok s
  freewalk L pagetable s

-- memmove(dst, src, PGSIZE) of one page to another.
def Phys.copyPage (s : Phys) (dst src : Nat) : Phys :=
  { s with mem := Function.update s.mem dst (s.mem src) }

-- The loop of uvmcopy(). Where it jumps to err, the result is the i it stopped at.
def uvmcopyLoop (L : Layout) (old new sz : Nat) :
    Nat → Nat → Phys → Except Panic (Option Nat × Phys)
  | 0, _, s => .ok (none, s)
  | n + 1, i, s =>
    if i < sz then do
      let (loc, s) ← walk old i false s
      match loc with
      | none => uvmcopyLoop L old new sz n (wrap64 (i + PGSIZE)) s
      | some (b, k) =>
        let pte := s.mem b k
        if ¬hasFlag pte PTE_V then uvmcopyLoop L old new sz n (wrap64 (i + PGSIZE)) s
        else do
          let (mem, s) ← kalloc s
          if mem = 0 then return (some i, s) else do
            let (r, s) ← mappages new i PGSIZE mem (PTE_FLAGS pte) (s.copyPage mem (PTE2PA pte))
            if r ≠ 0 then do
              let s ← kfree L mem s
              return (some i, s)
            else uvmcopyLoop L old new sz n (wrap64 (i + PGSIZE)) s
    else .ok (none, s)

def uvmcopy (L : Layout) (old new sz : Nat) (s : Phys) : Except Panic (Int × Phys) := do
  let (stop, s) ← uvmcopyLoop L old new sz ((sz + (PGSIZE - 1)) / PGSIZE) 0 s
  match stop with
  | none => return (0, s)
  | some i => do
      let s ← uvmunmap L new 0 (i / PGSIZE) true s
      return (-1, s)

def uvmclear (pagetable va : Nat) (s : Phys) : Except Panic Phys := do
  let (loc, s) ← walk pagetable va false s
  match loc with
  | none => .error .uvmclear
  | some (b, i) => return s.store b i (s.mem b i &&& ~~~PTE_U)

def ismapped (pagetable va : Nat) (s : Phys) : Except Panic Bool := do
  let (loc, s) ← walk pagetable va false s
  match loc with
  | none => return false
  | some (b, i) => return decide (hasFlag (s.mem b i) PTE_V)

-- p->sz and p->pagetable of myproc(). The page table that vmfault() is given
-- need not be that of the process.
structure Self where
  sz : Nat
  pagetable : Nat

def vmfault (L : Layout) (p : Self) (pagetable va : Nat) (s : Phys) : Except Panic (Nat × Phys) :=
  if p.sz ≤ va then .ok (0, s) else do
    let va := PGROUNDDOWN va
    if ← ismapped pagetable va s then return (0, s) else do
      let (ka, s) ← kalloc s
      if ka = 0 then return (0, s) else do
        let (r, s) ← mappages p.pagetable va PGSIZE ka (PTE_W ||| PTE_U ||| PTE_R) (s.memset ka 0)
        if r ≠ 0 then do
          let s ← kfree L ka s
          return (0, s)
        else return (ka, s)

-- The bytes of a page. A word holds its bytes with the lowest address lowest.
abbrev Byte := BitVec 8

def byteOf (w : BitVec 64) (k : Nat) : Byte := w.extractLsb' (8 * k) 8

def packBytes (f : Nat → Byte) : BitVec 64 :=
  f 7 ++ f 6 ++ f 5 ++ f 4 ++ f 3 ++ f 2 ++ f 1 ++ f 0

def pageByte (page : Fin 512 → BitVec 64) (off : Nat) : Byte :=
  byteOf (page (Fin.ofNat 512 (off / 8))) (off % 8)

def Phys.readBytes (s : Phys) (pa off n : Nat) : List Byte :=
  (List.range n).map fun k => byteOf (s.mem pa (Fin.ofNat 512 ((off + k) / 8))) ((off + k) % 8)

def Phys.writeBytes (s : Phys) (pa off : Nat) (bytes : List Byte) : Phys :=
  { s with
    mem := Function.update s.mem pa fun w => packBytes fun k =>
      if off ≤ 8 * w + k then (bytes[8 * w + k - off]?).getD (byteOf (s.mem pa w) k)
      else byteOf (s.mem pa w) k }

-- The page for va0 in copyout() and copyin(), faulted in if need be; 0 if there is none.
def userPage (L : Layout) (p : Self) (pagetable va0 : Nat) (s : Phys) : Except Panic (Nat × Phys) := do
  let pa0 ← walkaddr pagetable va0 s
  if pa0 = 0 then vmfault L p pagetable va0 s else return (pa0, s)

-- Each turn of the loops of copyout() and copyin() takes at least one byte, so
-- that the number of bytes bounds the turns.
def copyoutLoop (L : Layout) (p : Self) (pagetable : Nat) :
    Nat → Nat → List Byte → Phys → Except Panic (Int × Phys)
  | 0, _, _, s => .ok (0, s)
  | turns + 1, dstva, src, s =>
    if src = [] then .ok (0, s) else
    let va0 := PGROUNDDOWN dstva
    if MAXVA ≤ va0 then .ok (-1, s) else do
      let (pa0, s) ← userPage L p pagetable va0 s
      if pa0 = 0 then return (-1, s) else do
        let (loc, s) ← walk pagetable va0 false s
        match loc with
        | none => .error .kerneltrap
        | some (b, i) =>
          if ¬hasFlag (s.mem b i) PTE_W then return (-1, s) else
            let n := PGSIZE - (dstva - va0)
            copyoutLoop L p pagetable turns (wrap64 (va0 + PGSIZE)) (src.drop n)
              (s.writeBytes pa0 (dstva - va0) (src.take n))

def copyout (L : Layout) (p : Self) (pagetable dstva : Nat) (src : List Byte) (s : Phys) :
    Except Panic (Int × Phys) :=
  copyoutLoop L p pagetable src.length dstva src s

-- The result has the bytes that were copied so far.
def copyinLoop (L : Layout) (p : Self) (pagetable : Nat) :
    Nat → Nat → Nat → List Byte → Phys → Except Panic (Int × List Byte × Phys)
  | 0, _, _, dst, s => .ok (0, dst, s)
  | turns + 1, srcva, len, dst, s =>
    if len = 0 then .ok (0, dst, s) else do
      let va0 := PGROUNDDOWN srcva
      let (pa0, s) ← userPage L p pagetable va0 s
      if pa0 = 0 then return (-1, dst, s) else
        let n := min (PGSIZE - (srcva - va0)) len
        copyinLoop L p pagetable turns (wrap64 (va0 + PGSIZE)) (len - n)
          (dst ++ s.readBytes pa0 (srcva - va0) n) s

def copyin (L : Layout) (p : Self) (pagetable srcva len : Nat) (s : Phys) :
    Except Panic (Int × List Byte × Phys) :=
  copyinLoop L p pagetable len srcva len [] s

end Xv6
