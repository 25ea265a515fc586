import Xv6.Proc

namespace Xv6

open Lib

-- Strings and words that the kernel takes from user memory: copyinstr() of kernel/vm.c,
-- fetchaddr() and fetchstr() of kernel/syscall.c. A buffer of the kernel is its bytes by
-- index, and a pointer into it is an index.
abbrev Buffer := Nat → Byte

-- The inner loop of copyinstr(), from byte p of page pa0 on. The result is got_null, and
-- what max and dst have come to.
def copyinstrBytes (s : Phys) (pa0 : Nat) : Nat → Nat → Nat → Nat → Buffer → Bool × Nat × Nat × Buffer
  | 0, _, max, dst, buf => (false, max, dst, buf)
  | n + 1, p, max, dst, buf =>
    let c := byteOf (s.mem pa0 (Fin.ofNat 512 (p / 8))) (p % 8)
    if c = 0#8 then (true, max, dst, Function.update buf dst 0#8)
    else copyinstrBytes s pa0 n (p + 1) (max - 1) (dst + 1) (Function.update buf dst c)

-- A turn without a NUL takes at least one byte off max, which bounds the turns.
def copyinstrLoop (pagetable : Nat) (s : Phys) :
    Nat → Nat → Nat → Nat → Buffer → Except Panic (Int × Buffer)
  | 0, _, _, _, buf => .ok (-1, buf)
  | turns + 1, srcva, max, dst, buf =>
    if max = 0 then .ok (-1, buf) else do
      let va0 := PGROUNDDOWN srcva
      let pa0 ← walkaddr pagetable va0 s
      if pa0 = 0 then return (-1, buf) else
        let n := min (PGSIZE - (srcva - va0)) max
        let (got_null, max, dst, buf) := copyinstrBytes s pa0 n (srcva - va0) max dst buf
        if got_null then return (0, buf)
        else copyinstrLoop pagetable s turns (wrap64 (va0 + PGSIZE)) max dst buf

def copyinstr (pagetable : Nat) (dst : Buffer) (srcva max : Nat) (s : Phys) : Except Panic (Int × Buffer) :=
  copyinstrLoop pagetable s max srcva max 0 dst

-- strlen() of kernel/string.c, for a buffer of `size` bytes: none if it runs past its end.
def strlenFrom (s : Buffer) : Nat → Nat → Option Nat
  | 0, _ => none
  | size + 1, n => if s n = 0#8 then some n else strlenFrom s size (n + 1)

def strlen (s : Buffer) (size : Nat) : Option Nat := strlenFrom s size 0

-- max is an int, and copyinstr() takes a uint64.
def fetchstr (p : Self) (addr : Nat) (buf : Buffer) (max : Int) (s : Phys) : Except Panic (Int × Buffer) := do
  let (r, buf) ← copyinstr p.pagetable buf addr (toU64 max) s
  if r < 0 then return (-1, buf) else
    match strlen buf (toU64 max) with
    | none => .error .kerneltrap
    | some n => return (wrap32 n, buf)

end Xv6
