import Mathlib.Algebra.Group.Int.Defs
import Mathlib.Algebra.GroupWithZero.Nat
import Mathlib.Tactic.Common

namespace Xv6

-- kernel/riscv.h, kernel/memlayout.h and kernel/param.h.
def PGSIZE : Nat := 4096
def KERNBASE : Nat := 0x80000000
def PHYSTOP : Nat := KERNBASE + 128 * 1024 * 1024
def MAXPAGES : Nat := PHYSTOP / PGSIZE
def MAXVA : Nat := 2 ^ 38
def TRAMPOLINE : Nat := MAXVA - PGSIZE
def TRAPFRAME : Nat := TRAMPOLINE - PGSIZE
def NPROC : Nat := 64
def NOFILE : Nat := 16
def MAXOPBLOCKS : Nat := 10
def LOGSIZE : Nat := MAXOPBLOCKS * 3
def MAXARG : Nat := 32
def USERSTACK : Nat := 1

-- For the numerals of Fin.
instance neZero_two : NeZero 2 := ⟨by decide⟩
instance neZero_512 : NeZero 512 := ⟨by decide⟩

theorem NPROC_pos : 0 < NPROC := by decide
theorem one_lt_NPROC : 1 < NPROC := by decide
theorem PGSIZE_eq : PGSIZE = 4096 := rfl
theorem PHYSTOP_eq : PHYSTOP = 0x88000000 := rfl
theorem MAXPAGES_eq : MAXPAGES = 0x88000 := rfl
theorem MAXVA_eq : MAXVA = 0x4000000000 := rfl
theorem TRAMPOLINE_eq : TRAMPOLINE = 0x3ffffff000 := rfl
theorem TRAPFRAME_eq : TRAPFRAME = 0x3fffffe000 := rfl
theorem LOGSIZE_eq : LOGSIZE = 30 := rfl

-- The symbols that kernel.ld defines: `end` is the first address after the
-- kernel image, `trampoline` the page-aligned page inside it.
structure Layout where
  kend : Nat
  trampoline : Nat
  base_le : KERNBASE ≤ trampoline
  aligned : trampoline % PGSIZE = 0
  below : trampoline + PGSIZE ≤ kend
  inside : kend ≤ PHYSTOP

-- A kernel image that ends 136 KiB after KERNBASE.
def sampleLayout : Layout where
  kend := 0x80022000
  trampoline := 0x80007000
  base_le := by decide
  aligned := by decide
  below := by decide
  inside := by decide

-- uint64 and int arithmetic wrap; `int` values are kept in [-2^31, 2^31).
def wrap64 (x : Nat) : Nat := x % 2 ^ 64
def wrap32 (x : Int) : Int := Int.bmod x (2 ^ 32)

theorem wrap64_eq_of_lt (h : x < 2 ^ 64) : wrap64 x = x := Nat.mod_eq_of_lt h

theorem wrap32_eq (hl : -0x80000000 ≤ x) (hu : x < 0x80000000) : wrap32 x = x := by
  unfold wrap32
  apply Int.bmod_eq_of_le <;> simp <;> omega

def PGROUNDUP (sz : Nat) : Nat := wrap64 (sz + PGSIZE - 1) / PGSIZE * PGSIZE
def PGROUNDDOWN (a : Nat) : Nat := a / PGSIZE * PGSIZE

-- The calls of panic() in the modelled functions, with the text each passes.
inductive Panic where
  | kfree          -- "kfree"
  | pa2pageindex   -- "pa2pageindex: out of range"
  | decref         -- "decref: refcount underflow"
  | walk           -- "walk"
  | mappagesVa     -- "mappages: va not aligned"
  | mappagesSize   -- "mappages: size not aligned"
  | mappagesZero   -- "mappages: size"
  | mappagesRemap  -- "mappages: remap"
  | uvmunmap       -- "uvmunmap: not aligned"
  | uvmclear       -- "uvmclear"
  | freewalkLeaf   -- "freewalk: leaf"
  | loadseg        -- "loadseg: address should exist"
  | initExiting    -- "init exiting"
  | kerneltrap     -- "kerneltrap": here, the use of a null pointer
  | stack          -- no panic() of its own: freewalk() deeper than a page table
  deriving DecidableEq, Repr

end Xv6
