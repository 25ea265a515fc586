import Xv6.User
import Xv6.System.Ordinary

namespace Xv6

open Lib

-- What lazy allocation is to look like: the memory of a process as an array of bytes
-- below PGROUNDUP(sz), each with the flags of its page.
structure Flat where
  sz : Nat
  flags : Nat → Pte
  byte : Nat → Byte

-- The flags of a page that is there because of the size alone.
def EAGER : Pte := PTE_W ||| PTE_U ||| PTE_R

namespace Flat

def user (f : Flat) (va : Nat) : Prop := va < PGROUNDUP f.sz ∧ hasFlag (f.flags va) PTE_U

def writable (f : Flat) (va : Nat) : Prop := f.user va ∧ hasFlag (f.flags va) PTE_W

def permits (f : Flat) (a : Access) (va : Nat) : Prop := va < PGROUNDUP f.sz ∧ a.permitted (f.flags va)

instance decidableUser (f : Flat) (va : Nat) : Decidable (f.user va) := inferInstanceAs (Decidable (_ ∧ _))

instance decidableWritable (f : Flat) (va : Nat) : Decidable (f.writable va) :=
  inferInstanceAs (Decidable (_ ∧ _))

instance decidablePermits (f : Flat) (a : Access) (va : Nat) : Decidable (f.permits a va) :=
  inferInstanceAs (Decidable (_ ∧ _))

def write (f : Flat) (va : Nat) (bytes : List Byte) : Flat := { f with byte := writeAt f.byte va bytes }

-- Pages that the new size covers and the old one did not are zero.
def resize (f : Flat) (sz : Nat) : Flat where
  sz := sz
  flags := fun a => if a < PGROUNDUP f.sz then f.flags a else EAGER
  byte := fun a => if a < PGROUNDUP f.sz then f.byte a else 0

-- The smallest int has no negative, and sbrk() of it is refused as too much.
def sbrk (f : Flat) (n : Int) : Flat :=
  if 0 ≤ n then f.resize (f.sz + n.toNat)
  else if n = -0x80000000 ∨ f.sz < (-n).toNat then f
  else f.resize (f.sz - (-n).toNat)

def load (f : Flat) (va n : Nat) : Option (List Byte) :=
  if f.permits .load va then some (readAt f.byte va n) else none

-- Byte after byte, up to the first that is not the user's.
def copyin (f : Flat) : Nat → Nat → Int × List Byte
  | _, 0 => (0, [])
  | va, n + 1 =>
    if f.user va then
      let (r, bytes) := copyin f (va + 1) n
      (r, f.byte va :: bytes)
    else (-1, [])

def copyout (f : Flat) : Nat → List Byte → Int × Flat
  | _, [] => (0, f)
  | va, b :: src => if f.writable va then copyout (f.write va [b]) (va + 1) src else (-1, f)

end Flat

-- The memory behind a page table: a page that is not mapped counts as zero.
def viewFlags (m : Mem) (pagetable va : Nat) : Pte := (leafPte m 2 pagetable va).getD EAGER

def viewByte (m : Mem) (pagetable va : Nat) : Byte :=
  match leafPte m 2 pagetable va with
  | none => 0
  | some e => pageByte (m (PTE2PA e)) (va % PGSIZE)

def Kernel.flat (k : Kernel) (p : Fin NPROC) : Flat where
  sz := (k.procs p).sz
  flags := viewFlags k.phys.mem (k.procs p).pagetable
  byte := viewByte k.phys.mem (k.procs p).pagetable

def Denied (L : Layout) (p : Self) (s : Phys) (va : Nat) : Prop :=
  va < p.sz ∧ leafPte s.mem 2 p.pagetable (PGROUNDDOWN va) = none ∧
    ∃ t, vmfault L p p.pagetable va s = .ok (0, t)

-- The event runs out of free pages. A copyin() or copyout() does so if it gets as far as
-- to byte n, and there is no memory for its page; fork() if there is a slot and it fails.
def Starves (L : Layout) (k : Kernel) : UserEvent → Prop
  | .load p va _ => k.translate p .load va = none ∧ Denied L (k.self p) k.phys va
  | .store p va _ => k.translate p .store va = none ∧ Denied L (k.self p) k.phys va
  | .event (.call p (.copyin srcva len)) => ∃ n < len, ∃ bytes s,
      copyin L (k.self p) (k.procs p).pagetable srcva n k.phys = .ok (0, bytes, s) ∧
      Denied L (k.self p) s (PGROUNDDOWN (srcva + n))
  | .event (.call p (.copyout dstva src)) => ∃ n < src.length, ∃ s,
      copyout L (k.self p) (k.procs p).pagetable dstva (src.take n) k.phys = .ok (0, s) ∧
      Denied L (k.self p) s (PGROUNDDOWN (dstva + n))
  | .event (.call p .fork) => (∃ q, ¬k.Live q) ∧ ∃ k', fork L p k = .ok (-1, k')
  | _ => False

-- sbrk() that stays below the trapframe, copyin(), copyout(), fork(), and loads and
-- stores below the size; and the scheduler.
def Plainly (k : Kernel) : UserEvent → Prop
  | .event (.call p (.sbrk n)) => 0 ≤ wrap32 n → (k.procs p).sz + (wrap32 n).toNat ≤ TRAPFRAME
  | .event (.call _ .fork) | .event (.call _ (.copyin _ _)) | .event (.call _ (.copyout _ _)) => True
  | .event (.schedule _) | .event (.yield _) => True
  | .load p va _ | .store p va _ => va < (k.procs p).sz
  | _ => False

-- The kernel beside flat memories, one for each process.
structure Mirrored where
  kernel : Kernel
  flat : Fin NPROC → Flat

-- The flat memories after the event, which takes the kernel to k. A store that faults is
-- not yet done; the slot that fork() brings to life is the child.
def UserEvent.flat (c : Mirrored) (k : Kernel) : UserEvent → Fin NPROC → Flat
  | .event (.call p (.sbrk n)) => Function.update c.flat p ((c.flat p).sbrk (wrap32 n))
  | .event (.call p (.copyout dstva src)) => Function.update c.flat p ((c.flat p).copyout dstva src).2
  | .event (.call p .fork) => fun q => if ¬c.kernel.Live q ∧ k.Live q then c.flat p else c.flat q
  | .store p va bytes =>
    if (c.kernel.translate p .store va).isSome then Function.update c.flat p ((c.flat p).write va bytes)
    else c.flat
  | _ => c.flat

def Mirrored.next (L : Layout) (c : Mirrored) (e : UserEvent) : Except Panic Mirrored := do
  let k ← e.next L c.kernel
  return { kernel := k, flat := e.flat c k }

-- Any state of a kernel on which shm_get() has not been called.
def Mirrored.Origin (L : Layout) (used : List Nat) (c : Mirrored) : Prop :=
  Reach (Start L used) (Step L Bounded) c.kernel ∧ c.flat = c.kernel.flat

def Mirrored.Step (L : Layout) (c c' : Mirrored) : Prop :=
  ∃ e : UserEvent, e.enabled c.kernel ∧ Plainly c.kernel e ∧ ¬Starves L c.kernel e ∧ c.next L e = .ok c'

-- A load or store up to its end: if it faults it is tried again.
def Kernel.retry (L : Layout) (p : Fin NPROC) (a : Access) (va : Nat) (k : Kernel) :
    Except Panic (Option Nat × Kernel) :=
  match k.translate p a va with
  | some pa => .ok (some pa, k)
  | none => do
      let k ← pageFault L p va k
      return (if (k.tasks p).state = .RUNNING then k.translate p a va else none, k)

end Xv6
