import Xv6.Params
import Xv6.Lib.Chain
import Xv6.Lib.Except

namespace Xv6

open Function

-- Physical memory as the allocator and the page tables see it: a page is 512
-- words, named by its base address. `freelist` is kmem.freelist, a pointer to
-- a page whose first word is run.next; 0 is the null pointer.
structure Phys where
  mem : Nat → Fin 512 → BitVec 64
  freelist : Nat
  refcount : Nat → Int

def memsetWord (c : Nat) : BitVec 64 := BitVec.ofNat 64 (c * 0x0101010101010101)

def Phys.memset (s : Phys) (pa c : Nat) : Phys :=
  { s with mem := update s.mem pa fun _ => memsetWord c }

def Phys.store (s : Phys) (pa : Nat) (i : Fin 512) (w : BitVec 64) : Phys :=
  { s with mem := update s.mem pa (update (s.mem pa) i w) }

def Phys.next (s : Phys) (r : Nat) : Nat := (s.mem r 0).toNat

def pa2pageindex (pa : Nat) : Except Panic Nat :=
  let idx := wrap32 (pa / PGSIZE)
  if idx < 0 ∨ idx ≥ MAXPAGES then .error .pa2pageindex else .ok idx.toNat

def incref (pa : Nat) (s : Phys) : Except Panic Phys := do
  let idx ← pa2pageindex pa
  return { s with refcount := update s.refcount idx (wrap32 (s.refcount idx + 1)) }

def decref (pa : Nat) (s : Phys) : Except Panic Phys := do
  let idx ← pa2pageindex pa
  if s.refcount idx < 0 then .error .decref else
  return { s with refcount := update s.refcount idx (wrap32 (s.refcount idx - 1)) }

def getref (pa : Nat) (s : Phys) : Except Panic Int := do
  let idx ← pa2pageindex pa
  return s.refcount idx

def kmemPush (pa : Nat) (s : Phys) : Phys :=
  { s.store pa 0 (BitVec.ofNat 64 s.freelist) with freelist := pa }

def kmemPop (s : Phys) : Nat × Phys :=
  let r := s.freelist
  (r, if r = 0 then s else { s with freelist := s.next r })

def kfree (L : Layout) (pa : Nat) (s : Phys) : Except Panic Phys :=
  if pa % PGSIZE ≠ 0 ∨ pa < L.kend ∨ PHYSTOP ≤ pa then .error .kfree else do
    let s ← decref pa s
    let rc ← getref pa s
    if 0 < rc then return s else return kmemPush pa (s.memset pa 1)

def kalloc (s : Phys) : Except Panic (Nat × Phys) := do
  let (r, s) := kmemPop s
  if r = 0 then return (0, s) else
  let s ← incref r (s.memset r 5)
  return (r, s)

def freerange (L : Layout) (p pa_end : Nat) (s : Phys) : Except Panic Phys :=
  if p + PGSIZE ≤ pa_end then do
    let s ← kfree L p s
    freerange L (p + PGSIZE) pa_end s
  else
    return s
termination_by pa_end - p
decreasing_by simp only [PGSIZE_eq] at *; omega

-- The boot memory is arbitrary; kmem.freelist starts at 0 with the rest of .bss.
def kinit (L : Layout) (mem : Nat → Fin 512 → BitVec 64) : Except Panic Phys :=
  freerange L (PGROUNDUP L.kend) PHYSTOP
    { mem := mem, freelist := 0, refcount := fun i => if i < MAXPAGES then 1 else 0 }

end Xv6
