import Xv6.Params
import Xv6.Lib.Cyclic
import Xv6.Lib.Tiling
import Xv6.Lib.Reach

namespace Xv6.Umalloc

open Lib Function

-- user/umalloc.c, the allocator of the user programs. Addresses are numbers; a header
-- occupies the sizeofHeader bytes from its address on.
abbrev sizeofHeader : Nat := 16

structure Header where
  ptr : Nat
  size : Nat

-- The calls of sbrk(), the last one first: the argument and what it returned, none for -1.
abbrev Calls := List (Int × Option Nat)

structure Heap where
  mem : Nat → Header
  freep : Nat
  calls : Calls

def setPtr (mem : Nat → Header) (a ptr : Nat) : Nat → Header := update mem a { mem a with ptr := ptr }

def setSize (mem : Nat → Header) (a size : Nat) : Nat → Header := update mem a { mem a with size := size }

def above (mem : Nat → Header) (p : Nat) : Nat := wrap64 (p + (mem p).size * sizeofHeader)

-- The loop of free(), in at most that many turns.
def search (mem : Nat → Header) (bp : Nat) : Nat → Nat → Option Nat
  | 0, _ => none
  | fuel + 1, p =>
    if p < bp ∧ bp < (mem p).ptr then some p
    else if (mem p).ptr ≤ p ∧ (p < bp ∨ bp < (mem p).ptr) then some p
    else search mem bp fuel (mem p).ptr

def coalesce (mem : Nat → Header) (p bp : Nat) : Nat → Header :=
  let mem :=
    if above mem bp = (mem p).ptr then
      let mem := setSize mem bp (((mem bp).size + (mem (mem p).ptr).size) % 2 ^ 32)
      setPtr mem bp (mem (mem p).ptr).ptr
    else setPtr mem bp (mem p).ptr
  if above mem p = bp then
    let mem := setSize mem p (((mem p).size + (mem bp).size) % 2 ^ 32)
    setPtr mem p (mem bp).ptr
  else setPtr mem p bp

def free (fuel ap : Nat) (h : Heap) : Option Heap := do
  let bp := ap - sizeofHeader
  let p ← search h.mem bp fuel h.freep
  return { h with mem := coalesce h.mem p bp, freep := p }

-- What sbrk() returns, as a function of the calls before and of the argument.
abbrev Sbrk := Calls → Int → Option Nat

section Malloc

variable (sbrk : Sbrk) (base : Nat)

def morecore (fuel nu : Nat) (h : Heap) : Option (Nat × Heap) :=
  let nu := if nu < 4096 then 4096 else nu
  let n := wrap32 (nu * sizeofHeader : Nat)
  match sbrk h.calls n with
  | none => some (0, { h with calls := (n, none) :: h.calls })
  | some p => do
      let h := { h with mem := setSize h.mem p nu, calls := (n, some p) :: h.calls }
      let h ← free fuel (p + sizeofHeader) h
      return (h.freep, h)

def scan (nunits : Nat) : Nat → Nat → Nat → Heap → Option (Nat × Heap)
  | 0, _, _, _ => none
  | fuel + 1, prevp, p, h =>
    if nunits ≤ (h.mem p).size then
      if (h.mem p).size = nunits then
        some (p + sizeofHeader, { h with mem := setPtr h.mem prevp (h.mem p).ptr, freep := prevp })
      else
        let mem := setSize h.mem p ((h.mem p).size - nunits)
        let p := above mem p
        some (p + sizeofHeader, { h with mem := setSize mem p nunits, freep := prevp })
    else if p = h.freep then do
      let (p, h) ← morecore sbrk fuel nunits h
      if p = 0 then return (0, h)
      scan nunits fuel p (h.mem p).ptr h
    else scan nunits fuel p (h.mem p).ptr h

-- nbytes is a uint, and sizeof() makes the sum a uint64.
def units (nbytes : Nat) : Nat := (nbytes + sizeofHeader - 1) / sizeofHeader + 1

def init (h : Heap) : Heap :=
  if h.freep = 0 then { h with mem := update h.mem base { ptr := base, size := 0 }, freep := base } else h

def malloc (fuel nbytes : Nat) (h : Heap) : Option (Nat × Heap) :=
  let h := init base h
  scan sbrk (units nbytes) fuel h.freep (h.mem h.freep).ptr h

end Malloc

-- A program, the headers of the blocks that it has from malloc() and has not freed, and
-- what it asked for.
structure State where
  heap : Heap
  live : Finset Nat
  asked : Nat → Nat

inductive Event where
  | malloc (fuel nbytes : Nat)
  | free (fuel ap : Nat)
  | store (x : Nat) (header : Header)

-- The request fits in the argument of sbrk().
def Fits (nbytes : Nat) : Prop := max (units nbytes) 4096 * sizeofHeader < 2 ^ 31

instance Fits.decidable (nbytes : Nat) : Decidable (Fits nbytes) := inferInstanceAs (Decidable (_ < _))

-- The program may write what it likes into its blocks.
def Event.enabled (s : State) : Event → Prop
  | .malloc _ nbytes => Fits nbytes
  | .free _ ap => ∃ a ∈ s.live, ap = a + sizeofHeader
  | .store x _ => ∃ a ∈ s.live, a + sizeofHeader ≤ x ∧ x + sizeofHeader ≤ a + (s.heap.mem a).size * sizeofHeader

instance Event.enabled.decidable (s : State) : ∀ e : Event, Decidable (e.enabled s)
  | .malloc _ nbytes => inferInstanceAs (Decidable (Fits nbytes))
  | .free _ ap => inferInstanceAs (Decidable (∃ a ∈ s.live, ap = a + sizeofHeader))
  | .store _ _ => inferInstanceAs (Decidable (∃ a ∈ s.live, _ ∧ _))

def State.next (sbrk : Sbrk) (base : Nat) (s : State) : Event → Option State
  | .malloc fuel nbytes => do
      let (ap, h) ← Umalloc.malloc sbrk base fuel nbytes s.heap
      if ap = 0 then return { s with heap := h }
      return { heap := h, live := insert (ap - sizeofHeader) s.live,
               asked := update s.asked (ap - sizeofHeader) nbytes }
  | .free fuel ap => do
      let h ← Umalloc.free fuel ap s.heap
      return { s with heap := h, live := s.live.erase (ap - sizeofHeader) }
  | .store x header => some { s with heap := { s.heap with mem := update s.heap.mem x header } }

def Start (s : State) : Prop := s.heap.freep = 0 ∧ s.heap.calls = [] ∧ s.live = ∅

def Step (sbrk : Sbrk) (base : Nat) (s t : State) : Prop := ∃ e : Event, e.enabled s ∧ s.next sbrk base e = some t

-- The memory that sbrk() has given.
def Given (calls : Calls) (x : Nat) : Prop := ∃ n p, (n, some p) ∈ calls ∧ p ≤ x ∧ x < p + n.toNat

def given (calls : Calls) : Nat := (calls.map fun c => if c.2.isSome then c.1.toNat else 0).sum

-- sbrk() gives fresh bytes, behind the variables of the program and all it has given before.
def Fresh (base : Nat) (sbrk : Sbrk) : Prop :=
  0 < base ∧ ∀ calls n p, sbrk calls n = some p → 0 ≤ n →
    base + sizeofHeader ≤ p ∧ p + n.toNat ≤ 2 ^ 64 ∧ ∀ m q, (m, some q) ∈ calls → q + m.toNat ≤ p

-- It gives less than 2^32 headers' worth of memory in all.
def Bounded (sbrk : Sbrk) : Prop := ∀ calls n p, sbrk calls n = some p → given calls + n.toNat < 2 ^ 32 * sizeofHeader

end Xv6.Umalloc
