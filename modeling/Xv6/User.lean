import Xv6.System
import Xv6.Proc.Invariant

namespace Xv6

open Lib

-- A load or store of user code, as the Sv39 hardware translates its address. An
-- entry with PTE_W but not PTE_R is reserved, and every access through it faults.
inductive Access where
  | load | store
  deriving DecidableEq

def Access.permitted (a : Access) (pte : Pte) : Prop :=
  hasFlag pte PTE_U ∧ hasFlag pte PTE_R ∧ (a = .store → hasFlag pte PTE_W)

instance (a : Access) (pte : Pte) : Decidable (a.permitted pte) := inferInstanceAs (Decidable (_ ∧ _ ∧ _))

-- No address of xv6 is beyond MAXVA.
def Kernel.translate (k : Kernel) (p : Fin NPROC) (a : Access) (va : Nat) : Option Nat :=
  if va < MAXVA then
    match leafPte k.phys.mem 2 (k.procs p).pagetable va with
    | none => none
    | some pte => if a.permitted pte then some (PTE2PA pte) else none
  else none

-- What a load of n bytes reads, if it does not fault.
def Kernel.load (k : Kernel) (p : Fin NPROC) (va n : Nat) : Option (List Byte) :=
  (k.translate p .load va).map fun pa => k.phys.readBytes pa (va % PGSIZE) n

-- The calls and the scheduler as before, and single loads and stores. An
-- instruction that faults is tried again when usertrap() returns.
inductive UserEvent where
  | event (e : Event)
  | load (p : Fin NPROC) (va n : Nat)
  | store (p : Fin NPROC) (va : Nat) (bytes : List Byte)

-- Loads and stores are aligned, and do not cross a page.
def UserEvent.enabled (k : Kernel) : UserEvent → Prop
  | .event e => e.enabled k
  | .load p va n => (k.tasks p).state = .RUNNING ∧ va % PGSIZE + n ≤ PGSIZE
  | .store p va bytes => (k.tasks p).state = .RUNNING ∧ va % PGSIZE + bytes.length ≤ PGSIZE

instance UserEvent.decidableEnabled (k : Kernel) : ∀ e : UserEvent, Decidable (e.enabled k)
  | .event e => inferInstanceAs (Decidable (e.enabled k))
  | .load _ _ _ => inferInstanceAs (Decidable (_ ∧ _))
  | .store _ _ _ => inferInstanceAs (Decidable (_ ∧ _))

def UserEvent.next (L : Layout) (k : Kernel) : UserEvent → Except Panic Kernel
  | .event e => e.next L k
  | .load p va _ =>
    match k.translate p .load va with
    | some _ => .ok k
    | none => pageFault L p va k
  | .store p va bytes =>
    match k.translate p .store va with
    | some pa => .ok { k with phys := k.phys.writeBytes pa (va % PGSIZE) bytes }
    | none => pageFault L p va k

-- The kernel with a record of the processes to which shm_get() has returned an
-- address (given), and of those and all that were forked from them (member).
structure Tracked where
  kernel : Kernel
  given : Fin NPROC → Bool
  member : Fin NPROC → Bool

def granted (k : Kernel) (p : Fin NPROC) : Bool :=
  match shmGet p k with
  | .ok (a, _) => decide (a ≠ 0)
  | .error _ => false

def UserEvent.grants (k : Kernel) (q : Fin NPROC) : UserEvent → Bool
  | .event (.call p .shmGet) => decide (q = p) && granted k p
  | _ => false

def UserEvent.heir (c : Tracked) (k' : Kernel) (q : Fin NPROC) : UserEvent → Bool
  | .event (.call p .fork) => c.member p && decide (¬c.kernel.Live q) && decide (k'.Live q)
  | _ => false

def Tracked.next (L : Layout) (c : Tracked) (e : UserEvent) : Except Panic Tracked := do
  let k ← e.next L c.kernel
  return {
    kernel := k
    given := fun q => (c.given q && decide (c.kernel.Live q)) || e.grants c.kernel q
    member := fun q => (c.member q && decide (c.kernel.Live q)) || e.grants c.kernel q || e.heir c k q }

-- Nobody has called shm_get() yet.
def Tracked.Origin (L : Layout) (allowed : Kernel → Event → Prop) (used : List Nat) (c : Tracked) : Prop :=
  Reach (Start L used) (Step L allowed) c.kernel ∧ c.given = (fun _ => false) ∧ c.member = fun _ => false

def Tracked.Step (L : Layout) (allowed : UserEvent → Prop) (c c' : Tracked) : Prop :=
  ∃ e : UserEvent, e.enabled c.kernel ∧ allowed e ∧ c.next L e = .ok c'

end Xv6
