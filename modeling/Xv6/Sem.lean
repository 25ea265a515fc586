import Xv6.Sleep
import Xv6.Lib.Reach
import Mathlib.Data.Fintype.Basic

namespace Xv6.Sem

open Function

abbrev MAX_SEM : Nat := 100

-- struct semaphore of kernel/sem.c. Its lock is not a field: each function
-- below is one section between acquire(&sem->lock) and its release.
structure Semaphore where
  count : Int
  initialized : Bool
  deriving DecidableEq

abbrev Sems := Fin MAX_SEM → Semaphore

-- The wait channels: &semaphores[i], or anything else a process sleeps on.
inductive Chan where
  | sem (i : Fin MAX_SEM)
  | other (addr : Nat)
  deriving DecidableEq

-- The range check that every call makes on its sem_id.
def semIndex (sem_id : Int) : Option (Fin MAX_SEM) :=
  if h : 0 ≤ sem_id ∧ sem_id < MAX_SEM then some ⟨sem_id.toNat, by omega⟩ else none

structure Kernel (ι : Type) where
  sems : Sems
  procs : ι → Task Chan
  -- the semaphore in whose sem_down() loop a process sleeps or has slept
  inDown : ι → Option (Fin MAX_SEM)

variable {ι : Type} [DecidableEq ι]

def setCount (sems : Sems) (i : Fin MAX_SEM) (count : Int) : Sems :=
  update sems i { sems i with count := count }

def semInit (sem_id val : Int) (sems : Sems) : Int × Sems :=
  match semIndex sem_id with
  | none => (-1, sems)
  | some i =>
    if val < 0 then (-1, sems)
    else if (sems i).initialized then (-1, sems)
    else (0, update sems i { count := val, initialized := true })

-- From the test of the loop in sem_down() to its next sleep (none) or to its return.
def downLoop (p : ι) (i : Fin MAX_SEM) (k : Kernel ι) : Option Int × Kernel ι :=
  if (k.sems i).count ≤ 0 then
    (none, { k with
      procs := sleep k.procs p (.sem i)
      inDown := update k.inDown p (some i) })
  else
    (some 0, { k with
      sems := setCount k.sems i (wrap32 ((k.sems i).count - 1))
      inDown := update k.inDown p none })

def semDown (p : ι) (sem_id : Int) (k : Kernel ι) : Option Int × Kernel ι :=
  match semIndex sem_id with
  | none => (some (-1), k)
  | some i => if (k.sems i).initialized then downLoop p i k else (some (-1), k)

-- A process that was woken in sem_down(): the end of sleep(), then the loop test again.
def downResume (p : ι) (i : Fin MAX_SEM) (k : Kernel ι) : Option Int × Kernel ι :=
  downLoop p i { k with procs := awaken k.procs p }

def semUp (p : ι) (sem_id : Int) (k : Kernel ι) : Int × Kernel ι :=
  match semIndex sem_id with
  | none => (-1, k)
  | some i =>
    if (k.sems i).initialized then
      (0, { k with
        sems := setCount k.sems i (wrap32 ((k.sems i).count + 1))
        procs := wakeup k.procs p (.sem i) })
    else (-1, k)

-- A run's state: the kernel and what has completed so far. A call that
-- returned -1 did nothing and is not counted.
structure State (ι : Type) where
  k : Kernel ι
  initVal : Fin MAX_SEM → Option Int
  ups : ι → Fin MAX_SEM → Nat
  downs : ι → Fin MAX_SEM → Nat

def bump (f : ι → Fin MAX_SEM → Nat) (p : ι) (i : Fin MAX_SEM) : ι → Fin MAX_SEM → Nat :=
  update f p (update (f p) i (f p i + 1))

def tally (r : Option Int) (f : ι → Fin MAX_SEM → Nat) (p : ι) (sem_id : Int) :
    ι → Fin MAX_SEM → Nat :=
  match semIndex sem_id with
  | none => f
  | some i => if r = some 0 then bump f p i else f

def noteInit (r val sem_id : Int) (initVal : Fin MAX_SEM → Option Int) :
    Fin MAX_SEM → Option Int :=
  match semIndex sem_id with
  | none => initVal
  | some i => if r = 0 then update initVal i (some val) else initVal

inductive Event (ι : Type) where
  | init (p : ι) (sem_id val : Int)
  | up (p : ι) (sem_id : Int)
  | down (p : ι) (sem_id : Int)
  | resume (p : ι) (i : Fin MAX_SEM)
  | kill (p : ι)
  -- the scheduler and the timer interrupt: RUNNABLE to RUNNING and back
  | schedule (p : ι)
  | preempt (p : ι)
  -- anything a process does outside the semaphore calls, fork and exit included
  | other (p : ι) (t : Task Chan)

def Idle (k : Kernel ι) (p : ι) : Prop := (k.procs p).state = .RUNNING ∧ k.inDown p = none

def Enabled (s : State ι) : Event ι → Prop
  | .init p _ _ | .up p _ | .down p _ => Idle s.k p
  | .resume p i => (s.k.procs p).state = .RUNNING ∧ s.k.inDown p = some i
  | .kill _ => True
  | .schedule p => (s.k.procs p).state = .RUNNABLE
  | .preempt p => (s.k.procs p).state = .RUNNING
  | .other p t => s.k.inDown p = none ∧ ∀ i, t.chan ≠ some (.sem i)

def next (s : State ι) : Event ι → State ι
  | .init _ sem_id val =>
    let (r, sems) := semInit sem_id val s.k.sems
    { s with
      k := { s.k with sems := sems }
      initVal := noteInit r val sem_id s.initVal }
  | .up p sem_id =>
    let (r, k) := semUp p sem_id s.k
    { s with
      k := k
      ups := tally (some r) s.ups p sem_id }
  | .down p sem_id =>
    let (r, k) := semDown p sem_id s.k
    { s with
      k := k
      downs := tally r s.downs p sem_id }
  | .resume p i =>
    let (r, k) := downResume p i s.k
    { s with
      k := k
      downs := if r = some 0 then bump s.downs p i else s.downs }
  | .kill p => { s with k := { s.k with procs := Xv6.kill s.k.procs p } }
  | .schedule p => { s with k := { s.k with procs := setState s.k.procs p .RUNNING } }
  | .preempt p => { s with k := { s.k with procs := setState s.k.procs p .RUNNABLE } }
  | .other p t => { s with k := { s.k with procs := update s.k.procs p t } }

def Step (s t : State ι) : Prop := ∃ e, Enabled s e ∧ t = next s e

-- Boot: the semaphore array is zero and no process has called sem_down().
def Start (s : State ι) : Prop :=
  (∀ i, s.k.sems i = { count := 0, initialized := false }) ∧
  (∀ p i, (s.k.procs p).chan ≠ some (.sem i)) ∧ (∀ p, s.k.inDown p = none) ∧
  (∀ i, s.initVal i = none) ∧ (∀ p i, s.ups p i = 0) ∧ (∀ p i, s.downs p i = 0)

end Xv6.Sem
