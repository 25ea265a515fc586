import Xv6.Proc
import Xv6.Lib.Reach

namespace Xv6.Family

open Lib Function

-- fork(), exit(), wait() and kill() in sections: what happens under one p->lock is one
-- step, and wait_lock is held across several.

inductive Record where
  | forked (child parent : Fin NPROC)
  | adopted (child parent : Fin NPROC)
  | exited (child : Fin NPROC) (pid status : Int)
  | reaped (child waiter : Fin NPROC) (pid status : Int)

-- Where a process is. In fork() it is before the section that sets the parent of the new
-- slot, or before the one that makes it RUNNABLE. In exit() it is in reparent(), there in
-- wakeup(initproc), in wakeup(p->parent), or before its last section. In wait() it is in
-- the scan of the table, before killed(p), before sleep(), asleep, or woken up. The lists
-- are the slots that a loop still has to go through.
inductive Place where
  | other
  | forkParent (np : Fin NPROC)
  | forkReady (np : Fin NPROC)
  | reparent (status : Int) (rest : List (Fin NPROC))
  | reparentWakeup (status : Int) (rest slots : List (Fin NPROC))
  | exitWakeup (status : Int) (chan : Option (Fin NPROC)) (slots : List (Fin NPROC))
  | exitLast (status : Int)
  | zombie
  | waitScan (rest : List (Fin NPROC)) (havekids : Bool)
  | waitKilled
  | waitSleep
  | asleep
  | waitAgain
  deriving DecidableEq

structure State where
  tasks : Fin NPROC → Task Chan
  pid : Fin NPROC → Int
  parent : Fin NPROC → Option (Fin NPROC)
  xstate : Fin NPROC → Int
  nextpid : Int
  initproc : Fin NPROC
  waitLock : Option (Fin NPROC)
  place : Fin NPROC → Place
  -- what the last wait() of the process returned
  result : Fin NPROC → Option Int
  log : List Record

def table : List (Fin NPROC) := List.finRange NPROC

def State.goto (m : State) (p : Fin NPROC) (pl : Place) : State :=
  { m with place := update m.place p pl }

-- wakeup(chan) at slot q; a null pointer is nobody's channel.
def State.wakeupAt (m : State) (p : Fin NPROC) (chan : Option (Fin NPROC)) (q : Fin NPROC) : State :=
  match chan with
  | none => m
  | some c =>
    if q ≠ p ∧ SleepsOn m.tasks q (.proc c) then { m with tasks := setState m.tasks q .RUNNABLE } else m

-- freeproc(), as far as it concerns the family.
def State.freeproc (m : State) (q : Fin NPROC) : State :=
  { m with
    tasks := update m.tasks q { state := .UNUSED, chan := none, killed := false }
    pid := update m.pid q 0
    parent := update m.parent q none
    xstate := update m.xstate q 0
    place := update m.place q .other }

-- fork() up to its first release(&np->lock), with the slot that allocproc() finds; `ok` is
-- whether there is memory.
def State.forkAlloc (m : State) (p np : Fin NPROC) (ok : Bool) : State :=
  let m := { m with nextpid := wrap32 (m.nextpid + 1), pid := update m.pid np m.nextpid }
  if ok then { m with tasks := setState m.tasks np .USED }.goto p (.forkParent np) else m.freeproc np

def State.setParent (m : State) (p np : Fin NPROC) : State :=
  { m with parent := update m.parent np (some p), log := m.log ++ [Record.forked np p] }.goto p (.forkReady np)

def State.setReady (m : State) (p np : Fin NPROC) : State :=
  { m with tasks := setState m.tasks np .RUNNABLE }.goto p .other

def State.adopt (m : State) (p : Fin NPROC) (status : Int) (pp : Fin NPROC) (rest : List (Fin NPROC)) : State :=
  { m with
    parent := update m.parent pp (some m.initproc)
    log := m.log ++ [Record.adopted pp m.initproc] }.goto p (.reparentWakeup status rest table)

-- One round of the loop in reparent(), up to wakeup(initproc).
def State.reparentOne (m : State) (p : Fin NPROC) (status : Int) (pp : Fin NPROC) (rest : List (Fin NPROC)) :
    State :=
  if m.parent pp = some p then m.adopt p status pp rest else m.goto p (.reparent status rest)

def State.exitLast (m : State) (p : Fin NPROC) (status : Int) : State :=
  { m with
    xstate := update m.xstate p status
    tasks := setState m.tasks p .ZOMBIE
    waitLock := none
    log := m.log ++ [Record.exited p (m.pid p) status] }.goto p .zombie

def State.waitReturn (m : State) (p : Fin NPROC) (r : Int) : State :=
  { m with waitLock := none, result := update m.result p (some r) }.goto p .other

def State.reap (m : State) (p pp : Fin NPROC) : State :=
  { (m.freeproc pp).waitReturn p (m.pid pp) with
    log := m.log ++ [.reaped pp p (m.pid pp) (m.xstate pp)] }

-- One round of the scan in wait(); `copied` is whether copyout() succeeds.
def State.waitOne (m : State) (p pp : Fin NPROC) (rest : List (Fin NPROC)) (havekids copied : Bool) : State :=
  if m.parent pp = some p then
    if (m.tasks pp).state = .ZOMBIE then
      if copied then m.reap p pp else m.waitReturn p (-1)
    else m.goto p (.waitScan rest true)
  else m.goto p (.waitScan rest havekids)

-- The next section of a call that a process is in.
def State.go (m : State) (p : Fin NPROC) (copied : Bool) : Option State :=
  match m.place p with
  | .forkParent np => if m.waitLock = none then some (m.setParent p np) else none
  | .forkReady np => some (m.setReady p np)
  | .reparent status [] => some (m.goto p (.exitWakeup status (m.parent p) table))
  | .reparent status (pp :: rest) => some (m.reparentOne p status pp rest)
  | .reparentWakeup status rest [] => some (m.goto p (.reparent status rest))
  | .reparentWakeup status rest (q :: slots) =>
    some ((m.wakeupAt p (some m.initproc) q).goto p (.reparentWakeup status rest slots))
  | .exitWakeup status _ [] => some (m.goto p (.exitLast status))
  | .exitWakeup status chan (q :: slots) =>
    some ((m.wakeupAt p chan q).goto p (.exitWakeup status chan slots))
  | .exitLast status => some (m.exitLast p status)
  | .waitScan [] havekids => some (if havekids then m.goto p .waitKilled else m.waitReturn p (-1))
  | .waitScan (pp :: rest) havekids => some (m.waitOne p pp rest havekids copied)
  | .waitKilled => some (if (m.tasks p).killed then m.waitReturn p (-1) else m.goto p .waitSleep)
  | .waitSleep => some ({ m with tasks := sleep m.tasks p (.proc p), waitLock := none }.goto p .asleep)
  | .waitAgain =>
    if m.waitLock = none then some ({ m with waitLock := some p }.goto p (.waitScan table false)) else none
  | .other | .zombie | .asleep => none

-- kill(n) is a step for the slot that has the pid; it changes no other. sleep and wakeup
-- are those of the rest of the kernel.
inductive Event where
  | fork (p np : Fin NPROC) (ok : Bool)
  | exit (p : Fin NPROC) (status : Int)
  | wait (p : Fin NPROC)
  | go (p : Fin NPROC) (copied : Bool)
  | kill (p : Fin NPROC) (n : Int) (q : Fin NPROC)
  | schedule (p : Fin NPROC)
  | yield (p : Fin NPROC)
  | sleep (p : Fin NPROC) (addr : Nat)
  | wakeup (q : Fin NPROC) (addr : Nat)

def State.Calls (m : State) (p : Fin NPROC) : Prop := (m.tasks p).state = .RUNNING ∧ m.place p = .other

instance State.decidableCalls (m : State) (p : Fin NPROC) : Decidable (m.Calls p) :=
  inferInstanceAs (Decidable (_ ∧ _))

-- exit() panics in initproc. A process that holds wait_lock has interrupts off and
-- does not yield.
def State.next (m : State) : Event → Option State
  | .fork p np ok => if m.Calls p ∧ (m.tasks np).state = .UNUSED then some (m.forkAlloc p np ok) else none
  | .exit p status =>
    if m.Calls p ∧ p ≠ m.initproc ∧ m.waitLock = none then
      some ({ m with waitLock := some p }.goto p (.reparent status table))
    else none
  | .wait p =>
    if m.Calls p ∧ m.waitLock = none then
      some ({ m with waitLock := some p }.goto p (.waitScan table false))
    else none
  | .go p copied => if (m.tasks p).state = .RUNNING then m.go p copied else none
  | .kill p n q => if m.Calls p ∧ m.pid q = n then some { m with tasks := Xv6.kill m.tasks q } else none
  | .schedule p =>
    if (m.tasks p).state = .RUNNABLE then
      some ({ m with tasks := awaken (setState m.tasks p .RUNNING) p }.goto p
        (if m.place p = Place.asleep then .waitAgain else m.place p))
    else none
  | .yield p =>
    if (m.tasks p).state = .RUNNING ∧ m.waitLock ≠ some p then
      some { m with tasks := setState m.tasks p .RUNNABLE }
    else none
  | .sleep p addr => if m.Calls p then some { m with tasks := Xv6.sleep m.tasks p (.other addr) } else none
  | .wakeup q addr =>
    if SleepsOn m.tasks q (.other addr) then some { m with tasks := setState m.tasks q .RUNNABLE } else none

-- After userinit(): initproc is ready and the other slots are free.
def State.Start (m : State) : Prop :=
  (∀ p, (m.tasks p).state = if p = m.initproc then .RUNNABLE else .UNUSED) ∧
  (∀ p, m.parent p = none ∧ m.place p = .other) ∧ m.waitLock = none ∧ m.log = []

def State.Step (m m' : State) : Prop := ∃ e, m.next e = some m'

-- What the records must amount to: a child has the parent that forked it until it is
-- given to another, exits once, and is reaped once, by the parent it then has, with the
-- pid and the status it exited with.
inductive Life where
  | absent
  | alive (parent : Fin NPROC)
  | exited (parent : Fin NPROC) (pid status : Int)
  deriving DecidableEq

def Record.next (lives : Fin NPROC → Life) : Record → Option (Fin NPROC → Life)
  | .forked c p => if lives c = .absent then some (update lives c (.alive p)) else none
  | .adopted c p =>
    match lives c with
    | .absent => none
    | .alive _ => some (update lives c (.alive p))
    | .exited _ pid status => some (update lives c (.exited p pid status))
  | .exited c pid status =>
    match lives c with
    | .alive p => some (update lives c (.exited p pid status))
    | _ => none
  | .reaped c p pid status =>
    if lives c = .exited p pid status then some (update lives c .absent) else none

def history (log : List Record) : Option (Fin NPROC → Life) :=
  log.foldlM Record.next fun _ => .absent

end Xv6.Family
