import Xv6.System

namespace Xv6

open Lib

-- The other fields of struct proc that outlive a call: ofile[] and cwd, as
-- pointers that may be null. name is only for debugging, and kstack never changes.
structure Files where
  ofile : Fin NOFILE → Option Nat
  cwd : Option Nat

def Files.none : Files := { ofile := fun _ => .none, cwd := .none }

structure Slots where
  kernel : Kernel
  files : Fin NPROC → Files

-- kill() takes the first slot with that pid.
def pidSlot (pid : Int) (k : Kernel) : Option (Fin NPROC) :=
  (List.finRange NPROC).find? fun p => (k.procs p).pid = pid

def killPid (pid : Int) (k : Kernel) : Int × Kernel :=
  match pidSlot pid k with
  | some p => (0, { k with tasks := kill k.tasks p })
  | none => (-1, k)

def unusedSlot (k : Kernel) : Option (Fin NPROC) :=
  (List.finRange NPROC).find? fun p => (k.tasks p).state = .UNUSED

-- fork() copies the pointers that are not null, and cwd.
def dupFiles (parent child : Files) : Files where
  ofile := fun fd => if (parent.ofile fd).isSome then parent.ofile fd else child.ofile fd
  cwd := parent.cwd

-- What fork() does to the new process's files, if there is a new process.
def forkFiles (p : Fin NPROC) (c : Slots) (k' : Kernel) : Fin NPROC → Files :=
  match unusedSlot c.kernel with
  | some np =>
    if (k'.tasks np).state = .UNUSED then c.files
    else Function.update c.files np (dupFiles (c.files p) (c.files np))
  | none => c.files

-- setFiles stands for open, close, dup, pipe and chdir.
inductive SlotCall where
  | fork
  | exec (file : Option (List Byte)) (args : Args)
  | exit (status : Int)
  | wait (addr : Nat)
  | kill (n : Int)
  | sleep (chan : Chan)
  | wakeup (chan : Chan)
  | setFiles (f : Files)

def SlotCall.run (L : Layout) (p : Fin NPROC) (c : Slots) : SlotCall → Except Panic Slots
  | .fork => do
      let (_, k) ← Xv6.fork L p c.kernel
      return { kernel := k, files := forkFiles p c k }
  | .exec file args => do
      let (_, k) ← Xv6.exec L p file args.strings c.kernel
      return { c with kernel := k }
  | .exit status => do
      let k ← Xv6.exit p status c.kernel
      return { kernel := k, files := Function.update c.files p .none }
  | .wait addr => do
      let (_, k) ← Xv6.wait L p addr c.kernel
      return { c with kernel := k }
  | .kill n => .ok { c with kernel := (killPid (wrap32 n) c.kernel).2 }
  | .sleep chan => .ok { c with kernel := { c.kernel with tasks := Xv6.sleep c.kernel.tasks p chan } }
  | .wakeup chan => .ok { c with kernel := { c.kernel with tasks := Xv6.wakeup c.kernel.tasks p chan } }
  | .setFiles f => .ok { c with files := Function.update c.files p f }

-- A process that is scheduled after sleep() first clears its chan.
inductive SlotEvent where
  | call (p : Fin NPROC) (op : SlotCall)
  | schedule (p : Fin NPROC)
  | yield (p : Fin NPROC)

def SlotEvent.enabled (c : Slots) : SlotEvent → Prop
  | .call p _ => (c.kernel.tasks p).state = .RUNNING
  | .schedule p => (c.kernel.tasks p).state = .RUNNABLE
  | .yield p => (c.kernel.tasks p).state = .RUNNING

instance SlotEvent.decidableEnabled (c : Slots) : ∀ e : SlotEvent, Decidable (e.enabled c)
  | .call p _ => inferInstanceAs (Decidable ((c.kernel.tasks p).state = .RUNNING))
  | .schedule p => inferInstanceAs (Decidable ((c.kernel.tasks p).state = .RUNNABLE))
  | .yield p => inferInstanceAs (Decidable ((c.kernel.tasks p).state = .RUNNING))

def SlotEvent.next (L : Layout) (c : Slots) : SlotEvent → Except Panic Slots
  | .call p op => op.run L p c
  | .schedule p =>
    .ok { c with kernel := { c.kernel with tasks := awaken (setState c.kernel.tasks p .RUNNING) p } }
  | .yield p => .ok { c with kernel := { c.kernel with tasks := setState c.kernel.tasks p .RUNNABLE } }

-- init has the root directory as its cwd.
def Slots.Start (L : Layout) (used : List Nat) (c : Slots) : Prop :=
  Xv6.Start L used c.kernel ∧ ∀ p, some p ≠ c.kernel.initproc → c.files p = .none

def Slots.Step (L : Layout) (allowed : Slots → SlotEvent → Prop) (c c' : Slots) : Prop :=
  ∃ e : SlotEvent, e.enabled c ∧ allowed c e ∧ e.next L c = .ok c'

def Slots.Clean (c : Slots) (q : Fin NPROC) : Prop :=
  c.kernel.tasks q = { state := .UNUSED, chan := none, killed := false } ∧
  c.kernel.procs q = { pid := 0, parent := none, xstate := 0, sz := 0, pagetable := 0, trapframe := 0 } ∧
  c.files q = .none

end Xv6
