import Xv6.Slots
import Xv6.Sem

namespace Xv6

open Lib

-- The loops in which a process waits for other processes or for the user.

abbrev PIPESIZE : Nat := 512
abbrev INPUT_BUF_SIZE : Nat := 128

instance neZero_128 : NeZero 128 := ⟨by decide⟩

-- struct pipe of kernel/pipe.c; nread and nwrite are uints.
structure Pipe where
  data : Fin PIPESIZE → Byte
  nread : Nat
  nwrite : Nat
  readopen : Bool
  writeopen : Bool

-- cons of kernel/console.c, without the edit index, which only the interrupt uses.
structure Console where
  buf : Fin INPUT_BUF_SIZE → Byte
  r : Nat
  w : Nat

structure Waits where
  kernel : Kernel
  sems : Sem.Sems
  pipes : Nat → Pipe
  ticks : Nat
  cons : Console

inductive Waited where
  | sem (i : Fin Sem.MAX_SEM)
  | nread (pi : Nat)
  | nwrite (pi : Nat)
  | ticks
  | consR

-- Where a process is in one of the loops: at its test, with the loop's variables.
inductive WaitLoop where
  | semDown (i : Fin Sem.MAX_SEM)
  | piperead (pi addr : Nat) (n : Int)
  | pipewrite (pi addr : Nat) (i n : Int)
  | wait (addr : Nat)
  | sysSleep (ticks0 : Nat) (n : Int)
  | consoleread (dst : Nat) (target n : Int)

inductive Outcome where
  | returned (r : Int)
  | again (loop : WaitLoop)
  | asleep

section Turn

variable (L : Layout) (chan : Waited → Nat) (p : Fin NPROC)

def Waits.setTasks (w : Waits) (tasks : Fin NPROC → Task Chan) : Waits :=
  { w with kernel := { w.kernel with tasks := tasks } }

def Waits.setPhys (w : Waits) (s : Phys) : Waits := { w with kernel := { w.kernel with phys := s } }

def Waits.killed (w : Waits) : Bool := (w.kernel.tasks p).killed

def Waits.sleep (w : Waits) (v : Waited) : Waits :=
  w.setTasks (Xv6.sleep w.kernel.tasks p (.other (chan v)))

def Waits.wakeup (w : Waits) (v : Waited) : Waits :=
  w.setTasks (Xv6.wakeup w.kernel.tasks p (.other (chan v)))

def Waits.copyout (w : Waits) (dst : Nat) (byte : Byte) : Except Panic (Int × Waits) := do
  let (r, s) ← Xv6.copyout L (w.kernel.self p) (w.kernel.procs p).pagetable dst [byte] w.kernel.phys
  return (r, w.setPhys s)

-- sem_down() does not look at killed.
def semDownTurn (i : Fin Sem.MAX_SEM) (w : Waits) : Outcome × Waits :=
  if (w.sems i).count ≤ 0 then (.asleep, w.sleep chan p (.sem i))
  else (.returned 0, { w with sems := Sem.setCount w.sems i (wrap32 ((w.sems i).count - 1)) })

-- The copying loop of piperead(), with the turns that are left.
def pipereadCopy (pi addr : Nat) : Nat → Nat → Waits → Except Panic (Nat × Waits)
  | 0, i, w => .ok (i, w)
  | turns + 1, i, w =>
    let pipe := w.pipes pi
    if pipe.nread = pipe.nwrite then .ok (i, w) else do
      let ch := pipe.data (Fin.ofNat PIPESIZE pipe.nread)
      let pipe := { pipe with nread := wrapU32 (pipe.nread + 1) }
      let (r, w) ← Waits.copyout L p { w with pipes := Function.update w.pipes pi pipe }
        (wrap64 (addr + i)) ch
      if r = -1 then return (i, w) else pipereadCopy pi addr turns (i + 1) w

def pipereadTurn (pi addr : Nat) (n : Int) (w : Waits) : Except Panic (Outcome × Waits) :=
  if (w.pipes pi).nread = (w.pipes pi).nwrite ∧ (w.pipes pi).writeopen then
    if w.killed p then .ok (.returned (-1), w) else .ok (.asleep, w.sleep chan p (.nread pi))
  else do
    let (i, w) ← pipereadCopy L p pi addr n.toNat 0 w
    return (.returned i, w.wakeup chan p (.nwrite pi))

def pipewriteTurn (pi addr : Nat) (i n : Int) (w : Waits) : Except Panic (Outcome × Waits) :=
  if ¬i < n then .ok (.returned i, w.wakeup chan p (.nread pi))
  else if (w.pipes pi).readopen = false ∨ w.killed p then .ok (.returned (-1), w)
  else if (w.pipes pi).nwrite = wrapU32 ((w.pipes pi).nread + PIPESIZE) then
    .ok (.asleep, (w.wakeup chan p (.nread pi)).sleep chan p (.nwrite pi))
  else do
    let (r, dst, s) ← copyin L (w.kernel.self p) (w.kernel.procs p).pagetable (wrap64 (addr + i.toNat)) 1
      w.kernel.phys
    let w := w.setPhys s
    if r = -1 then return (.returned i, w.wakeup chan p (.nread pi)) else
      let pipe := w.pipes pi
      let pipe := { pipe with
        data := Function.update pipe.data (Fin.ofNat PIPESIZE pipe.nwrite) (dst.headD 0#8)
        nwrite := wrapU32 (pipe.nwrite + 1) }
      return (.again (.pipewrite pi addr (i + 1) n), { w with pipes := Function.update w.pipes pi pipe })

def waitTurn (addr : Nat) (w : Waits) : Except Panic (Outcome × Waits) := do
  let (r, k) ← Xv6.wait L p addr w.kernel
  return (match r with | some r => .returned r | none => .asleep, { w with kernel := k })

-- while(ticks - ticks0 < n), in unsigned ints; n is not negative here.
def sysSleepTurn (ticks0 : Nat) (n : Int) (w : Waits) : Outcome × Waits :=
  if wrapU32 (w.ticks + 2 ^ 32 - wrapU32 ticks0) < n.toNat then
    if w.killed p then (.returned (-1), w) else (.asleep, w.sleep chan p .ticks)
  else (.returned 0, w)

def EOT : Byte := 4
def NEWLINE : Byte := 10

def consolereadTurn (dst : Nat) (target n : Int) (w : Waits) : Except Panic (Outcome × Waits) :=
  if ¬0 < n then .ok (.returned (target - n), w)
  else if w.cons.r = w.cons.w then
    if w.killed p then .ok (.returned (-1), w) else .ok (.asleep, w.sleep chan p .consR)
  else
    let c := w.cons.buf (Fin.ofNat INPUT_BUF_SIZE w.cons.r)
    let w' := { w with cons := { w.cons with r := wrapU32 (w.cons.r + 1) } }
    if c = EOT then .ok (.returned (target - n), if n < target then w else w')
    else do
      let (r, w) ← w'.copyout L p dst c
      if r = -1 then return (.returned (target - n), w)
      else if c = NEWLINE then return (.returned (target - (n - 1)), w)
      else return (.again (.consoleread (wrap64 (dst + 1)) target (n - 1)), w)

def WaitLoop.turn (w : Waits) : WaitLoop → Except Panic (Outcome × Waits)
  | .semDown i => .ok (semDownTurn chan p i w)
  | .piperead pi addr n => pipereadTurn L chan p pi addr n w
  | .pipewrite pi addr i n => pipewriteTurn L chan p pi addr i n w
  | .wait addr => waitTurn L p addr w
  | .sysSleep ticks0 n => .ok (sysSleepTurn chan p ticks0 n w)
  | .consoleread dst target n => consolereadTurn L chan p dst target n w

end Turn

-- The processes take turns in these loops, make other calls and are scheduled;
-- `world` is what the devices and the rest of the kernel do to the data.
inductive WaitEvent where
  | turn (p : Fin NPROC) (loop : WaitLoop)
  | call (p : Fin NPROC) (op : Call)
  | semInit (p : Fin NPROC) (sem_id val : Int)
  | semUp (p : Fin NPROC) (i : Fin Sem.MAX_SEM)
  | kill (p : Fin NPROC) (n : Int)
  | schedule (p : Fin NPROC)
  | yield (p : Fin NPROC)
  | world (pipes : Nat → Pipe) (ticks : Nat) (cons : Console)

def WaitEvent.enabled (w : Waits) : WaitEvent → Prop
  | .turn p _ | .call p _ | .semInit p _ _ | .semUp p _ | .kill p _ | .yield p =>
    (w.kernel.tasks p).state = .RUNNING
  | .schedule p => (w.kernel.tasks p).state = .RUNNABLE
  | .world _ _ _ => True

instance WaitEvent.decidableEnabled (w : Waits) : ∀ e : WaitEvent, Decidable (e.enabled w)
  | .turn _ _ | .call _ _ | .semInit _ _ _ | .semUp _ _ | .kill _ _ | .yield _ => inferInstanceAs (Decidable (_ = _))
  | .schedule _ => inferInstanceAs (Decidable (_ = _))
  | .world _ _ _ => inferInstanceAs (Decidable True)

def WaitEvent.next (L : Layout) (chan : Waited → Nat) (w : Waits) : WaitEvent → Except Panic Waits
  | .turn p loop => do
      let (_, w) ← loop.turn L chan p w
      return w
  | .call p op => do
      let k ← op.run L p w.kernel
      return { w with kernel := k }
  | .semInit _ sem_id val => .ok { w with sems := (Sem.semInit sem_id val w.sems).2 }
  | .semUp p i =>
    if (w.sems i).initialized then
      .ok ({ w with sems := Sem.setCount w.sems i (wrap32 ((w.sems i).count + 1)) }.wakeup chan p (.sem i))
    else .ok w
  | .kill _ n => .ok { w with kernel := (killPid (wrap32 n) w.kernel).2 }
  | .schedule p => .ok (w.setTasks (awaken (setState w.kernel.tasks p .RUNNING) p))
  | .yield p => .ok (w.setTasks (setState w.kernel.tasks p .RUNNABLE))
  | .world pipes ticks cons => .ok { w with pipes := pipes, ticks := ticks, cons := cons }

def Waits.Start (L : Layout) (used : List Nat) (w : Waits) : Prop :=
  Xv6.Start L used w.kernel ∧ ∀ i, w.sems i = { count := 0, initialized := false }

def Waits.Step (L : Layout) (chan : Waited → Nat) (w w' : Waits) : Prop :=
  ∃ e : WaitEvent, e.enabled w ∧ e.next L chan w = .ok w'

end Xv6
