import Xv6.Sleep
import Xv6.Lib.Reach

namespace Xv6.Sched

open Function

-- The process table at the level of its locks: every acquire(), every release() and
-- every store to a slot in sleep(), wakeup(), kill(), yield(), exit() and the scheduler
-- is a step of its own. `ι` are the slots, `κ` the channels, `Λ` the spinlocks other
-- than the slots' own, `γ` the CPUs.

structure Slot (κ : Type) where
  task : Task κ
  pid : Int

-- The places in sleep(): at acquire(&p->lock), at release(lk), at the two stores, at
-- sched(), switched away, and back again at the store, the release and acquire(lk).
inductive SleepStage where
  | lock | release | setChan | setState | switch | off | tidy | unlock | retake
  deriving DecidableEq

-- The places in the loop of wakeup(): at the next slot, or with a slot's lock
-- held before the test and after it.
inductive Wake (ι κ : Type) where
  | scan (c : κ) (rest : List ι)
  | locked (c : κ) (q : ι) (rest : List ι)
  | unlock (c : κ) (q : ι) (rest : List ι)
  deriving DecidableEq

inductive KillStage (ι : Type) where
  | scan (rest : List ι)
  | locked (q : ι) (rest : List ι)
  | hit (q : ι)
  | miss (q : ι) (rest : List ι)
  deriving DecidableEq

-- The places in yield() and at the end of exit(), which never comes back.
inductive SwitchStage where
  | lock | setState | switch | off | unlock
  deriving DecidableEq

-- What fork() and wait() do to another slot while they hold its lock.
inductive TableOp where
  | alloc (pid : Int)
  | ready
  | free
  deriving DecidableEq

inductive TableStage where
  | lock | locked | unlock
  deriving DecidableEq

-- Where the kernel thread of a slot is. `run` is all other code; a slot without a
-- process, or whose process has not run yet, is at `new`.
inductive Pc (ι κ : Type) where
  | run
  | sleep (c : κ) (s : SleepStage)
  | wakeup (w : Wake ι κ)
  | kill (n : Int) (s : KillStage ι)
  | table (op : TableOp) (q : ι) (s : TableStage)
  | yield (s : SwitchStage)
  | exit (s : SwitchStage)
  | new
  | forkret
  deriving DecidableEq

inductive SchedStage where
  | idle | locked | unlock
  deriving DecidableEq

-- A process, or the interrupt handler of a CPU that runs none.
inductive Thread (ι γ : Type) where
  | proc (p : ι)
  | cpu (x : γ)
  deriving DecidableEq

-- A lock that a process holds across sched() passes to the scheduler.
inductive Holder (ι γ : Type) where
  | thread (t : Thread ι γ)
  | scheduler
  deriving DecidableEq

structure Machine (ι κ Λ γ : Type) where
  slots : ι → Slot κ
  pc : ι → Pc ι κ
  -- what the interrupt handlers on a process's kernel stack have interrupted
  below : ι → List (Pc ι κ)
  cpu : γ → Option (Wake ι κ)
  sched : ι → SchedStage
  plock : ι → Option (Holder ι γ)
  lock : Λ → Option (Thread ι γ)

inductive Edit (κ : Type) where
  | chan (c : Option κ)
  | state (st : ProcState)
  | wake (c : κ)
  | kill
  | table (op : TableOp)

inductive Act (ι κ Λ : Type) where
  | skip
  | holding (l : Λ)
  | take (l : Λ)
  | drop (l : Λ)
  | acquire (q : ι)
  | release (q : ι)
  | edit (q : ι) (e : Edit κ)
  | swtch (p : ι)

-- What a thread does next: a call or a lock operation where it is free to choose, and
-- otherwise the next step of the function it is in.
inductive Choice (ι κ Λ : Type) where
  | acquire (l : Λ)
  | release (l : Λ)
  | sleep (c : κ)
  | wakeup (c : κ)
  | kill (n : Int)
  | table (op : TableOp) (q : ι)
  | yield
  | exit
  | go

variable {ι κ Λ γ : Type} [DecidableEq ι] [DecidableEq κ] [DecidableEq Λ] [DecidableEq γ]

def TableOp.possible (slot : Slot κ) : TableOp → Prop
  | .alloc _ => slot.task.state = .UNUSED
  | .ready => slot.task.state = .USED
  | .free => slot.task.state = .ZOMBIE ∨ slot.task.state = .USED

instance TableOp.decidablePossible (slot : Slot κ) : ∀ op : TableOp, Decidable (op.possible slot)
  | .alloc _ => inferInstanceAs (Decidable (_ = _))
  | .ready => inferInstanceAs (Decidable (_ = _))
  | .free => inferInstanceAs (Decidable (_ ∨ _))

def TableOp.run (slot : Slot κ) : TableOp → Slot κ
  | .alloc pid => { slot with task := { slot.task with state := .USED }, pid := pid }
  | .ready => { slot with task := { slot.task with state := .RUNNABLE } }
  | .free => { task := { state := .UNUSED, chan := none, killed := false }, pid := 0 }

def Edit.run (slot : Slot κ) : Edit κ → Slot κ
  | .chan c => { slot with task := { slot.task with chan := c } }
  | .state st => { slot with task := { slot.task with state := st } }
  | .wake c =>
    if slot.task.state = .SLEEPING ∧ slot.task.chan = some c then
      { slot with task := { slot.task with state := .RUNNABLE } }
    else slot
  | .kill =>
    { slot with task := { slot.task with
        killed := true
        state := if slot.task.state = .SLEEPING then .RUNNABLE else slot.task.state } }
  | .table op => op.run slot

-- allocproc() makes the new process start at forkret(), on an empty kernel stack.
def Edit.context (pc : Pc ι κ) : Edit κ → Pc ι κ
  | .table (.alloc _) => .new
  | _ => pc

def Edit.stack (below : List (Pc ι κ)) : Edit κ → List (Pc ι κ)
  | .table (.alloc _) => []
  | _ => below

section Program

variable (lockOf : κ → Λ) (table : List ι)

-- wakeup(c), which leaves myproc() out.
def Wake.step (me : Option ι) : Wake ι κ → Option (Act ι κ Λ × Wake ι κ)
  | .scan _ [] => none
  | .scan c (q :: rest) =>
    if some q = me then some (.skip, .scan c rest) else some (.acquire q, .locked c q rest)
  | .locked c q rest => some (.edit q (.wake c), .unlock c q rest)
  | .unlock c q rest => some (.release q, .scan c rest)

def SleepStage.step (p : ι) (c : κ) : SleepStage → Option (Act ι κ Λ × Pc ι κ)
  | .lock => some (.acquire p, .sleep c .release)
  | .release => some (.drop (lockOf c), .sleep c .setChan)
  | .setChan => some (.edit p (.chan (some c)), .sleep c .setState)
  | .setState => some (.edit p (.state .SLEEPING), .sleep c .switch)
  | .switch => some (.swtch p, .sleep c .off)
  | .off => none
  | .tidy => some (.edit p (.chan none), .sleep c .unlock)
  | .unlock => some (.release p, .sleep c .retake)
  | .retake => some (.take (lockOf c), .run)

-- kill() compares the pid under the slot's lock.
def KillStage.step (slots : ι → Slot κ) (n : Int) : KillStage ι → Act ι κ Λ × Pc ι κ
  | .scan [] => (.skip, .run)
  | .scan (q :: rest) => (.acquire q, .kill n (.locked q rest))
  | .locked q rest =>
    if (slots q).pid = n then (.edit q .kill, .kill n (.hit q)) else (.skip, .kill n (.miss q rest))
  | .hit q => (.release q, .run)
  | .miss q rest => (.release q, .kill n (.scan rest))

def TableStage.step (slots : ι → Slot κ) (op : TableOp) (q : ι) : TableStage → Act ι κ Λ × Pc ι κ
  | .lock => (.acquire q, .table op q .locked)
  | .locked => (if op.possible (slots q) then .edit q (.table op) else .skip, .table op q .unlock)
  | .unlock => (.release q, .run)

def yieldStep (p : ι) : SwitchStage → Option (Act ι κ Λ × Pc ι κ)
  | .lock => some (.acquire p, .yield .setState)
  | .setState => some (.edit p (.state .RUNNABLE), .yield .switch)
  | .switch => some (.swtch p, .yield .off)
  | .off => none
  | .unlock => some (.release p, .run)

def exitStep (p : ι) : SwitchStage → Option (Act ι κ Λ × Pc ι κ)
  | .lock => some (.acquire p, .exit .setState)
  | .setState => some (.edit p (.state .ZOMBIE), .exit .switch)
  | .switch => some (.swtch p, .exit .off)
  | .off | .unlock => none

-- The thread of slot p. sleep(c, lk) and wakeup(c) are called with lk held, and lk is
-- the one lock that goes with c.
def Pc.step (p : ι) (slots : ι → Slot κ) : Pc ι κ → Choice ι κ Λ → Option (Act ι κ Λ × Pc ι κ)
  | .run, .acquire l => some (.take l, .run)
  | .run, .release l => some (.drop l, .run)
  | .run, .sleep c => some (.holding (lockOf c), .sleep c .lock)
  | .run, .wakeup c => some (.holding (lockOf c), .wakeup (.scan c table))
  | .run, .kill n => some (.skip, .kill n (.scan table))
  | .run, .table op q => some (.skip, .table op q .lock)
  | .run, .yield => some (.skip, .yield .lock)
  | .run, .exit => some (.skip, .exit .lock)
  | .sleep c s, .go => s.step lockOf p c
  | .wakeup (.scan _ []), .go => some (.skip, .run)
  | .wakeup w, .go => (w.step (some p)).map fun (act, w) => (act, .wakeup w)
  | .kill n s, .go => some (s.step slots n)
  | .table op q s, .go => some (s.step slots op q)
  | .yield s, .go => yieldStep p s
  | .exit s, .go => exitStep p s
  | .forkret, .go => some (.release p, .run)
  | _, _ => none

-- The handler of a CPU without a process, where myproc() is null.
def cpuStep : Option (Wake ι κ) → Choice ι κ Λ → Option (Act ι κ Λ × Option (Wake ι κ))
  | none, .acquire l => some (.take l, none)
  | none, .release l => some (.drop l, none)
  | none, .wakeup c => some (.holding (lockOf c), some (.scan c table))
  | some (.scan _ []), .go => some (.skip, none)
  | some w, .go => (w.step none).map fun (act, w) => (act, some w)
  | _, _ => none

end Program

-- acquire() waits for a free lock; release() and sched() panic without it.
def Machine.exec (m : Machine ι κ Λ γ) (t : Thread ι γ) : Act ι κ Λ → Option (Machine ι κ Λ γ)
  | .skip => some m
  | .holding l => if m.lock l = some t then some m else none
  | .take l => if m.lock l = none then some { m with lock := update m.lock l (some t) } else none
  | .drop l => if m.lock l = some t then some { m with lock := update m.lock l none } else none
  | .acquire q =>
    if m.plock q = none then some { m with plock := update m.plock q (some (.thread t)) }
    else none
  | .release q =>
    if m.plock q = some (.thread t) then some { m with plock := update m.plock q none } else none
  | .edit q e =>
    some { m with
      slots := update m.slots q (e.run (m.slots q))
      pc := update m.pc q (e.context (m.pc q))
      below := update m.below q (e.stack (m.below q)) }
  | .swtch p =>
    if m.plock p = some (.thread t) then
      some { m with
        plock := update m.plock p (some .scheduler)
        sched := update m.sched p .unlock }
    else none

-- Where a thread goes on when the scheduler switches to it.
def Pc.resume : Pc ι κ → Option (Pc ι κ)
  | .sleep c .off => some (.sleep c .tidy)
  | .yield .off => some (.yield .unlock)
  | .new => some .forkret
  | _ => none

-- The scheduler of some CPU at slot p.
def Machine.schedule (m : Machine ι κ Λ γ) (p : ι) : Option (Machine ι κ Λ γ) :=
  match m.sched p with
  | .idle =>
    if m.plock p = none then
      some { m with
        plock := update m.plock p (some .scheduler)
        sched := update m.sched p .locked }
    else none
  | .locked =>
    if (m.slots p).task.state = .RUNNABLE then
      (m.pc p).resume.map fun pc => { m with
        slots := update m.slots p ((Edit.state .RUNNING).run (m.slots p))
        pc := update m.pc p pc
        plock := update m.plock p (some (.thread (.proc p)))
        sched := update m.sched p .idle }
    else some { m with sched := update m.sched p .unlock }
  | .unlock =>
    some { m with
      plock := update m.plock p none
      sched := update m.sched p .idle }

-- The places where interrupts may be on. They are off while a lock is held; that a
-- thread at `run` may hold some is left out of the test.
def Pc.interruptible : Pc ι κ → Bool
  | .run | .sleep _ .retake | .kill _ (.scan _) | .table _ _ .lock | .yield .lock | .exit .lock => true
  | _ => false

inductive Event (ι κ Λ γ : Type) where
  | proc (p : ι) (ch : Choice ι κ Λ)
  | cpu (x : γ) (ch : Choice ι κ Λ)
  | interrupt (p : ι)
  | iret (p : ι)
  | schedule (p : ι)

variable (lockOf : κ → Λ) (table : List ι)

def Machine.next (m : Machine ι κ Λ γ) : Event ι κ Λ γ → Option (Machine ι κ Λ γ)
  | .proc p ch =>
    match (m.pc p).step lockOf table p m.slots ch with
    | some (act, pc) => { m with pc := update m.pc p pc }.exec (.proc p) act
    | none => none
  | .cpu x ch =>
    match cpuStep lockOf table (m.cpu x) ch with
    | some (act, w) => { m with cpu := update m.cpu x w }.exec (.cpu x) act
    | none => none
  | .interrupt p =>
    if (m.pc p).interruptible then
      some { m with
        pc := update m.pc p .run
        below := update m.below p (m.pc p :: m.below p) }
    else none
  | .iret p =>
    match m.pc p, m.below p with
    | .run, pc :: below =>
      some { m with
        pc := update m.pc p pc
        below := update m.below p below }
    | _, _ => none
  | .schedule p => m.schedule p

-- When the CPUs come to scheduler(): the slots are free or have a process that has
-- not run yet, and no lock is held.
def Machine.Start (m : Machine ι κ Λ γ) : Prop :=
  (∀ p, ((m.slots p).task.state = .UNUSED ∨ (m.slots p).task.state = .RUNNABLE) ∧ m.pc p = .new ∧
    m.below p = [] ∧ m.sched p = .idle ∧ m.plock p = none) ∧
  (∀ x, m.cpu x = none) ∧ ∀ l, m.lock l = none

def Machine.Step (m m' : Machine ι κ Λ γ) : Prop := ∃ e, m.next lockOf table e = some m'

-- The place of a thread in wakeup(), if it is there.
def Machine.waker (m : Machine ι κ Λ γ) : Thread ι γ → Option (Wake ι κ)
  | .proc p => match m.pc p with
      | .wakeup w => some w
      | _ => none
  | .cpu x => m.cpu x

end Xv6.Sched
