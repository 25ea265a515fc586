import Xv6.Sched
import Xv6.Lib.Except

namespace Xv6.Smp

open Function (update)

open Sched (Slot Edit)

-- The CPUs: on each its scheduler(), the kernel threads that it switches to, and the
-- interrupt handlers on either. Spinlocks belong to CPUs, and a process's lock is taken by
-- one thread and released by another. `ι` are the slots, `κ` the channels, `Λ` the spinlocks
-- other than the slots' own, `γ` the CPUs.

inductive Lock (ι Λ : Type) where
  | proc (p : ι)
  | other (l : Λ)
  deriving DecidableEq

inductive Panic where
  | acquire
  | release
  | popOffInterruptible  -- "pop_off - interruptible"
  | popOff
  | schedLock            -- "sched p->lock"
  | schedLocks           -- "sched locks"
  | schedRunning         -- "sched RUNNING"
  | schedInterruptible   -- "sched interruptible"
  | zombieExit           -- "zombie exit"
  | nullProc             -- a fault, at p->lock with p == 0
  | context              -- swtch() saves a thread in the context of another one, or loads a stale context
  deriving DecidableEq, Repr

-- struct cpu without its context; intr is what intr_get() reads on this CPU.
structure Cpu (ι : Type) where
  proc : Option ι
  noff : Nat
  intena : Bool
  intr : Bool

variable {ι κ Λ γ : Type}

def Cpu.pushOff (c : Cpu ι) : Cpu ι :=
  { c with
    intr := false
    intena := if c.noff = 0 then c.intr else c.intena
    noff := c.noff + 1 }

def Cpu.popOff (c : Cpu ι) : Except Panic (Cpu ι) :=
  if c.intr then .error .popOffInterruptible
  else if c.noff < 1 then .error .popOff
  else .ok { c with
    noff := c.noff - 1
    intr := if c.noff - 1 = 0 ∧ c.intena then true else c.intr }

-- The places in sleep(), yield() and exit() before each statement. At `off` the thread is
-- inside of sched(), behind swtch(), with the local variable intena.
inductive SleepStage where
  | lock | release | chan | state | switch
  | off (intena : Bool)
  | tidy | unlock | retake
  deriving DecidableEq

inductive YieldStage where
  | lock | state | switch
  | off (intena : Bool)
  | unlock
  deriving DecidableEq

-- From acquire(&wait_lock) on; the wakeup()s of reparent() and of exit() are at scan, test
-- and drop.
inductive ExitStage (ι κ : Type) where
  | wait | scan
  | test (q : ι) (c : κ)
  | drop (q : ι)
  | state | release | switch
  | off (intena : Bool)
  deriving DecidableEq

-- fork() with the slot that allocproc() has found: up to release(&np->lock), up to
-- acquire(&np->lock), and before np->state = RUNNABLE.
inductive ForkStage where
  | making | linking | ready
  deriving DecidableEq

-- Where a kernel thread is, with the local variables p = myproc() and np. `run` is all other
-- code, of the kernel or of the user.
inductive Pc (ι κ Λ : Type) where
  | run
  | sleep (p : ι) (c : κ) (lk : Λ) (s : SleepStage)
  | yield (p : ι) (s : YieldStage)
  | exit (p : ι) (s : ExitStage ι κ)
  | fork (np : ι) (s : ForkStage)
  | forkret
  deriving DecidableEq

-- The places in the loops of scheduler(), with the slots that the for loop has before it: at
-- intr_on() and intr_off(), at the next slot, and with a slot's lock held before each statement.
-- At `away` the CPU is in the process.
inductive Place (ι : Type) where
  | on | off
  | scan (rest : List ι)
  | test (p : ι) (rest : List ι)
  | proc (p : ι) (rest : List ι)
  | switch (p : ι) (rest : List ι)
  | away (p : ι) (rest : List ι)
  | clear (p : ι) (rest : List ι)
  | drop (p : ι) (rest : List ι)
  deriving DecidableEq

structure Machine (ι κ Λ γ : Type) where
  slots : ι → Slot κ
  -- the holder of each spinlock: lk->cpu while lk->locked
  lock : Lock ι Λ → Option γ
  cpu : γ → Cpu ι
  -- the thread of scheduler() on each CPU, and whether a handler has interrupted it
  scheduler : γ → Place ι
  handler : γ → Bool
  -- the thread of a process that a CPU executes, or none in scheduler()
  thread : γ → Option ι
  pc : ι → Pc ι κ Λ
  -- what the handlers on a process's kernel stack have interrupted
  below : ι → List (Pc ι κ Λ)

inductive Act (ι κ Λ : Type) where
  | skip
  | acquire (l : Lock ι Λ)
  | release (l : Lock ι Λ)
  | edit (q : ι) (e : Edit κ)
  | sched
  | intena (b : Bool)
  | intr (b : Bool)
  | proc (p : Option ι)
  | enter (p : ι)
  | zombie

-- What a thread does next where it is free to choose; `go` is the next statement of the
-- function that it is in. The body of the loop of wakeup(c) on q, kill(n) on q, wait() on a
-- child q and allocproc() on q are for a caller that has q->lock.
inductive Choice (ι κ Λ : Type) where
  | acquire (l : Lock ι Λ)
  | release (l : Lock ι Λ)
  | intr (b : Bool)
  | wakeup (q : ι) (c : κ)
  | kill (q : ι) (n : Int)
  | reap (q : ι)
  | alloc (q : ι) (pid : Int)
  | fail
  | sleep (c : κ) (lk : Λ)
  | yield
  | exit
  | go
  | interrupt
  | iret

variable [DecidableEq ι] [DecidableEq κ] [DecidableEq Λ] [DecidableEq γ]

section Program

variable (waitLock : Λ) (table : List ι)

def SleepStage.step (intena : Bool) (p : ι) (c : κ) (lk : Λ) : SleepStage → Act ι κ Λ × Pc ι κ Λ
  | .lock => (.acquire (.proc p), .sleep p c lk .release)
  | .release => (.release (.other lk), .sleep p c lk .chan)
  | .chan => (.edit p (.chan (some c)), .sleep p c lk .state)
  | .state => (.edit p (.state .SLEEPING), .sleep p c lk .switch)
  | .switch => (.sched, .sleep p c lk (.off intena))
  | .off b => (.intena b, .sleep p c lk .tidy)
  | .tidy => (.edit p (.chan none), .sleep p c lk .unlock)
  | .unlock => (.release (.proc p), .sleep p c lk .retake)
  | .retake => (.acquire (.other lk), .run)

def YieldStage.step (intena : Bool) (p : ι) : YieldStage → Act ι κ Λ × Pc ι κ Λ
  | .lock => (.acquire (.proc p), .yield p .state)
  | .state => (.edit p (.state .RUNNABLE), .yield p .switch)
  | .switch => (.sched, .yield p (.off intena))
  | .off b => (.intena b, .yield p .unlock)
  | .unlock => (.release (.proc p), .run)

def ExitStage.step (intena : Bool) (p : ι) : ExitStage ι κ → Choice ι κ Λ → Option (Act ι κ Λ × Pc ι κ Λ)
  | .wait, .go => some (.acquire (.other waitLock), .exit p .scan)
  | .scan, .wakeup q c =>
    if q ≠ p then some (.acquire (.proc q), .exit p (.test q c)) else some (.skip, .exit p .scan)
  | .test q c, .go => some (.edit q (.wake c), .exit p (.drop q))
  | .drop q, .go => some (.release (.proc q), .exit p .scan)
  | .scan, .go => some (.acquire (.proc p), .exit p .state)
  | .state, .go => some (.edit p (.state .ZOMBIE), .exit p .release)
  | .release, .go => some (.release (.other waitLock), .exit p .switch)
  | .switch, .go => some (.sched, .exit p (.off intena))
  | .off b, .go => some (.zombie, .exit p (.off b))
  | _, _ => none

-- Before and after np->lock is given up, fork() takes and releases other locks. If it runs out
-- of memory, it frees np.
def ForkStage.step (np : ι) : ForkStage → Choice ι κ Λ → Option (Act ι κ Λ × Pc ι κ Λ)
  | .making, .acquire (.other l) => some (.acquire (.other l), .fork np .making)
  | .making, .release (.other l) => some (.release (.other l), .fork np .making)
  | .making, .fail => some (.edit np (.table .free), .run)
  | .making, .go => some (.release (.proc np), .fork np .linking)
  | .linking, .acquire (.other l) => some (.acquire (.other l), .fork np .linking)
  | .linking, .release (.other l) => some (.release (.other l), .fork np .linking)
  | .linking, .go => some (.acquire (.proc np), .fork np .ready)
  | .ready, .go => some (.edit np (.table .ready), .run)
  | _, _ => none

-- myproc() is c->proc. It leaves the CPU as it was, but for an intena that the next
-- push_off() sets again.
def Pc.step (c : Cpu ι) (slots : ι → Slot κ) : Pc ι κ Λ → Choice ι κ Λ → Option (Act ι κ Λ × Pc ι κ Λ)
  | .run, .acquire l => some (.acquire l, .run)
  | .run, .release l => some (.release l, .run)
  | .run, .intr b => some (.intr b, .run)
  | .run, .wakeup q ch => some (.edit q (.wake ch), .run)
  | .run, .kill q n => some (if (slots q).pid = n then .edit q .kill else .skip, .run)
  | .run, .reap q => some (if (slots q).task.state = .ZOMBIE then .edit q (.table .free) else .skip, .run)
  | .run, .alloc q pid =>
    if (slots q).task.state = .UNUSED then some (.edit q (.table (.alloc pid)), .fork q .making)
    else some (.skip, .run)
  | .run, .sleep ch lk => c.proc.map fun p => (.skip, .sleep p ch lk .lock)
  | .run, .yield => c.proc.map fun p => (.skip, .yield p .lock)
  | .run, .exit => c.proc.map fun p => (.skip, .exit p .wait)
  | .sleep p ch lk s, .go => some (s.step c.intena p ch lk)
  | .yield p s, .go => some (s.step c.intena p)
  | .exit p s, ch => s.step waitLock c.intena p ch
  | .fork np s, ch => s.step np ch
  | .forkret, .go => c.proc.map fun p => (.release (.proc p), .run)
  | _, _ => none

-- The scheduler. wfi, which waits for an interrupt, is left out.
def Place.step (slots : ι → Slot κ) : Place ι → Option (Act ι κ Λ × Place ι)
  | .on => some (.intr true, .off)
  | .off => some (.intr false, .scan table)
  | .scan [] => some (.skip, .on)
  | .scan (p :: rest) => some (.acquire (.proc p), .test p rest)
  | .test p rest =>
    if (slots p).task.state = .RUNNABLE then some (.edit p (.state .RUNNING), .proc p rest)
    else some (.skip, .drop p rest)
  | .proc p rest => some (.proc (some p), .switch p rest)
  | .switch p rest => some (.enter p, .away p rest)
  | .away _ _ => none
  | .clear p rest => some (.proc none, .drop p rest)
  | .drop p rest => some (.release (.proc p), .scan rest)

-- A handler on the stack of a scheduler. kerneltrap() does not yield() there, since
-- myproc() is null.
def handlerStep : Choice ι κ Λ → Option (Act ι κ Λ)
  | .acquire l => some (.acquire l)
  | .release l => some (.release l)
  | .wakeup q c => some (.edit q (.wake c))
  | _ => none

end Program

def Place.back : Place ι → Place ι
  | .away p rest => .clear p rest
  | pl => pl

-- What swtch() has saved of a thread, or what allocproc() has put there.
def Pc.saved : Pc ι κ Λ → Bool
  | .sleep _ _ _ (.off _) | .yield _ (.off _) | .exit _ (.off _) | .forkret => true
  | _ => false

namespace Machine

def acquire (m : Machine ι κ Λ γ) (x : γ) (l : Lock ι Λ) : Except Panic (Machine ι κ Λ γ) :=
  if m.lock l = some x then .error .acquire
  else .ok { m with
    cpu := update m.cpu x (m.cpu x).pushOff
    lock := update m.lock l (some x) }

def release (m : Machine ι κ Λ γ) (x : γ) (l : Lock ι Λ) : Except Panic (Machine ι κ Λ γ) :=
  if m.lock l = some x then do
    let c ← (m.cpu x).popOff
    return { m with
      cpu := update m.cpu x c
      lock := update m.lock l none }
  else .error .release

def sched (m : Machine ι κ Λ γ) (x : γ) : Except Panic (Machine ι κ Λ γ) :=
  match (m.cpu x).proc with
  | none => .error .nullProc
  | some p =>
    if m.lock (.proc p) ≠ some x then .error .schedLock
    else if (m.cpu x).noff ≠ 1 then .error .schedLocks
    else if (m.slots p).task.state = .RUNNING then .error .schedRunning
    else if (m.cpu x).intr then .error .schedInterruptible
    else if m.thread x ≠ some p then .error .context
    else .ok { m with
      thread := update m.thread x none
      scheduler := update m.scheduler x (m.scheduler x).back }

def exec (m : Machine ι κ Λ γ) (x : γ) : Act ι κ Λ → Except Panic (Machine ι κ Λ γ)
  | .skip => .ok m
  | .acquire l => m.acquire x l
  | .release l => m.release x l
  | .edit q (.table (.alloc pid)) => .ok { m with
      slots := update m.slots q ((Edit.table (.alloc pid)).run (m.slots q))
      pc := update m.pc q .forkret
      below := update m.below q [] }
  | .edit q e => .ok { m with slots := update m.slots q (e.run (m.slots q)) }
  | .sched => m.sched x
  | .intena b => .ok { m with cpu := update m.cpu x { m.cpu x with intena := b } }
  | .intr b => .ok { m with cpu := update m.cpu x { m.cpu x with intr := b } }
  | .proc p => .ok { m with cpu := update m.cpu x { m.cpu x with proc := p } }
  | .enter p =>
    if (m.pc p).saved then .ok { m with thread := update m.thread x (some p) }
    else .error .context
  | .zombie => .error .zombieExit

variable (waitLock : Λ) (table : List ι)

-- What CPU x does next. An interrupt turns interrupts off, and sret turns them on.
def plan (m : Machine ι κ Λ γ) (x : γ) (ch : Choice ι κ Λ) : Option (Act ι κ Λ × Machine ι κ Λ γ) :=
  match m.thread x with
  | some p =>
    match ch with
    | .interrupt =>
      if (m.cpu x).intr then some (.intr false, { m with
        pc := update m.pc p .run
        below := update m.below p (m.pc p :: m.below p) })
      else none
    | .iret =>
      match m.pc p, m.below p with
      | .run, pc :: below => some (.intr true, { m with
          pc := update m.pc p pc
          below := update m.below p below })
      | _, _ => none
    | ch =>
      ((m.pc p).step waitLock (m.cpu x) m.slots ch).map fun (act, pc) =>
        (act, { m with pc := update m.pc p pc })
  | none =>
    match ch, m.handler x with
    | .interrupt, false =>
      if (m.cpu x).intr then some (.intr false, { m with handler := update m.handler x true })
      else none
    | .iret, true => some (.intr true, { m with handler := update m.handler x false })
    | ch, true => (handlerStep ch).map fun act => (act, m)
    | .go, false =>
      ((m.scheduler x).step table m.slots).map fun (act, pl) =>
        (act, { m with scheduler := update m.scheduler x pl })
    | _, false => none

end Machine

-- acquire() spins while another CPU has the lock.
def Act.ready (m : Machine ι κ Λ γ) (x : γ) : Act ι κ Λ → Prop
  | .acquire l => m.lock l = none ∨ m.lock l = some x
  | _ => True

structure Event (ι κ Λ γ : Type) where
  cpu : γ
  choice : Choice ι κ Λ

variable (waitLock : Λ) (table : List ι)

def Event.enabled (m : Machine ι κ Λ γ) (e : Event ι κ Λ γ) : Prop :=
  ∃ a ∈ m.plan waitLock table e.cpu e.choice, a.1.ready m e.cpu

def next (m : Machine ι κ Λ γ) (e : Event ι κ Λ γ) : Except Panic (Machine ι κ Λ γ) :=
  match m.plan waitLock table e.cpu e.choice with
  | some (act, m') => m'.exec e.cpu act
  | none => .ok m

-- When the CPUs come to scheduler(): the slots are free or have a process that has not run
-- yet, and no lock is held.
def Start (m : Machine ι κ Λ γ) : Prop :=
  (∀ p, ((m.slots p).task.state = .UNUSED ∨ (m.slots p).task.state = .RUNNABLE) ∧ m.pc p = .forkret ∧ m.below p = []) ∧
  (∀ l, m.lock l = none) ∧
  ∀ x, m.scheduler x = .on ∧ m.handler x = false ∧ m.thread x = none ∧ (m.cpu x).proc = none ∧ (m.cpu x).noff = 0

-- sleep(chan, lk) is called with lk and no other lock held, yield() and exit() with none. A slot
-- is looked at with its lock held. Code turns interrupts on, or returns from a handler, only
-- when it holds no lock, and handlers neither fork nor exit.
def Orderly (m : Machine ι κ Λ γ) (e : Event ι κ Λ γ) : Prop :=
  match e.choice with
  | .sleep _ lk => (m.cpu e.cpu).noff = 1 ∧ m.lock (.other lk) = some e.cpu
  | .yield | .intr _ | .iret => (m.cpu e.cpu).noff = 0
  | .exit => (m.cpu e.cpu).noff = 0 ∧ ∀ p, m.thread e.cpu = some p → m.below p = []
  | .alloc q _ => m.lock (.proc q) = some e.cpu ∧ ∀ p, m.thread e.cpu = some p → m.below p = []
  | .wakeup q _ => m.lock (.proc q) = some e.cpu ∨ ∃ p, m.thread e.cpu = some p ∧ m.pc p = .exit p .scan
  | .kill q _ | .reap q => m.lock (.proc q) = some e.cpu
  | _ => True

def Step (allowed : Machine ι κ Λ γ → Event ι κ Λ γ → Prop) (m m' : Machine ι κ Λ γ) : Prop :=
  ∃ e : Event ι κ Λ γ, e.enabled waitLock table m ∧ allowed m e ∧ next waitLock table m e = .ok m'

end Xv6.Smp
