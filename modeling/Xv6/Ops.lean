import Xv6.Params
import Xv6.Lib.Except
import Xv6.Lib.Reach
import Mathlib.Data.Fintype.Card

namespace Xv6.Ops

-- kernel/log.c at the level of log.lock: begin_op(), log_write() and end_op() of any
-- number of processes, where each section that holds log.lock is one step, and the
-- loops of commit(), which run without it.

inductive LogPanic where
  | tooBig      -- "too big a transaction"
  | outside     -- "log_write outside of trans"
  | committing  -- "log.committing"
  deriving DecidableEq, Repr

-- The fields of struct log that change, with lh.block[0..lh.n) as a list.
structure Log where
  outstanding : Int
  committing : Bool
  lh : List Nat

namespace Log

-- The second test in the loop of begin_op().
def Full (l : Log) : Prop := (l.lh.length : Int) + (l.outstanding + 1) * MAXOPBLOCKS > LOGSIZE

instance decidableFull (l : Log) : Decidable l.Full := inferInstanceAs (Decidable (_ > _))

-- One turn of the loop in begin_op(); none if it goes to sleep.
def beginOp (l : Log) : Option Log :=
  if l.committing then none
  else if l.Full then none
  else some { l with outstanding := l.outstanding + 1 }

-- log_write(b), with what it tells of the block: whether it is new in the log and
-- gets pinned. `size` is log.size.
def logWrite (size : Int) (b : Nat) (l : Log) : Except LogPanic (Bool × Log) :=
  if (l.lh.length : Int) ≥ LOGSIZE ∨ (l.lh.length : Int) ≥ size - 1 then .error .tooBig
  else if l.outstanding < 1 then .error .outside
  else if b ∈ l.lh then .ok (false, l)  -- log absorption
  else .ok (true, { l with lh := l.lh ++ [b] })

-- The first section of end_op(), with do_commit.
def endOp (l : Log) : Except LogPanic (Bool × Log) :=
  let l := { l with outstanding := l.outstanding - 1 }
  if l.committing then .error .committing
  else if l.outstanding = 0 then .ok (true, { l with committing := true })
  else .ok (false, l)

-- log.lh.n = 0 in commit(), and log.committing = 0 in the last section of end_op().
def clear (l : Log) : Log := { l with lh := [] }

def finish (l : Log) : Log := { l with committing := false }

end Log

-- Where a process is: outside of operations, in begin_op() before it takes log.lock, asleep
-- there, between begin_op() and end_op(), or in the commit() of its end_op().
inductive Place where
  | out
  | begins
  | asleep
  | inOp
  | writeLog (tail : Nat)
  | writeHead
  | install (tail : Nat)
  | erase
  | finish
  deriving DecidableEq, Repr

def Place.commits : Place → Bool
  | .writeLog _ | .writeHead | .install _ | .erase | .finish => true
  | _ => false

-- The blocks that a process has passed to log_write() in its present operation are history.
structure State (ι : Type) where
  log : Log
  place : ι → Place
  logged : ι → List Nat

inductive Event (ι : Type) where
  | call (p : ι)
  | begin (p : ι)
  | kill (p : ι)
  | logWrite (p : ι) (b : Nat)
  | endOp (p : ι)
  | commit (p : ι)

variable {ι : Type} [DecidableEq ι]

-- Operations bracket their writes.
def Event.enabled (s : State ι) : Event ι → Prop
  | .call p => s.place p = .out
  | .begin p => s.place p = .begins
  | .kill p => s.place p = .asleep
  | .logWrite p _ => s.place p = .inOp
  | .endOp p => s.place p = .inOp
  | .commit p => (s.place p).commits = true

instance Event.decidableEnabled (s : State ι) : ∀ e : Event ι, Decidable (e.enabled s)
  | .call p => inferInstanceAs (Decidable (s.place p = .out))
  | .begin p => inferInstanceAs (Decidable (s.place p = .begins))
  | .kill p => inferInstanceAs (Decidable (s.place p = .asleep))
  | .logWrite p _ => inferInstanceAs (Decidable (s.place p = .inOp))
  | .endOp p => inferInstanceAs (Decidable (s.place p = .inOp))
  | .commit p => inferInstanceAs (Decidable ((s.place p).commits = true))

namespace State

def goto (s : State ι) (p : ι) (pl : Place) : State ι := { s with place := Function.update s.place p pl }

-- wakeup(&log): a process that was asleep makes another turn of the loop in begin_op().
def wakeup (s : State ι) : State ι :=
  { s with place := fun p => if s.place p = .asleep then .begins else s.place p }

def beginOp (s : State ι) (p : ι) : State ι :=
  match s.log.beginOp with
  | some l => { s.goto p .inOp with
      log := l
      logged := Function.update s.logged p [] }
  | none => s.goto p .asleep

def logWrite (size : Int) (s : State ι) (p : ι) (b : Nat) : Except LogPanic (State ι) := do
  let (_, l) ← s.log.logWrite size b
  return { s with
    log := l
    logged := if b ∈ s.logged p then s.logged else Function.update s.logged p (s.logged p ++ [b]) }

-- end_op(), with the test of commit().
def endOp (s : State ι) (p : ι) : Except LogPanic (State ι) := do
  let (doCommit, l) ← s.log.endOp
  if doCommit then
    return { s.goto p (if l.lh = [] then .finish else .writeLog 0) with log := l }
  else
    return { s.wakeup.goto p .out with log := l }

-- The next step of commit(), or the last section of end_op().
def commit (s : State ι) (p : ι) : State ι :=
  match s.place p with
  | .writeLog tail => s.goto p (if tail < s.log.lh.length then .writeLog (tail + 1) else .writeHead)
  | .writeHead => s.goto p (.install 0)
  | .install tail => s.goto p (if tail < s.log.lh.length then .install (tail + 1) else .erase)
  | .erase => { s.goto p .finish with log := s.log.clear }
  | .finish => { s.wakeup.goto p .out with log := s.log.finish }
  | _ => s

end State

def next (size : Int) (s : State ι) : Event ι → Except LogPanic (State ι)
  | .call p => .ok (s.goto p .begins)
  | .begin p => .ok (s.beginOp p)
  | .kill p => .ok (s.goto p .begins)
  | .logWrite p b => s.logWrite size p b
  | .endOp p => s.endOp p
  | .commit p => .ok (s.commit p)

-- After recovery: the log is empty and no operation is under way.
def Start (s : State ι) : Prop :=
  s.log = { outstanding := 0, committing := false, lh := [] } ∧ ∀ p, s.place p = .out

-- A panic is no step: the kernel has stopped, with log.lock held.
def Step (size : Int) (allowed : State ι → Event ι → Prop) (s t : State ι) : Prop :=
  ∃ e : Event ι, e.enabled s ∧ allowed s e ∧ next size s e = .ok t

-- No operation passes more than MAXOPBLOCKS distinct blocks to log_write().
def Frugal (s : State ι) : Event ι → Prop
  | .logWrite p b => b ∈ s.logged p ∨ (s.logged p).length < MAXOPBLOCKS
  | _ => True

instance Frugal.decidable (s : State ι) : ∀ e : Event ι, Decidable (Frugal s e)
  | .logWrite _ _ => inferInstanceAs (Decidable (_ ∨ _))
  | .call _ | .begin _ | .kill _ | .endOp _ | .commit _ => inferInstanceAs (Decidable True)

end Xv6.Ops
