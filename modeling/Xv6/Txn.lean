import Xv6.Bio
import Xv6.Disk
import Xv6.Ops

namespace Xv6.Txn

open Lib Bio Fs Function

-- The buffer cache and the log together: processes that use blocks, in operations or
-- outside of them, and the loops of commit(), statement by statement.

inductive Panic where
  | log (e : Ops.LogPanic)
  | bio (e : BioPanic)
  deriving DecidableEq, Repr

-- The fields of struct log that do not change.
structure Area where
  dev : Nat
  start : Nat
  size : Nat

-- The two local variables of the loops: the buffer of a log block, or of the header, and
-- the buffer of a block that was logged.
inductive Reg where
  | log
  | home
  deriving DecidableEq, Repr

inductive Instr where
  | bread (r : Reg) (blockno : Nat)
  | toLog   -- memmove(to->data, from->data, BSIZE)
  | toHome  -- memmove(dbuf->data, lbuf->data, BSIZE)
  | head    -- the stores to *hb
  | bwrite (r : Reg)
  | bunpin
  | brelse (r : Reg)
  deriving DecidableEq, Repr

-- One turn of write_log() and of install_trans(), and write_head().
def writeLog (A : Area) (tail n : Nat) : List Instr :=
  [.bread .log (A.start + tail + 1), .bread .home n, .toLog, .bwrite .log, .brelse .home, .brelse .log]

def installTrans (A : Area) (tail n : Nat) : List Instr :=
  [.bread .log (A.start + tail + 1), .bread .home n, .toHome, .bwrite .home, .bunpin, .brelse .log, .brelse .home]

def writeHead (A : Area) : List Instr := [.bread .log A.start, .head, .bwrite .log, .brelse .log]

-- struct logheader in the header block.
def putHead (lh : List Nat) (block : Block) : Block :=
  (lh.zipIdx 1).foldl (fun a (n, j) => setUint a j n) (setUint block 0 lh.length)

-- What commit() does at one place, before it goes on to the next.
def body (A : Area) (lh : List Nat) : Ops.Place → List Instr
  | .writeLog tail =>
    match lh[tail]? with
    | some n => writeLog A tail n
    | none => []
  | .writeHead => writeHead A
  | .install tail =>
    match lh[tail]? with
    | some n => installTrans A tail n
    | none => []
  | _ => []

-- script and reg are the statements that a process in commit() has before it and its local
-- variables. The last three fields are history: the contents that each block was given last, by a
-- process or for the log's own blocks by commit(); the buffers that were changed and not yet
-- passed to bwrite() or log_write(); the turns of install_trans() that have done their bunpin().
structure State (ι : Type) where
  ops : Ops.State ι
  bio : Bio.State ι Block
  script : ι → List Instr
  reg : ι → Reg → Fin NBUF
  latest : Nat → Block
  dirty : Fin NBUF → Bool
  unpinned : Nat

variable {ι : Type} [DecidableEq ι]

namespace State

def buf (s : State ι) (b : Fin NBUF) : Buf ι Block := s.bio.cache.buf b

def pinned (s : State ι) : List Nat := s.ops.log.lh.drop s.unpinned

def modify (s : State ι) (b : Fin NBUF) (v : Block) : State ι :=
  { s with
    bio := s.bio.modify b v
    latest := update s.latest (s.buf b).blockno v
    dirty := update s.dirty b true }

def bwrite (s : State ι) (p : ι) (b : Fin NBUF) : Except Panic (State ι) := do
  let bio ← (s.bio.bwrite p b).mapError .bio
  return { s with
    bio := bio
    dirty := update s.dirty b false }

def logWrite (A : Area) (s : State ι) (p : ι) (b : Fin NBUF) : Except Panic (State ι) := do
  let (new, _) ← (s.ops.log.logWrite A.size (s.buf b).blockno).mapError .log
  let ops ← (s.ops.logWrite A.size p (s.buf b).blockno).mapError .log
  return { s with
    ops := ops
    bio := if new then s.bio.bpin b else s.bio
    dirty := update s.dirty b false }

-- install_trans() gives a block what it has been given before: `latest` stays.
def exec (A : Area) (s : State ι) (p : ι) : Instr → Except Panic (State ι)
  | .bread r n => do
      let (b, _) ← (s.bio.cache.bget A.dev n).mapError .bio
      let bio ← (s.bio.bget p A.dev n).mapError .bio
      return { s with
        bio := bio
        reg := update s.reg p (update (s.reg p) r b) }
  | .toLog => .ok (s.modify (s.reg p .log) (s.buf (s.reg p .home)).data)
  | .toHome => .ok { s with
      bio := s.bio.modify (s.reg p .home) (s.buf (s.reg p .log)).data
      dirty := update s.dirty (s.reg p .home) true }
  | .head => .ok (s.modify (s.reg p .log) (putHead s.ops.log.lh (s.buf (s.reg p .log)).data))
  | .bwrite r => s.bwrite p (s.reg p r)
  | .bunpin => .ok { s with
      bio := s.bio.bunpin (s.reg p .home)
      unpinned := s.unpinned + 1 }
  | .brelse r => do
      let bio ← (s.bio.release p (s.reg p r)).mapError .bio
      return { s with bio := bio }

def instr (A : Area) (s : State ι) (p : ι) : Except Panic (State ι) :=
  match s.script p with
  | [] => .ok s
  | i :: rest => { s with script := update s.script p rest }.exec A p i

-- A step of begin_op() or end_op(), or from one place of commit() to the next. After
-- log.lh.n = 0 commit() calls write_head() again.
def op (A : Area) (s : State ι) (e : Ops.Event ι) : Except Panic (State ι) := do
  let ops ← (Ops.next A.size s.ops e).mapError .log
  match e with
  | .endOp p => return { s with
      ops := ops
      script := update s.script p (body A ops.log.lh (ops.place p)) }
  | .commit p =>
    if s.ops.place p = .erase then return { s with
      ops := ops
      script := update s.script p (writeHead A)
      unpinned := 0 }
    else return { s with
      ops := ops
      script := update s.script p (body A ops.log.lh (ops.place p)) }
  | _ => return { s with ops := ops }

-- A step of a process inside of bio.c, or one that it asks for.
def client (s : State ι) : Bio.Event ι Block → Except Panic (State ι)
  | .modify _ b v => .ok (s.modify b v)
  | .bwrite p b => s.bwrite p b
  | e => do
      let bio ← (Bio.next s.bio e).mapError .bio
      return { s with bio := bio }

end State

inductive Event (ι : Type) where
  | client (e : Bio.Event ι Block)
  | op (e : Ops.Event ι)
  | logWrite (p : ι) (b : Fin NBUF)
  | instr (p : ι)

def next (A : Area) (s : State ι) : Event ι → Except Panic (State ι)
  | .client e => s.client e
  | .op e => s.op A e
  | .logWrite p b => s.logWrite A p b
  | .instr p => s.instr A p

def proc : Ops.Event ι → ι
  | .call p | .begin p | .kill p | .logWrite p _ | .endOp p | .commit p => p

-- What a process asks of bio.c it asks in an operation or outside of the log; log_write() and
-- install_trans() do the pinning.
def Asks (s : State ι) : Bio.Event ι Block → Prop
  | .bget p _ _ | .modify p _ _ | .bwrite p _ | .release p _ => s.ops.place p = .out ∨ s.ops.place p = .inOp
  | .lock _ | .fill _ | .brelse _ => True
  | .bpin _ | .bunpin _ => False

def Event.enabled (s : State ι) : Event ι → Prop
  | .client e => e.enabled s.bio ∧ Asks s e
  | .op e => e.enabled s.ops ∧ s.bio.call (proc e) = .out ∧
      match e with
      | .logWrite _ _ => False
      | .commit p => s.script p = []
      | _ => True
  | .logWrite p _ => s.ops.place p = .inOp ∧ s.bio.call p = .out
  | .instr p => (s.ops.place p).commits = true ∧ s.bio.call p = .out ∧ s.script p ≠ []

instance Asks.decidable (s : State ι) : ∀ e : Bio.Event ι Block, Decidable (Asks s e)
  | .bget _ _ _ | .modify _ _ _ | .bwrite _ _ | .release _ _ => inferInstanceAs (Decidable (_ ∨ _))
  | .lock _ | .fill _ | .brelse _ => inferInstanceAs (Decidable True)
  | .bpin _ | .bunpin _ => inferInstanceAs (Decidable False)

instance Event.decidableEnabled (s : State ι) : ∀ e : Event ι, Decidable (e.enabled s)
  | .client e => inferInstanceAs (Decidable (e.enabled s.bio ∧ Asks s e))
  | .op (.logWrite _ _) => inferInstanceAs (Decidable (_ ∧ _ ∧ False))
  | .op (.commit _) => inferInstanceAs (Decidable (_ ∧ _ ∧ _ = []))
  | .op (.call _) | .op (.begin _) | .op (.kill _) | .op (.endOp _) => inferInstanceAs (Decidable (_ ∧ _ ∧ True))
  | .logWrite _ _ => inferInstanceAs (Decidable (_ ∧ _))
  | .instr _ => inferInstanceAs (Decidable (_ ∧ _ ∧ _))

-- After recovery. The cache was used before, and its valid buffers hold what the disk has.
def Start (A : Area) (s : State ι) : Prop :=
  Ops.Start s.ops ∧ Reach Bio.Start (Bio.Step Matched) s.bio ∧ (∀ p, s.bio.call p = .out) ∧
  (∀ b, (s.buf b).lock = none ∧ s.bio.pins b = 0 ∧ s.dirty b = false) ∧
  (∀ b, (s.buf b).dev = A.dev → (s.buf b).valid = true → (s.buf b).data = s.bio.disk (s.buf b).blockno) ∧
  (∀ p, s.script p = []) ∧ s.latest = s.bio.disk ∧ s.unpinned = 0

def Step (A : Area) (allowed : State ι → Event ι → Prop) (s t : State ι) : Prop :=
  ∃ e : Event ι, e.enabled s ∧ allowed s e ∧ next A s e = .ok t

-- Processes use the disk that the log is on, log what they have locked, and end an operation
-- when they have released their buffers.
def Orderly (A : Area) (s : State ι) : Event ι → Prop
  | .client (.bget _ dev _) => dev = A.dev
  | .logWrite p b => (s.buf b).lock = some p
  | .op (.endOp p) => ∀ b, (s.buf b).lock ≠ some p
  | _ => True

end Xv6.Txn
