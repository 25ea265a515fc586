import Xv6.Params
import Xv6.Lib.Reach
import Xv6.Lib.Replay
import Mathlib.Data.Fintype.Card

namespace Xv6.Log

open Function

-- A block is BSIZE = 1024 bytes, seen as the 32-bit words of struct logheader.
abbrev Block := Fin 256 → BitVec 32

abbrev BlockNo := BitVec 32

abbrev Disk := BlockNo → Block

-- sb->logstart and sb->nlog. The header block is the first block of the region.
structure Geometry where
  logstart : Nat
  nlog : Nat
  pos : 0 < nlog
  fits : logstart + nlog ≤ 2 ^ 32

namespace Geometry

variable (g : Geometry)

def headBlock : BlockNo := BitVec.ofNat 32 g.logstart

def logBlock (tail : Nat) : BlockNo := BitVec.ofNat 32 (g.logstart + tail + 1)

def InLog (b : BlockNo) : Prop := g.logstart ≤ b.toNat ∧ b.toNat < g.logstart + g.nlog

def Home (b : BlockNo) : Prop := ¬g.InLog b

instance : DecidablePred g.InLog := fun _ => inferInstanceAs (Decidable (_ ∧ _))

instance : DecidablePred g.Home := fun _ => inferInstanceAs (Decidable (¬_))

end Geometry

-- read_head: n and the first n entries of block[]. A negative n reads as none.
def decodeHead (h : Block) : List BlockNo :=
  (List.range (h 0).toInt.toNat).map fun i => h (Fin.ofNat 256 (i + 1))

-- write_head: entries at and past n keep what the block held.
def encodeHead (lh : List BlockNo) (old : Block) : Block := fun w =>
  if w = 0 then BitVec.ofNat 32 lh.length
  else (lh[w.val - 1]?).getD (old w)

-- Where the kernel is in recover_from_log() or in commit(). `idle` is neither.
inductive Pc where
  | readHead
  | recoverInstall (tail : Nat)
  | recoverClear
  | idle
  | writeLog (tail : Nat)
  | writeHead
  | install (tail : Nat)
  | clear
  | finish
  | panicked
  deriving DecidableEq

def Pc.running : Pc → Bool
  | .readHead | .recoverInstall _ | .recoverClear | .panicked => false
  | _ => true

structure Update where
  op : Nat
  block : BlockNo
  data : Block

structure State (ι : Type) where
  disk : Disk
  -- the buffer cache: valid data, the holder of b->lock, and the pins in b->refcnt
  cache : BlockNo → Option Block
  holder : BlockNo → Option ι
  pins : BlockNo → Nat
  -- log.lh.block[0..n), log.outstanding, log.committing
  lh : List BlockNo
  outstanding : Int
  committing : Bool
  pc : Pc
  -- the operation that a process is in, between begin_op() and end_op()
  op : ι → Option Nat
  -- history: operations are numbered, an update belongs to the current group until
  -- its write_head() moves the group to the committed ones or a crash drops it
  nextOp : Nat
  issued : List Update
  current : List Update
  groups : List (List Update)

variable {ι : Type} [DecidableEq ι]

namespace State

variable (g : Geometry) (s : State ι)

def data (b : BlockNo) : Block := (s.cache b).getD (s.disk b)

-- bread(): a buffer that is not valid is read from the disk.
def load (b : BlockNo) : State ι := { s with cache := update s.cache b (some (s.data b)) }

def bwrite (b : BlockNo) (d : Block) : State ι :=
  { s with
    cache := update s.cache b (some d)
    disk := update s.disk b d }

def bpin (b : BlockNo) : State ι := { s with pins := update s.pins b (s.pins b + 1) }

def bunpin (b : BlockNo) : State ι := { s with pins := update s.pins b (s.pins b - 1) }

def writeHead : State ι :=
  let s := s.load g.headBlock
  s.bwrite g.headBlock (encodeHead s.lh (s.data g.headBlock))

def writeLog (tail : Nat) (b : BlockNo) : State ι :=
  let s := (s.load (g.logBlock tail)).load b
  s.bwrite (g.logBlock tail) (s.data b)

def installTrans (recovering : Bool) (tail : Nat) (b : BlockNo) : State ι :=
  let s := (s.load (g.logBlock tail)).load b
  let s := s.bwrite b (s.data (g.logBlock tail))
  if recovering then s else s.bunpin b

def record (p : ι) (b : BlockNo) (d : Block) : State ι :=
  match s.op p with
  | none => s
  | some o =>
    { s with
      issued := s.issued ++ [⟨o, b, d⟩]
      current := s.current ++ [⟨o, b, d⟩] }

def logWrite (p : ι) (b : BlockNo) : State ι :=
  if LOGSIZE ≤ s.lh.length ∨ g.nlog ≤ s.lh.length + 1 then
    { s with pc := .panicked }  -- "too big a transaction"
  else if s.outstanding < 1 then
    { s with pc := .panicked }  -- "log_write outside of trans"
  else
    let s := s.record p b (s.data b)
    -- log absorption
    if b ∈ s.lh then s else { s.bpin b with lh := s.lh ++ [b] }

-- A change of b->data by the holder of the buffer. Of a block that is already
-- in the log it is an update of the group, with or without a further log_write().
def modify (p : ι) (b : BlockNo) (d : Block) : State ι :=
  let t := if b ∈ s.lh then s.record p b d else s
  { t with cache := update t.cache b (some d) }

def beginOp (p : ι) : State ι :=
  { s with
    outstanding := s.outstanding + 1
    op := update s.op p (some s.nextOp)
    nextOp := s.nextOp + 1 }

-- end_op() up to its call of commit(), with the test of commit().
def endOp (p : ι) : State ι :=
  let s := { s with
    outstanding := s.outstanding - 1
    op := update s.op p none }
  if s.committing then { s with pc := .panicked }  -- "log.committing"
  else if s.outstanding = 0 then
    { s with
      committing := true
      pc := if s.lh = [] then .finish else .writeLog 0 }
  else s

-- The next step of commit() and of the rest of end_op(): at most one block write.
def commit : State ι :=
  match s.pc with
  | .writeLog tail =>
    match s.lh[tail]? with
    | some b => { s.writeLog g tail b with pc := .writeLog (tail + 1) }
    | none => { s with pc := .writeHead }
  | .writeHead =>
    { s.writeHead g with
      pc := .install 0
      groups := s.groups ++ [s.current]
      current := [] }
  | .install tail =>
    match s.lh[tail]? with
    | some b => { s.installTrans g false tail b with pc := .install (tail + 1) }
    | none => { s with pc := .clear }
  | .clear => { ({ s with lh := [] } : State ι).writeHead g with pc := .finish }
  | .finish =>
    { s with
      committing := false
      pc := .idle }
  | _ => s

-- The next step of recover_from_log().
def recover : State ι :=
  match s.pc with
  | .readHead =>
    let t := s.load g.headBlock
    { t with
      lh := decodeHead (t.data g.headBlock)
      pc := .recoverInstall 0 }
  | .recoverInstall tail =>
    match s.lh[tail]? with
    | some b => { s.installTrans g true tail b with pc := .recoverInstall (tail + 1) }
    | none => { s with pc := .recoverClear }
  | .recoverClear => { ({ s with lh := [] } : State ι).writeHead g with pc := .idle }
  | _ => s

-- A crash loses everything but the disk; the next boot begins with recovery.
def crash : State ι :=
  { s with
    cache := fun _ => none
    holder := fun _ => none
    pins := fun _ => 0
    lh := []
    outstanding := 0
    committing := false
    pc := .readHead
    op := fun _ => none
    current := [] }

-- The buffers that the next step of commit() locks; bread() waits for them.
def commitBufs : List BlockNo :=
  match s.pc with
  | .writeLog tail | .install tail => g.logBlock tail :: (s.lh[tail]?).toList
  | .writeHead | .clear => [g.headBlock]
  | _ => []

end State

inductive Event (ι : Type) where
  | beginOp (p : ι)
  | bread (p : ι) (b : BlockNo)
  | modify (p : ι) (b : BlockNo) (d : Block)
  | logWrite (p : ι) (b : BlockNo)
  | brelse (p : ι) (b : BlockNo)
  -- bget() recycles a buffer whose refcnt is 0
  | evict (b : BlockNo)
  | endOp (p : ι)
  | commit
  | recover
  | crash

-- When an event can happen. Operations change and log home blocks only, and do
-- so between their begin_op() and end_op().
def Enabled (g : Geometry) (s : State ι) : Event ι → Prop
  | .beginOp p => s.pc.running = true ∧ s.op p = none ∧ s.committing = false ∧
      s.lh.length + (s.outstanding + 1) * MAXOPBLOCKS ≤ LOGSIZE
  | .bread _ b => s.pc.running = true ∧ s.holder b = none
  | .modify p b _ => s.pc.running = true ∧ s.op p ≠ none ∧ s.holder b = some p ∧ g.Home b
  | .logWrite p b => s.pc.running = true ∧ s.op p ≠ none ∧ s.holder b = some p ∧ g.Home b
  | .brelse p b => s.pc.running = true ∧ s.holder b = some p
  | .evict b => s.holder b = none ∧ s.pins b = 0
  | .endOp p => s.pc.running = true ∧ s.op p ≠ none
  | .commit => s.pc.running = true ∧ ∀ b ∈ s.commitBufs g, s.holder b = none
  | .recover => s.pc.running = false
  | .crash => True

instance (g : Geometry) (s : State ι) : ∀ e, Decidable (Enabled g s e)
  | .beginOp _ => inferInstanceAs (Decidable (_ ∧ _))
  | .bread _ _ => inferInstanceAs (Decidable (_ ∧ _))
  | .modify _ _ _ => inferInstanceAs (Decidable (_ ∧ _))
  | .logWrite _ _ => inferInstanceAs (Decidable (_ ∧ _))
  | .brelse _ _ => inferInstanceAs (Decidable (_ ∧ _))
  | .evict _ => inferInstanceAs (Decidable (_ ∧ _))
  | .endOp _ => inferInstanceAs (Decidable (_ ∧ _))
  | .commit =>
    -- over the list of buffers, not over all block numbers
    have : Decidable (∀ b ∈ s.commitBufs g, s.holder b = none) := List.decidableBAll _ _
    inferInstanceAs (Decidable (_ ∧ _))
  | .recover => inferInstanceAs (Decidable (_ = _))
  | .crash => inferInstanceAs (Decidable True)

def next (g : Geometry) (s : State ι) : Event ι → State ι
  | .beginOp p => s.beginOp p
  | .bread p b => { s.load b with holder := update s.holder b (some p) }
  | .modify p b d => s.modify p b d
  | .logWrite p b => s.logWrite g p b
  | .brelse _ b => { s with holder := update s.holder b none }
  | .evict b => { s with cache := update s.cache b none }
  | .endOp p => s.endOp p
  | .commit => s.commit g
  | .recover => s.recover g
  | .crash => s.crash

def Step (g : Geometry) (s t : State ι) : Prop := ∃ e, Enabled g s e ∧ t = next g s e

-- The first boot, from a disk whose log is empty.
def Start (d : Disk) (s : State ι) : Prop :=
  s = {
    disk := d
    cache := fun _ => none
    holder := fun _ => none
    pins := fun _ => 0
    lh := []
    outstanding := 0
    committing := false
    pc := .readHead
    op := fun _ => none
    nextOp := 0
    issued := []
    current := []
    groups := [] }

def afterUpdates (d : Disk) (us : List Update) : Disk :=
  Lib.replay d (us.map fun u => (u.block, u.data))

def updatesOf (o : Nat) (us : List Update) : List Update := us.filter fun u => u.op = o

end Xv6.Log
