import Xv6.Params
import Xv6.Lib.Except
import Xv6.Lib.Reach
import Xv6.Lib.Ring
import Mathlib.Data.Fintype.Card

namespace Xv6.Bio

open Lib Function

-- kernel/bio.c: the buffer cache, with the processes that are inside of it. Each
-- section that holds bcache.lock is one step, and so is a move of a sleep-lock.

-- kernel/param.h.
def NBUF : Nat := MAXOPBLOCKS * 3

theorem NBUF_pos : 0 < NBUF := by decide

inductive BioPanic where
  | noBuffers  -- "bget: no buffers"
  | bwrite
  | brelse
  deriving DecidableEq, Repr

-- struct buf without its links. lock is the process that holds the sleep-lock; refcnt,
-- a uint, counts from 0 without a limit.
structure Buf (ι α : Type) where
  valid : Bool
  dev : Nat
  blockno : Nat
  lock : Option ι
  refcnt : Nat
  data : α

structure Cache (ι α : Type) where
  buf : Fin NBUF → Buf ι α
  links : Links (Fin NBUF)

variable {ι α : Type}

namespace Cache

def set (c : Cache ι α) (b : Fin NBUF) (x : Buf ι α) : Cache ι α := { c with buf := update c.buf b x }

-- The two loops of bget(). Each visits at most NBUF buffers before it is back at the head.
def cached (dev blockno : Nat) (c : Cache ι α) : Option (Fin NBUF) :=
  scan c.links.next (fun b => (c.buf b).dev = dev ∧ (c.buf b).blockno = blockno) (NBUF + 1) (c.links.next none)

def unused (c : Cache ι α) : Option (Fin NBUF) :=
  scan c.links.prev (fun b => (c.buf b).refcnt = 0) (NBUF + 1) (c.links.prev none)

-- bget() up to acquiresleep().
def bget (dev blockno : Nat) (c : Cache ι α) : Except BioPanic (Fin NBUF × Cache ι α) :=
  match c.cached dev blockno with
  | some b => .ok (b, c.set b { c.buf b with refcnt := (c.buf b).refcnt + 1 })
  | none =>
    -- Not cached.
    match c.unused with
    | some b => .ok (b, c.set b { c.buf b with dev := dev, blockno := blockno, valid := false, refcnt := 1 })
    | none => .error .noBuffers

-- brelse() after releasesleep().
def brelse (b : Fin NBUF) (c : Cache ι α) : Cache ι α :=
  let c := c.set b { c.buf b with refcnt := (c.buf b).refcnt - 1 }
  if (c.buf b).refcnt = 0 then { c with links := (c.links.unlink b).pushFront b } else c

def bpin (b : Fin NBUF) (c : Cache ι α) : Cache ι α := c.set b { c.buf b with refcnt := (c.buf b).refcnt + 1 }

def bunpin (b : Fin NBUF) (c : Cache ι α) : Cache ι α := c.set b { c.buf b with refcnt := (c.buf b).refcnt - 1 }

end Cache

-- The links that binit() makes; bcache.head.next->prev is head.prev at first.
def binit : Links (Fin NBUF) :=
  (List.finRange NBUF).foldl Links.pushFront { next := fun _ => none, prev := fun _ => none }

-- Where a process is in bio.c: in acquiresleep() of bget(), behind bget() in bread(), or
-- behind releasesleep() in brelse().
inductive Call where
  | out
  | waits (b : Fin NBUF)
  | fills (b : Fin NBUF)
  | drops (b : Fin NBUF)
  deriving DecidableEq, Repr

-- virtio_disk_rw() addresses the one disk by blockno. The last three fields are history:
-- the bpin()s that still miss their bunpin(), the brelse()s so far that dropped a refcnt to
-- 0, and the number of the last one on each buffer, or 0.
structure State (ι α : Type) where
  cache : Cache ι α
  disk : Nat → α
  call : ι → Call
  pins : Fin NBUF → Nat
  clock : Nat
  released : Fin NBUF → Nat

inductive Event (ι α : Type) where
  | bget (p : ι) (dev blockno : Nat)
  | lock (p : ι)
  | fill (p : ι)
  | modify (p : ι) (b : Fin NBUF) (v : α)
  | bwrite (p : ι) (b : Fin NBUF)
  | release (p : ι) (b : Fin NBUF)
  | brelse (p : ι)
  | bpin (b : Fin NBUF)
  | bunpin (b : Fin NBUF)

-- b->data is only written by the process that has b locked.
def Event.enabled (s : State ι α) : Event ι α → Prop
  | .bget p _ _ => s.call p = .out
  | .lock p => ∃ b, s.call p = .waits b ∧ (s.cache.buf b).lock = none
  | .fill p => ∃ b, s.call p = .fills b
  | .modify p b _ => s.call p = .out ∧ (s.cache.buf b).lock = some p
  | .bwrite p _ => s.call p = .out
  | .release p _ => s.call p = .out
  | .brelse p => ∃ b, s.call p = .drops b
  | .bpin _ => True
  | .bunpin _ => True

variable [DecidableEq ι]

instance Event.decidableEnabled (s : State ι α) : ∀ e : Event ι α, Decidable (e.enabled s)
  | .bget p _ _ | .bwrite p _ | .release p _ => inferInstanceAs (Decidable (s.call p = .out))
  | .lock p => inferInstanceAs (Decidable (∃ b, s.call p = .waits b ∧ (s.cache.buf b).lock = none))
  | .fill p => inferInstanceAs (Decidable (∃ b, s.call p = .fills b))
  | .modify _ _ _ => inferInstanceAs (Decidable (_ ∧ _))
  | .brelse p => inferInstanceAs (Decidable (∃ b, s.call p = .drops b))
  | .bpin _ | .bunpin _ => inferInstanceAs (Decidable True)

namespace State

def goto (s : State ι α) (p : ι) (c : Call) : State ι α := { s with call := update s.call p c }

def setBuf (s : State ι α) (b : Fin NBUF) (x : Buf ι α) : State ι α := { s with cache := s.cache.set b x }

def bget (s : State ι α) (p : ι) (dev blockno : Nat) : Except BioPanic (State ι α) := do
  let (b, c) ← s.cache.bget dev blockno
  return { s.goto p (.waits b) with cache := c }

def lock (s : State ι α) (p : ι) (b : Fin NBUF) : State ι α :=
  (s.goto p (.fills b)).setBuf b { s.cache.buf b with lock := some p }

def fill (s : State ι α) (p : ι) (b : Fin NBUF) : State ι α :=
  if (s.cache.buf b).valid then s.goto p .out
  else (s.goto p .out).setBuf b { s.cache.buf b with data := s.disk (s.cache.buf b).blockno, valid := true }

def modify (s : State ι α) (b : Fin NBUF) (v : α) : State ι α := s.setBuf b { s.cache.buf b with data := v }

def bwrite (s : State ι α) (p : ι) (b : Fin NBUF) : Except BioPanic (State ι α) :=
  if (s.cache.buf b).lock = some p then
    .ok { s with disk := update s.disk (s.cache.buf b).blockno (s.cache.buf b).data }
  else .error .bwrite

def release (s : State ι α) (p : ι) (b : Fin NBUF) : Except BioPanic (State ι α) :=
  if (s.cache.buf b).lock = some p then
    .ok ((s.goto p (.drops b)).setBuf b { s.cache.buf b with lock := none })
  else .error .brelse

def brelse (s : State ι α) (p : ι) (b : Fin NBUF) : State ι α :=
  let c := s.cache.brelse b
  if (c.buf b).refcnt = 0 then
    { s.goto p .out with
      cache := c
      clock := s.clock + 1
      released := update s.released b (s.clock + 1) }
  else { s.goto p .out with cache := c }

def bpin (s : State ι α) (b : Fin NBUF) : State ι α :=
  { s with
    cache := s.cache.bpin b
    pins := update s.pins b (s.pins b + 1) }

def bunpin (s : State ι α) (b : Fin NBUF) : State ι α :=
  { s with
    cache := s.cache.bunpin b
    pins := update s.pins b (s.pins b - 1) }

end State

def next (s : State ι α) : Event ι α → Except BioPanic (State ι α)
  | .bget p dev blockno => s.bget p dev blockno
  | .lock p =>
    match s.call p with
    | .waits b => .ok (s.lock p b)
    | _ => .ok s
  | .fill p =>
    match s.call p with
    | .fills b => .ok (s.fill p b)
    | _ => .ok s
  | .modify _ b v => .ok (s.modify b v)
  | .bwrite p b => s.bwrite p b
  | .release p b => s.release p b
  | .brelse p =>
    match s.call p with
    | .drops b => .ok (s.brelse p b)
    | _ => .ok s
  | .bpin b => .ok (s.bpin b)
  | .bunpin b => .ok (s.bunpin b)

-- After binit(): the buffers are as .bss has them.
def Start (s : State ι α) : Prop :=
  s.cache.links = binit ∧
  (∀ b, (s.cache.buf b).valid = false ∧ (s.cache.buf b).dev = 0 ∧ (s.cache.buf b).blockno = 0 ∧
    (s.cache.buf b).lock = none ∧ (s.cache.buf b).refcnt = 0) ∧
  (∀ p, s.call p = .out) ∧ (∀ b, s.pins b = 0) ∧ s.clock = 0 ∧ ∀ b, s.released b = 0

-- A panic is no step: the kernel has stopped.
def Step (allowed : State ι α → Event ι α → Prop) (s t : State ι α) : Prop :=
  ∃ e : Event ι α, e.enabled s ∧ allowed s e ∧ next s e = .ok t

-- A bunpin() follows the bpin() that it undoes.
def Matched (s : State ι α) : Event ι α → Prop
  | .bunpin b => 0 < s.pins b
  | _ => True

instance Matched.decidable (s : State ι α) : ∀ e : Event ι α, Decidable (Matched s e)
  | .bunpin b => inferInstanceAs (Decidable (0 < s.pins b))
  | .bget _ _ _ | .lock _ | .fill _ | .modify _ _ _ | .bwrite _ _ | .release _ _ | .brelse _ | .bpin _ =>
    inferInstanceAs (Decidable True)

end Xv6.Bio
