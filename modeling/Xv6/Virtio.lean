import Xv6.Disk
import Xv6.Lib.Reach
import Mathlib.Data.List.FinRange

namespace Xv6.Virtio

open Lib Function

-- kernel/virtio_disk.c and kernel/virtio.h: the driver of the disk and its device.
abbrev NUM : Nat := 8
abbrev VRING_DESC_F_NEXT : Nat := 1
abbrev VRING_DESC_F_WRITE : Nat := 2
abbrev VIRTIO_BLK_T_IN : Nat := 0
abbrev VIRTIO_BLK_T_OUT : Nat := 1

-- What a descriptor can point to. β are the buffers.
inductive Addr (β : Type) where
  | null
  | ops (i : Fin NUM)
  | data (b : β)
  | status (i : Fin NUM)
  deriving DecidableEq

structure Desc (β : Type) where
  addr : Addr β
  len : Nat
  flags : Nat
  next : Nat
  deriving DecidableEq

structure BlkReq where
  type : Nat
  reserved : Nat
  sector : Nat
  deriving DecidableEq

structure Info (β : Type) where
  b : Option β
  status : Nat
  deriving DecidableEq

-- struct disk, with the queue memory it points to. avail->idx, used->idx and used_idx are
-- uint16s.
structure Disk (β : Type) where
  desc : Fin NUM → Desc β
  availRing : Fin NUM → Nat
  availIdx : Nat
  usedRing : Fin NUM → Nat
  usedIdx : Nat
  free : Fin NUM → Bool
  used_idx : Nat
  info : Fin NUM → Info β
  ops : Fin NUM → BlkReq

structure Chain where
  head : Fin NUM
  data : Fin NUM
  status : Fin NUM
  deriving DecidableEq

def Chain.Has (c : Chain) (i : Fin NUM) : Prop := i = c.head ∨ i = c.data ∨ i = c.status

inductive Chan (β : Type) where
  | free
  | buf (b : β)
  deriving DecidableEq

inductive Panic where
  | freeDesc1  -- "free_desc 1"
  | freeDesc2  -- "free_desc 2"
  | status     -- "virtio_disk_intr status"
  | fault      -- no panic() of its own: the use of a null pointer or of a bad index
  deriving DecidableEq

-- Where a process is in virtio_disk_rw() or virtio_disk_intr(). From wait on, n is the
-- number of the call's request.
inductive Pc (β : Type) where
  | out
  | call (b : β) (write : Bool)
  | alloc (b : β) (write : Bool)
  | allocSleep (b : β) (write : Bool)
  | format (b : β) (write : Bool) (c : Chain)
  | ring (b : β) (write : Bool) (c : Chain)
  | idx (b : β) (write : Bool) (c : Chain)
  | wait (b : β) (write : Bool) (c : Chain) (n : Nat)
  | waitSleep (b : β) (write : Bool) (c : Chain) (n : Nat)
  | free (b : β) (write : Bool) (c : Chain) (n : Nat)
  | rwEnd (b : β) (n : Nat)
  | intrCall
  | intrTest
  | intrBody
  deriving DecidableEq

-- A request as its caller made it, and what the device finds in the descriptors.
structure Request (ι β : Type) where
  caller : ι
  buf : β
  write : Bool
  chain : Chain

structure Op (β : Type) where
  buf : β
  write : Bool
  sector : Nat
  deriving DecidableEq

-- A request that the device has taken; n is its number.
structure Pending where
  n : Nat
  head : Nat
  performed : Bool
  deriving DecidableEq

-- lastAvail and pending belong to the device. The last fields are the history: the requests
-- in the order of the avail ring, how many of them the device has taken, what it has
-- performed, the order of the used ring, and the completions that virtio_disk_intr() has
-- passed on to a buffer.
structure State (ι β : Type) where
  disk : Disk β
  busy : β → Bool
  lock : Option ι
  tasks : ι → Task (Chan β)
  pc : ι → Pc β
  lastAvail : Nat
  pending : List Pending
  issued : List (Request ι β)
  taken : Nat
  performed : List (Nat × Op β)
  published : List Nat
  finished : List (Nat × β)

section Driver

variable {ι β : Type} [DecidableEq ι] [DecidableEq β]

def slot (i : Nat) : Fin NUM := Fin.ofNat NUM i

def State.goto (s : State ι β) (p : ι) (pc : Pc β) : State ι β := { s with pc := update s.pc p pc }

def State.wakeup (s : State ι β) (p : ι) (c : Chan β) : State ι β := { s with tasks := Xv6.wakeup s.tasks p c }

def State.sleep (s : State ι β) (p : ι) (c : Chan β) : State ι β :=
  { s with tasks := Xv6.sleep s.tasks p c, lock := none }

def State.awaken (s : State ι β) (p : ι) : State ι β := { s with tasks := Xv6.awaken s.tasks p, lock := some p }

def allocDesc (free : Fin NUM → Bool) : Option (Fin NUM) := (List.finRange NUM).find? free

def State.take (s : State ι β) (i : Fin NUM) : State ι β :=
  { s with disk := { s.disk with free := update s.disk.free i false } }

-- The stores of free_desc(), and its wakeup().
def State.putBack (s : State ι β) (p : ι) (i : Fin NUM) : State ι β :=
  { s with
    disk := { s.disk with
      desc := update s.disk.desc i { addr := .null, len := 0, flags := 0, next := 0 }
      free := update s.disk.free i true }
    tasks := Xv6.wakeup s.tasks p .free }

def freeDesc (p : ι) (i : Nat) (s : State ι β) : Except Panic (State ι β) :=
  if h : i < NUM then
    if s.disk.free ⟨i, h⟩ then .error .freeDesc2 else .ok (s.putBack p ⟨i, h⟩)
  else .error .freeDesc1

-- The loop cannot free more than NUM descriptors without finding one that is free.
def freeChain (p : ι) : Nat → Nat → State ι β → Except Panic (State ι β)
  | 0, _, _ => .error .freeDesc2
  | fuel + 1, i, s =>
    if h : i < NUM then do
      let flag := (s.disk.desc ⟨i, h⟩).flags
      let nxt := (s.disk.desc ⟨i, h⟩).next
      let s ← freeDesc p i s
      if flag % 2 = VRING_DESC_F_NEXT then freeChain p fuel nxt s else .ok s
    else .error .freeDesc1

-- The loop of alloc3_desc(), whose three turns are written out.
def alloc3Desc (p : ι) (s : State ι β) : Except Panic (Option Chain × State ι β) :=
  match allocDesc s.disk.free with
  | none => .ok (none, s)
  | some i0 =>
    let s := s.take i0
    match allocDesc s.disk.free with
    | none => do
        let s ← freeDesc p i0 s
        return (none, s)
    | some i1 =>
      let s := s.take i1
      match allocDesc s.disk.free with
      | none => do
          let s ← freeDesc p i0 s
          let s ← freeDesc p i1 s
          return (none, s)
      | some i2 => .ok (some { head := i0, data := i1, status := i2 }, s.take i2)

variable (blockno : β → Nat)

-- `b->blockno * (BSIZE / 512)`
def sector (b : β) : Nat := blockno b * (Fs.BSIZE / 512) % 2 ^ 32

def Disk.format (d : Disk β) (b : β) (write : Bool) (c : Chain) : Disk β :=
  { d with
    ops := update d.ops c.head
      { type := if write then VIRTIO_BLK_T_OUT else VIRTIO_BLK_T_IN, reserved := 0, sector := sector blockno b }
    desc := update (update (update d.desc c.head
      { addr := .ops c.head, len := 16, flags := VRING_DESC_F_NEXT, next := c.data }) c.data
      { addr := .data b, len := Fs.BSIZE, flags := (if write then 0 else VRING_DESC_F_WRITE) + VRING_DESC_F_NEXT
        next := c.status }) c.status
      { addr := .status c.head, len := 1, flags := VRING_DESC_F_WRITE, next := 0 }
    info := update d.info c.head { b := some b, status := 0xff } }

def State.step (s : State ι β) (p : ι) : Except Panic (State ι β) :=
  match s.pc p with
  | .out => .ok s
  | .call b write => .ok ({ s with lock := some p }.goto p (.alloc b write))
  | .alloc b write => do
      let (r, s) ← alloc3Desc p s
      match r with
      | some c => return s.goto p (.format b write c)
      | none => return (s.sleep p .free).goto p (.allocSleep b write)
  | .allocSleep b write => .ok ((s.awaken p).goto p (.alloc b write))
  | .format b write c =>
    .ok ({ s with disk := s.disk.format blockno b write c, busy := update s.busy b true }.goto p
      (.ring b write c))
  | .ring b write c =>
    .ok ({ s with
      disk := { s.disk with
        availRing := update s.disk.availRing (slot s.disk.availIdx) c.head } }.goto p (.idx b write c))
  | .idx b write c =>
    .ok ({ s with
      disk := { s.disk with availIdx := (s.disk.availIdx + 1) % 2 ^ 16 }
      issued := s.issued ++ [Request.mk p b write c] }.goto p
        (.wait b write c s.issued.length))
  | .wait b write c n =>
    if s.busy b then .ok ((s.sleep p (.buf b)).goto p (.waitSleep b write c n))
    else .ok (s.goto p (.free b write c n))
  | .waitSleep b write c n => .ok ((s.awaken p).goto p (.wait b write c n))
  | .free b _ c n => do
      let s := { s with disk := { s.disk with
        info := update s.disk.info c.head { s.disk.info c.head with b := none } } }
      let s ← freeChain p (NUM + 1) c.head s
      return s.goto p (.rwEnd b n)
  | .rwEnd _ _ => .ok ({ s with lock := none }.goto p .out)
  | .intrCall => .ok ({ s with lock := some p }.goto p .intrTest)
  | .intrTest =>
    if s.disk.used_idx ≠ s.disk.usedIdx then .ok (s.goto p .intrBody)
    else .ok ({ s with lock := none }.goto p .out)
  | .intrBody =>
    let id := s.disk.usedRing (slot s.disk.used_idx)
    if h : id < NUM then
      if (s.disk.info ⟨id, h⟩).status = 0 then
        match (s.disk.info ⟨id, h⟩).b with
        | none => .error .fault
        | some b =>
          .ok ({ s with
            disk := { s.disk with used_idx := (s.disk.used_idx + 1) % 2 ^ 16 }
            busy := update s.busy b false
            tasks := Xv6.wakeup s.tasks p (.buf b)
            finished := s.finished ++ [(s.published.getD s.finished.length 0, b)] }.goto p .intrTest)
      else .error .status
    else .error .fault

-- The request that a chain of descriptors describes, and where its status goes.
def Disk.request (d : Disk β) (head : Nat) : Option (Op β × Fin NUM) :=
  if h : head < NUM then
    let d0 := d.desc ⟨head, h⟩
    if h1 : d0.next < NUM then
      let d1 := d.desc ⟨d0.next, h1⟩
      if h2 : d1.next < NUM then
        let d2 := d.desc ⟨d1.next, h2⟩
        match d0.addr, d1.addr, d2.addr with
        | .ops i, .data b, .status j =>
          if d0.len = 16 ∧ d0.flags = VRING_DESC_F_NEXT ∧ d1.len = Fs.BSIZE ∧ d1.flags % 2 = VRING_DESC_F_NEXT ∧
            d2.len = 1 ∧ d2.flags = VRING_DESC_F_WRITE then
            some ({ buf := b, write := d1.flags / 2 = 0 ∧ (d.ops i).type = VIRTIO_BLK_T_OUT, sector := (d.ops i).sector }, j)
          else none
        | _, _, _ => none
      else none
    else none
  else none

inductive Event (ι β : Type) where
  | call (p : ι) (b : β) (write : Bool)
  | intr (p : ι)
  | step (p : ι)
  | kill (p : ι)
  | take
  | perform (k : Nat)
  | publish (k : Nat)
  deriving DecidableEq

def State.deviceTake (s : State ι β) : State ι β :=
  { s with
    lastAvail := (s.lastAvail + 1) % 2 ^ 16
    taken := s.taken + 1
    pending := s.pending ++ [{ n := s.taken, head := s.disk.availRing (slot s.lastAvail), performed := false }] }

-- The device does what the descriptors say, and writes the status.
def State.devicePerform (s : State ι β) (k : Nat) : State ι β :=
  match s.pending[k]? with
  | none => s
  | some e =>
    match s.disk.request e.head with
    | none => s
    | some (op, j) =>
      { s with
        disk := { s.disk with info := update s.disk.info j { s.disk.info j with status := 0 } }
        pending := s.pending.set k { e with performed := true }
        performed := s.performed ++ [(e.n, op)] }

def State.devicePublish (s : State ι β) (k : Nat) : State ι β :=
  match s.pending[k]? with
  | none => s
  | some e =>
    { s with
      disk := { s.disk with
        usedRing := update s.disk.usedRing (slot s.disk.usedIdx) e.head
        usedIdx := (s.disk.usedIdx + 1) % 2 ^ 16 }
      pending := s.pending.eraseIdx k
      published := s.published ++ [e.n] }

def State.next (s : State ι β) : Event ι β → Except Panic (State ι β)
  | .call p b write => .ok (s.goto p (.call b write))
  | .intr p => .ok (s.goto p .intrCall)
  | .step p => s.step blockno p
  | .kill p => .ok { s with tasks := Xv6.kill s.tasks p }
  | .take => .ok s.deviceTake
  | .perform k => .ok (s.devicePerform k)
  | .publish k => .ok (s.devicePublish k)

def Pc.locked : Pc β → Bool
  | .out | .call _ _ | .allocSleep _ _ | .waitSleep _ _ _ _ | .intrCall => false
  | _ => true

-- The buffer of a call, and its descriptors.
def Pc.buf : Pc β → Option β
  | .call b _ | .alloc b _ | .allocSleep b _ | .format b _ _ | .ring b _ _ | .idx b _ _ | .wait b _ _ _
  | .waitSleep b _ _ _ | .free b _ _ _ | .rwEnd b _ => some b
  | _ => none

def Pc.chain : Pc β → Option Chain
  | .format _ _ c | .ring _ _ c | .idx _ _ c | .wait _ _ c _ | .waitSleep _ _ c _ | .free _ _ c _ => some c
  | _ => none

def State.ready (s : State ι β) (p : ι) : Prop :=
  s.pc p ≠ .out ∧ ((s.pc p).locked = false → s.lock = none) ∧ (s.tasks p).state ≠ .SLEEPING

-- virtio_disk_rw() is called with the buffer locked. The device takes what is new in the
-- avail ring, performs what it has taken and publishes what it has performed.
def Event.enabled (s : State ι β) : Event ι β → Prop
  | .call p b _ => s.pc p = .out ∧ ∀ q, (s.pc q).buf ≠ some b
  | .intr p => s.pc p = .out
  | .step p => s.ready p
  | .kill _ => True
  | .take => s.lastAvail ≠ s.disk.availIdx
  | .perform k => ∃ e, s.pending[k]? = some e ∧ e.performed = false
  | .publish k => ∃ e, s.pending[k]? = some e ∧ e.performed = true

def Start (s : State ι β) : Prop :=
  (∀ i, s.disk.free i = true) ∧ s.disk.availIdx = 0 ∧ s.disk.usedIdx = 0 ∧ s.disk.used_idx = 0 ∧ s.lastAvail = 0 ∧
  s.lock = none ∧ (∀ p, s.pc p = .out ∧ (s.tasks p).state ≠ .SLEEPING) ∧ s.pending = [] ∧ s.issued = [] ∧ s.taken = 0 ∧
  s.performed = [] ∧ s.published = [] ∧ s.finished = []

def Step (s t : State ι β) : Prop := ∃ e : Event ι β, e.enabled s ∧ s.next blockno e = .ok t

end Driver

end Xv6.Virtio
