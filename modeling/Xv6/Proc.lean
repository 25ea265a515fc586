import Xv6.Vm
import Xv6.Sleep

namespace Xv6

open Lib Function

-- What a process sleeps on: wait() on its own struct proc, everything else on
-- some other address.
inductive Chan where
  | proc (p : Fin NPROC)
  | other (addr : Nat)
  deriving DecidableEq

-- The fields of struct proc that concern its memory and its family; state, chan
-- and killed are its Task.
structure Proc where
  pid : Int
  parent : Option (Fin NPROC)
  xstate : Int
  sz : Nat
  pagetable : Nat
  trapframe : Nat
  deriving DecidableEq

-- struct shm of kernel/shm.c.
structure Shm where
  shared_page : Nat
  allocated : Bool

structure Kernel where
  phys : Phys
  tasks : Fin NPROC → Task Chan
  procs : Fin NPROC → Proc
  nextpid : Int
  initproc : Option (Fin NPROC)
  shm : Shm

def Kernel.setProc (k : Kernel) (p : Fin NPROC) (proc : Proc) : Kernel :=
  { k with procs := update k.procs p proc }

def Kernel.setTask (k : Kernel) (p : Fin NPROC) (task : Task Chan) : Kernel :=
  { k with tasks := update k.tasks p task }

@[simp] theorem Kernel.setProc_self (k : Kernel) (p : Fin NPROC) (proc : Proc) :
    (k.setProc p proc).procs p = proc := update_self ..

theorem Kernel.setProc_of_ne (k : Kernel) (proc : Proc) (h : q ≠ p) :
    (k.setProc p proc).procs q = k.procs q := update_of_ne h ..

-- myproc()'s sz and pagetable, for vmfault().
def Kernel.self (k : Kernel) (p : Fin NPROC) : Self :=
  { sz := (k.procs p).sz, pagetable := (k.procs p).pagetable }

def procPagetable (L : Layout) (trapframe : Nat) (s : Phys) : Except Panic (Nat × Phys) := do
  let (pagetable, s) ← uvmcreate s
  if pagetable = 0 then return (0, s) else do
    let (r, s) ← mappages pagetable TRAMPOLINE PGSIZE L.trampoline (PTE_R ||| PTE_X) s
    if r < 0 then do
      let s ← uvmfree L pagetable 0 s
      return (0, s)
    else do
      let (r, s) ← mappages pagetable TRAPFRAME PGSIZE trapframe (PTE_R ||| PTE_W) s
      if r < 0 then do
        let s ← uvmunmap L pagetable TRAMPOLINE 1 false s
        let s ← uvmfree L pagetable 0 s
        return (0, s)
      else return (pagetable, s)

def procFreepagetable (L : Layout) (pagetable sz : Nat) (s : Phys) : Except Panic Phys := do
  let s ← uvmunmap L pagetable TRAMPOLINE 1 false s
  let s ← uvmunmap L pagetable TRAPFRAME 1 false s
  uvmfree L pagetable sz s

-- The memory that freeproc() gives back.
def freeprocMem (L : Layout) (proc : Proc) (s : Phys) : Except Panic Phys := do
  let s ← if proc.trapframe ≠ 0 then kfree L proc.trapframe s else .ok s
  if proc.pagetable ≠ 0 then procFreepagetable L proc.pagetable proc.sz s else .ok s

def freeproc (L : Layout) (p : Fin NPROC) (k : Kernel) : Except Panic Kernel := do
  let s ← freeprocMem L (k.procs p) k.phys
  return {
    k with
    phys := s
    procs := update k.procs p
      { pid := 0, parent := none, xstate := 0, sz := 0, pagetable := 0, trapframe := 0 }
    tasks := update k.tasks p { state := .UNUSED, chan := none, killed := false } }

-- From the label `found:` on. allocpid() hands out nextpid, an int.
def allocprocAt (L : Layout) (p : Fin NPROC) (k : Kernel) :
    Except Panic (Option (Fin NPROC) × Kernel) := do
  let proc := { k.procs p with pid := k.nextpid }
  let k := { k with
    nextpid := wrap32 (k.nextpid + 1)
    tasks := update k.tasks p { k.tasks p with state := .USED } }
  let (trapframe, s) ← kalloc k.phys
  let proc := { proc with trapframe := trapframe }
  if trapframe = 0 then do
    let k ← freeproc L p { k.setProc p proc with phys := s }
    return (none, k)
  else do
    let (pagetable, s) ← procPagetable L trapframe s
    let k := { k.setProc p { proc with pagetable := pagetable } with phys := s }
    if pagetable = 0 then do
      let k ← freeproc L p k
      return (none, k)
    else return (some p, k)

def allocproc (L : Layout) (k : Kernel) : Except Panic (Option (Fin NPROC) × Kernel) :=
  match (List.finRange NPROC).find? fun p => (k.tasks p).state = .UNUSED with
  | none => .ok (none, k)
  | some p => allocprocAt L p k

-- userinit() uses the result of allocproc() without a test.
def userinit (L : Layout) (k : Kernel) : Except Panic Kernel := do
  let (p, k) ← allocproc L k
  match p with
  | none => .error .kerneltrap
  | some p => return { k.setTask p { k.tasks p with state := .RUNNABLE } with initproc := some p }

-- sizeof(struct trapframe) in words, and the index of a register's word.
def TRAPFRAME_WORDS : Nat := 36
def TF_EPC : Fin 512 := 3
def TF_SP : Fin 512 := 6
def TF_A0 : Fin 512 := 14
def TF_A1 : Fin 512 := 15

-- *dst = *src for two trapframes.
def Phys.copyFrame (s : Phys) (dst src : Nat) : Phys :=
  { s with mem := update s.mem dst fun i =>
      if i.val < TRAPFRAME_WORDS then s.mem src i else s.mem dst i }

def fork (L : Layout) (p : Fin NPROC) (k : Kernel) : Except Panic (Int × Kernel) := do
  let (np, k) ← allocproc L k
  match np with
  | none => return (-1, k)
  | some np => do
      let (r, s) ← uvmcopy L (k.procs p).pagetable (k.procs np).pagetable (k.procs p).sz k.phys
      if r < 0 then do
        let k ← freeproc L np { k with phys := s }
        return (-1, k)
      else
        let child := k.procs np
        let s := (s.copyFrame child.trapframe (k.procs p).trapframe).store child.trapframe TF_A0 0#64
        return (child.pid, {
          k with
          phys := s
          procs := update k.procs np { child with sz := (k.procs p).sz, parent := some p }
          tasks := update k.tasks np { k.tasks np with state := .RUNNABLE } })

-- wakeup() on a struct proc; a null pointer is nobody's channel.
def wakeupProc (tasks : Fin NPROC → Task Chan) (me : Fin NPROC) (p : Option (Fin NPROC)) :
    Fin NPROC → Task Chan :=
  match p with
  | none => tasks
  | some p => wakeup tasks me (.proc p)

def reparentOne (p : Fin NPROC) (k : Kernel) (pp : Fin NPROC) : Kernel :=
  if (k.procs pp).parent = some p then
    { k.setProc pp { k.procs pp with parent := k.initproc } with
      tasks := wakeupProc k.tasks p k.initproc }
  else k

def reparent (p : Fin NPROC) (k : Kernel) : Kernel :=
  (List.finRange NPROC).foldl (reparentOne p) k

def exit (p : Fin NPROC) (status : Int) (k : Kernel) : Except Panic Kernel :=
  if some p = k.initproc then .error .initExiting
  else
    let k := reparent p k
    let tasks := wakeupProc k.tasks p (k.procs p).parent
    .ok { k.setProc p { k.procs p with xstate := status } with
      tasks := update tasks p { tasks p with state := .ZOMBIE } }

def intBytes (n : Int) : List Byte :=
  (List.range 4).map fun i => byteOf (BitVec.ofInt 64 n) i

-- wait() hands the status over if it was given an address.
def copyStatus (L : Layout) (p : Fin NPROC) (addr : Nat) (xstate : Int) (k : Kernel) :
    Except Panic (Int × Phys) :=
  if addr = 0 then .ok (0, k.phys)
  else copyout L (k.self p) (k.procs p).pagetable addr (intBytes xstate) k.phys

-- The child that wait() finds to have exited.
def zombieChild (k : Kernel) (p : Fin NPROC) : Option (Fin NPROC) :=
  (List.finRange NPROC).find? fun pp =>
    (k.procs pp).parent = some p ∧ (k.tasks pp).state = .ZOMBIE

-- One turn of the loop in wait(), up to its return or to its sleep (none).
def wait (L : Layout) (p : Fin NPROC) (addr : Nat) (k : Kernel) :
    Except Panic (Option Int × Kernel) :=
  match zombieChild k p with
  | some pp => do
      let child := k.procs pp
      let (r, s) ← copyStatus L p addr child.xstate k
      if r < 0 then return (some (-1), { k with phys := s })
      else do
        let k ← freeproc L pp { k with phys := s }
        return (some child.pid, k)
  | none =>
    if (∀ pp, (k.procs pp).parent ≠ some p) ∨ (k.tasks p).killed then .ok (some (-1), k)
    else .ok (none, { k with tasks := sleep k.tasks p (.proc p) })

def toU64 (n : Int) : Nat := (n % 2 ^ 64).toNat

def shrinkproc (L : Layout) (p : Fin NPROC) (n : Int) (k : Kernel) : Except Panic (Int × Kernel) :=
  let proc := k.procs p
  if proc.sz < toU64 n then .ok (-1, k) else do
    let (sz, s) ← uvmdealloc L proc.pagetable proc.sz (proc.sz - toU64 n) k.phys
    return (0, { k.setProc p { proc with sz := sz } with phys := s })

-- sys_sbrk(); -n is computed as an int.
def sbrk (L : Layout) (p : Fin NPROC) (n : Int) (k : Kernel) : Except Panic (Int × Kernel) :=
  let proc := k.procs p
  if n < 0 then do
    let (r, k) ← shrinkproc L p (wrap32 (-n)) k
    if r < 0 then return (-1, k) else return ((proc.sz : Int), k)
  else .ok ((proc.sz : Int), k.setProc p { proc with sz := wrap64 (proc.sz + n.toNat) })

-- The first half of shm_get(), under the lock. False if kalloc() failed.
def shmAlloc (k : Kernel) : Except Panic (Bool × Kernel) :=
  if k.shm.allocated then .ok (true, k) else do
    let (page, s) ← kalloc k.phys
    if page = 0 then
      return (false, { k with phys := s, shm := { k.shm with shared_page := 0 } })
    else
      return (true, { k with phys := s.memset page 0, shm := { shared_page := page, allocated := true } })

def SHM_VA : Nat := 0x40000000

def shmGet (p : Fin NPROC) (k : Kernel) : Except Panic (Nat × Kernel) := do
  let (ok, k) ← shmAlloc k
  if ok = false then return (0, k) else do
    let (r, s) ← mappages (k.procs p).pagetable SHM_VA PGSIZE k.shm.shared_page (PTE_W ||| PTE_U) k.phys
    if r < 0 then return (0, { k with phys := s }) else return (SHM_VA, { k with phys := s })

-- usertrap() on a load or store page fault at va.
def pageFault (L : Layout) (p : Fin NPROC) (va : Nat) (k : Kernel) : Except Panic Kernel := do
  let (pa, s) ← vmfault L (k.self p) (k.procs p).pagetable va k.phys
  let killed := (k.tasks p).killed || pa = 0
  let k := { k.setTask p { k.tasks p with killed := killed } with phys := s }
  if killed then exit p (-1) k else return k

end Xv6
