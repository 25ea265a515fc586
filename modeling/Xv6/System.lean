import Xv6.Exec
import Xv6.Lib.Reach

namespace Xv6

open Lib

-- The memory when main() comes to userinit(): after kinit() the kernel has taken
-- pages for its own page table, the kernel stacks and the disk driver, and has
-- written to them.
inductive Booted (L : Layout) : Phys → List Nat → Prop
  | kinit {mem : Nat → Fin 512 → BitVec 64} {s : Phys} (h : kinit L mem = .ok s) : Booted L s []
  | kalloc {s t : Phys} {used : List Nat} {a : Nat} (h : Booted L s used) (hk : kalloc s = .ok (a, t))
      (ha : a ≠ 0) : Booted L t (a :: used)
  | store {s : Phys} {used : List Nat} {a : Nat} (h : Booted L s used) (ha : a ∈ used) (i : Fin 512)
      (w : BitVec 64) : Booted L (s.store a i w) used

-- The process table and shared_mem as they lie in .bss, after procinit() and shm_init().
def bootKernel (s : Phys) : Kernel where
  phys := s
  tasks := fun _ => { state := .UNUSED, chan := none, killed := false }
  procs := fun _ => { pid := 0, parent := none, xstate := 0, sz := 0, pagetable := 0, trapframe := 0 }
  nextpid := 1
  initproc := none
  shm := { shared_page := 0, allocated := false }

-- The state in which the first process is ready, with the pages that the kernel uses itself.
def Start (L : Layout) (used : List Nat) (k : Kernel) : Prop :=
  ∃ s, Booted L s used ∧ userinit L (bootKernel s) = .ok k

-- What a process can ask of the kernel, as far as memory is concerned. fault is a
-- load or store that traps; copyin and copyout stand for the system calls that
-- take a user address.
inductive Call where
  | sbrk (n : Int)
  | fork
  | exec (file : Option (List Byte)) (args : Args)
  | exit (status : Int)
  | wait (addr : Nat)
  | shmGet
  | fault (va : Nat)
  | copyin (srcva len : Nat)
  | copyout (dstva : Nat) (src : List Byte)

-- argint() makes an int of the first register.
def Call.run (L : Layout) (p : Fin NPROC) : Call → Kernel → Except Panic Kernel
  | .sbrk n, k => do
      let (_, k) ← Xv6.sbrk L p (wrap32 n) k
      return k
  | .fork, k => do
      let (_, k) ← Xv6.fork L p k
      return k
  | .exec file args, k => do
      let (_, k) ← Xv6.exec L p file args.strings k
      return k
  | .exit status, k => Xv6.exit p status k
  | .wait addr, k => do
      let (_, k) ← Xv6.wait L p addr k
      return k
  | .shmGet, k => do
      let (_, k) ← Xv6.shmGet p k
      return k
  | .fault va, k => pageFault L p va k
  | .copyin srcva len, k => do
      let (_, _, s) ← Xv6.copyin L (k.self p) (k.procs p).pagetable srcva len k.phys
      return { k with phys := s }
  | .copyout dstva src, k => do
      let (_, s) ← Xv6.copyout L (k.self p) (k.procs p).pagetable dstva src k.phys
      return { k with phys := s }

-- The calls, each one step, and the scheduler.
inductive Event where
  | call (p : Fin NPROC) (c : Call)
  | schedule (p : Fin NPROC)
  | yield (p : Fin NPROC)

def Event.enabled (k : Kernel) : Event → Prop
  | .call p _ => (k.tasks p).state = .RUNNING
  | .schedule p => (k.tasks p).state = .RUNNABLE
  | .yield p => (k.tasks p).state = .RUNNING

instance Event.decidableEnabled (k : Kernel) : ∀ e : Event, Decidable (e.enabled k)
  | .call p _ => inferInstanceAs (Decidable ((k.tasks p).state = .RUNNING))
  | .schedule p => inferInstanceAs (Decidable ((k.tasks p).state = .RUNNABLE))
  | .yield p => inferInstanceAs (Decidable ((k.tasks p).state = .RUNNING))

def Event.next (L : Layout) (k : Kernel) : Event → Except Panic Kernel
  | .call p c => c.run L p k
  | .schedule p => .ok { k with tasks := setState k.tasks p .RUNNING }
  | .yield p => .ok { k with tasks := setState k.tasks p .RUNNABLE }

-- Steps by events that `allowed` admits. A panic is no step: the kernel has stopped.
def Step (L : Layout) (allowed : Kernel → Event → Prop) (k k' : Kernel) : Prop :=
  ∃ e : Event, e.enabled k ∧ allowed k e ∧ e.next L k = .ok k'

end Xv6
