import Xv6.User

namespace Xv6

open Lib

-- The functions that write page-table entries, one call at a time and with any
-- arguments. Besides the page tables of the processes there are those that
-- proc_pagetable() has made and no process has yet, as in exec().
structure Spaces where
  kernel : Kernel
  tables : List Nat

def Spaces.Table (c : Spaces) (r : Nat) : Prop :=
  (∃ p, c.kernel.Live p ∧ r = (c.kernel.procs p).pagetable) ∨ r ∈ c.tables

instance (c : Spaces) (r : Nat) : Decidable (c.Table r) := inferInstanceAs (Decidable (_ ∨ _))

-- uvmalloc() has the flags of a program header; vmfault() runs in a process with
-- page table `own` and size `sz`, on the page table r.
inductive TableOp where
  | allocproc
  | procPagetable (trapframe : Nat)
  | uvmalloc (r oldsz newsz flags : Nat)
  | uvmcopy (old new sz : Nat)
  | uvmclear (r va : Nat)
  | vmfault (own sz r va : Nat)
  | shmGet (p : Fin NPROC)

def TableOp.enabled (c : Spaces) : TableOp → Prop
  | .allocproc | .procPagetable _ => True
  | .uvmalloc r _ _ _ => c.Table r
  | .uvmcopy old new _ => c.Table old ∧ c.Table new
  | .uvmclear r _ => c.Table r
  | .vmfault own _ r _ => c.Table own ∧ c.Table r
  | .shmGet p => c.kernel.Live p

instance TableOp.decidableEnabled (c : Spaces) : ∀ op : TableOp, Decidable (op.enabled c)
  | .allocproc | .procPagetable _ => inferInstanceAs (Decidable True)
  | .uvmalloc _ _ _ _ | .uvmclear _ _ => inferInstanceAs (Decidable (c.Table _))
  | .uvmcopy _ _ _ | .vmfault _ _ _ _ => inferInstanceAs (Decidable (_ ∧ _))
  | .shmGet _ => inferInstanceAs (Decidable (c.kernel.Live _))

def Spaces.withPhys (c : Spaces) (s : Phys) : Spaces := { c with kernel := { c.kernel with phys := s } }

def TableOp.next (L : Layout) (c : Spaces) : TableOp → Except Panic Spaces
  | .allocproc => do
      let (_, k) ← Xv6.allocproc L c.kernel
      return { c with kernel := k }
  | .procPagetable trapframe => do
      let (r, s) ← Xv6.procPagetable L trapframe c.kernel.phys
      return { c.withPhys s with tables := if r = 0 then c.tables else r :: c.tables }
  | .uvmalloc r oldsz newsz flags => do
      let (_, s) ← Xv6.uvmalloc L r oldsz newsz (flags2perm flags) c.kernel.phys
      return c.withPhys s
  | .uvmcopy old new sz => do
      let (_, s) ← Xv6.uvmcopy L old new sz c.kernel.phys
      return c.withPhys s
  | .uvmclear r va => do
      let s ← Xv6.uvmclear r va c.kernel.phys
      return c.withPhys s
  | .vmfault own sz r va => do
      let (_, s) ← Xv6.vmfault L { sz := sz, pagetable := own } r va c.kernel.phys
      return c.withPhys s
  | .shmGet p => do
      let (_, k) ← Xv6.shmGet p c.kernel
      return { c with kernel := k }

def Spaces.Boot (L : Layout) (used : List Nat) (c : Spaces) : Prop :=
  ∃ s, Booted L s used ∧ c = { kernel := bootKernel s, tables := [] }

def Spaces.Step (L : Layout) (allowed : Spaces → TableOp → Prop) (c c' : Spaces) : Prop :=
  ∃ op : TableOp, op.enabled c ∧ allowed c op ∧ op.next L c = .ok c'

-- What the RISC-V manual and freewalk() ask of a leaf.
def LegalPte (pte : Pte) : Prop :=
  (hasFlag pte PTE_W → hasFlag pte PTE_R) ∧ (hasFlag pte PTE_R ∨ hasFlag pte PTE_W ∨ hasFlag pte PTE_X) ∧
    ¬innerPte pte

instance (pte : Pte) : Decidable (LegalPte pte) := inferInstanceAs (Decidable (_ ∧ _ ∧ _))

def Spaces.Legal (c : Spaces) : Prop :=
  ∀ r va pte, c.Table r → va < 2 ^ 39 → leafPte c.kernel.phys.mem 2 r va = some pte → LegalPte pte

-- The pages of the trampoline and of the trapframe.
def HighPage (va : Nat) : Prop := va / PGSIZE = TRAMPOLINE / PGSIZE ∨ va / PGSIZE = TRAPFRAME / PGSIZE

-- Entries without PTE_U come from uvmclear(), or are copies of such entries.
def KernelOnly (c : Spaces) (op : TableOp) (c' : Spaces) : Prop :=
  ∀ r va pte, c'.Table r → va < 2 ^ 39 → ¬HighPage va →
    leafPte c'.kernel.phys.mem 2 r va = some pte → ¬hasFlag pte PTE_U →
    (c.Table r ∧ leafPte c.kernel.phys.mem 2 r va = some pte) ∨
    (∃ va', op = .uvmclear r va' ∧ va / PGSIZE = va' / PGSIZE) ∨
    ∃ old sz pte', op = .uvmcopy old r sz ∧ leafPte c.kernel.phys.mem 2 old va = some pte' ∧
      ¬hasFlag pte' PTE_U

-- No call of shm_get() returns an address.
def Unmapping (c : Spaces) : TableOp → Prop
  | .shmGet p => granted c.kernel p = false
  | _ => True

end Xv6
