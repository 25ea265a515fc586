import Xv6.Slots
import Xv6.Proc.Invariant

namespace Xv6

open Lib Function

variable {L : Layout} {k k' : Kernel} {p q : Fin NPROC}

-- What freeproc() leaves of a slot.
def Cleared (k : Kernel) (q : Fin NPROC) : Prop :=
  k.tasks q = { state := .UNUSED, chan := none, killed := false } ∧
  k.procs q = { pid := 0, parent := none, xstate := 0, sz := 0, pagetable := 0, trapframe := 0 }

def SameSlot (k k' : Kernel) (q : Fin NPROC) : Prop := k'.tasks q = k.tasks q ∧ k'.procs q = k.procs q

-- What each call does to the process table, whatever becomes of the memory: it clears a
-- slot, makes a process of one, or rewrites the caller's.
def Kernel.freed (k : Kernel) (p : Fin NPROC) (s : Phys) : Kernel :=
  { k with
    phys := s
    procs := update k.procs p
      { pid := 0, parent := none, xstate := 0, sz := 0, pagetable := 0, trapframe := 0 }
    tasks := update k.tasks p { state := .UNUSED, chan := none, killed := false } }

def Kernel.taken (k : Kernel) (p : Fin NPROC) (s : Phys) (state : ProcState) (proc : Proc) : Kernel :=
  { k with
    phys := s
    nextpid := wrap32 (k.nextpid + 1)
    procs := update k.procs p proc
    tasks := update k.tasks p { k.tasks p with state := state } }

theorem Kernel.cleared_freed (k : Kernel) (p : Fin NPROC) (s : Phys) : Cleared (k.freed p s) p :=
  ⟨update_self .., update_self ..⟩

theorem Kernel.freed_of_ne (k : Kernel) (s : Phys) (h : q ≠ p) : SameSlot k (k.freed p s) q :=
  ⟨update_of_ne h .., update_of_ne h ..⟩

theorem Kernel.taken_of_ne (k : Kernel) (s : Phys) (state : ProcState) (proc : Proc) (h : q ≠ p) :
    SameSlot k (k.taken p s state proc) q :=
  ⟨update_of_ne h .., update_of_ne h ..⟩

theorem freeproc_effect (h : freeproc L p k = .ok k') : ∃ s, k' = k.freed p s := by
  obtain ⟨s, -, hs⟩ := bind_return_eq_ok.mp h
  exact ⟨s, hs.symm⟩

-- allocpid() is called as soon as there is a slot, whatever comes of it.
theorem allocprocAt_effect (h : allocprocAt L p k = .ok (np, k')) :
    (np = none ∧ ∃ s, k' = { k.freed p s with nextpid := wrap32 (k.nextpid + 1) }) ∨
    (np = some p ∧ ∃ s proc, proc.pid = k.nextpid ∧ k' = k.taken p s .USED proc) := by
  simp only [allocprocAt] at h
  obtain ⟨⟨trapframe, s⟩, -, h⟩ := bind_eq_ok.mp h
  split at h
  · obtain ⟨j, hj, h⟩ := bind_eq_ok.mp h
    rw [return_pair_eq_ok] at h
    obtain ⟨t, rfl⟩ := freeproc_effect hj
    exact .inl ⟨h.1.symm, t, by simp [← h.2, Kernel.freed, Kernel.setProc]⟩
  · obtain ⟨⟨pagetable, s'⟩, -, h⟩ := bind_eq_ok.mp h
    simp only at h
    split at h
    · obtain ⟨j, hj, h⟩ := bind_eq_ok.mp h
      rw [return_pair_eq_ok] at h
      obtain ⟨t, rfl⟩ := freeproc_effect hj
      exact .inl ⟨h.1.symm, t, by simp [← h.2, Kernel.freed, Kernel.setProc]⟩
    · rw [return_pair_eq_ok] at h
      exact .inr ⟨h.1.symm, s', { k.procs p with pid := k.nextpid, trapframe := trapframe, pagetable := pagetable },
        rfl, h.2.symm⟩

theorem allocproc_eq (L : Layout) (k : Kernel) : allocproc L k =
    match unusedSlot k with
    | none => .ok (none, k)
    | some p => allocprocAt L p k := rfl

theorem unusedSlot_spec (h : unusedSlot k = some p) : (k.tasks p).state = .UNUSED := by
  have hfound := List.find?_some h
  simpa using hfound

theorem fork_effect (h : fork L p k = .ok (r, k')) :
    (unusedSlot k = none ∧ r = -1 ∧ k' = k) ∨
    ∃ np, unusedSlot k = some np ∧
      ((r = -1 ∧ ∃ s, k' = { k.freed np s with nextpid := wrap32 (k.nextpid + 1) }) ∨
      (r = k.nextpid ∧ ∃ s proc, proc.pid = k.nextpid ∧ proc.parent = some p ∧ k' = k.taken np s .RUNNABLE proc)) := by
  obtain ⟨⟨np, j⟩, halloc, h⟩ := bind_eq_ok.mp h
  rw [allocproc_eq] at halloc
  cases hslot : unusedSlot k with
  | none =>
    simp only [hslot] at halloc
    cases halloc
    rw [return_pair_eq_ok] at h
    exact .inl ⟨rfl, h.1.symm, h.2.symm⟩
  | some slot =>
    simp only [hslot] at halloc
    refine .inr ⟨slot, rfl, ?_⟩
    rcases allocprocAt_effect halloc with ⟨rfl, s, rfl⟩ | ⟨rfl, s, proc, hpid, rfl⟩
    · rw [return_pair_eq_ok] at h
      exact .inl ⟨h.1.symm, s, h.2.symm⟩
    · obtain ⟨⟨r', t⟩, -, h⟩ := bind_eq_ok.mp h
      simp only at h
      split at h
      · obtain ⟨i, hi, h⟩ := bind_eq_ok.mp h
        rw [return_pair_eq_ok] at h
        obtain ⟨t', rfl⟩ := freeproc_effect hi
        exact .inl ⟨h.1.symm, t', by simp [← h.2, Kernel.freed, Kernel.taken]⟩
      · rw [return_pair_eq_ok] at h
        simp only [Kernel.taken, update_idem, update_self] at h
        exact .inr ⟨h.1.symm.trans hpid, _, { proc with sz := _, parent := some p }, hpid, rfl, h.2.symm⟩

theorem userinit_effect (h : userinit L k = .ok k') : ∃ np s proc, unusedSlot k = some np ∧
    proc.pid = k.nextpid ∧ k' = { k.taken np s .RUNNABLE proc with initproc := some np } := by
  rw [userinit, allocproc_eq] at h
  obtain ⟨⟨np, j⟩, halloc, h⟩ := bind_eq_ok.mp h
  cases hslot : unusedSlot k with
  | none =>
    simp only [hslot] at halloc
    cases halloc
    simp at h
  | some slot =>
    simp only [hslot] at halloc
    rcases allocprocAt_effect halloc with ⟨rfl, -⟩ | ⟨rfl, s, proc, hpid, rfl⟩
    · simp at h
    · rw [return_eq_ok] at h
      exact ⟨slot, s, proc, rfl, hpid, by simp [← h, Kernel.taken, Kernel.setTask]⟩

theorem Kernel.setProc_eta (k : Kernel) (p : Fin NPROC) : k.setProc p (k.procs p) = k := by
  rw [Kernel.setProc, update_eq_self]

theorem exec_effect (h : exec L p file argv k = .ok (r, k')) :
    ∃ s proc, proc.pid = (k.procs p).pid ∧ k' = { k.setProc p proc with phys := s } := by
  have hsame : ∀ s, ∃ t proc, proc.pid = (k.procs p).pid ∧
      { k with phys := s } = { k.setProc p proc with phys := t } :=
    fun s => ⟨s, k.procs p, rfl, by rw [k.setProc_eta]⟩
  simp only [exec] at h
  split at h
  · cases h
    exact hsame k.phys
  · split at h
    · cases h
      exact hsame k.phys
    · obtain ⟨⟨pagetable, s⟩, -, h⟩ := bind_eq_ok.mp h
      simp only at h
      split at h
      · cases h
        exact hsame s
      · obtain ⟨⟨sp, sz, s'⟩, -, h⟩ := bind_eq_ok.mp h
        cases sp with
        | none =>
          obtain ⟨t, -, h⟩ := bind_eq_ok.mp h
          cases h
          exact hsame t
        | some sp =>
          obtain ⟨t, -, h⟩ := bind_eq_ok.mp h
          cases h
          exact ⟨t, { k.procs p with pagetable := pagetable, sz := sz }, rfl, rfl⟩

theorem wait_effect (h : wait L p addr k = .ok (r, k')) :
    (∃ pp s, (k.tasks pp).state = .ZOMBIE ∧ k' = k.freed pp s) ∨ (∃ s, k' = { k with phys := s }) ∨
    ((k.tasks p).killed = false ∧ k' = { k with tasks := sleep k.tasks p (.proc p) }) := by
  simp only [wait] at h
  split at h
  next pp hz =>
    have hfound := List.find?_some hz
    simp only [decide_eq_true_eq] at hfound
    obtain ⟨⟨r', s⟩, -, h⟩ := bind_eq_ok.mp h
    simp only at h
    split at h
    · cases h
      exact .inr (.inl ⟨s, rfl⟩)
    · obtain ⟨j, hfree, h⟩ := bind_eq_ok.mp h
      cases h
      obtain ⟨t, rfl⟩ := freeproc_effect hfree
      exact .inl ⟨pp, t, hfound.2, rfl⟩
  next =>
    split at h
    · cases h
      exact .inr (.inl ⟨k.phys, rfl⟩)
    next hc =>
      cases h
      exact .inr (.inr ⟨by simpa using (not_or.mp hc).2, rfl⟩)

theorem sbrk_effect (h : sbrk L p n k = .ok (r, k')) :
    ∃ s proc, proc.pid = (k.procs p).pid ∧ k' = { k.setProc p proc with phys := s } := by
  simp only [sbrk] at h
  split at h
  · obtain ⟨⟨r', j⟩, hj, h⟩ := bind_eq_ok.mp h
    have hjk : j = k' := by
      simp only at h
      split at h <;> exact (return_pair_eq_ok.mp h).2
    subst hjk
    simp only [shrinkproc] at hj
    split at hj
    · cases hj
      exact ⟨k.phys, k.procs p, rfl, by rw [k.setProc_eta]⟩
    · obtain ⟨⟨sz, s⟩, -, hj⟩ := bind_eq_ok.mp hj
      cases hj
      exact ⟨s, { k.procs p with sz := sz }, rfl, rfl⟩
  · cases h
    exact ⟨k.phys, { k.procs p with sz := wrap64 ((k.procs p).sz + n.toNat) }, rfl, rfl⟩

theorem shmGet_effect (h : shmGet p k = .ok (a, k')) : ∃ s shm, k' = { k with phys := s, shm := shm } := by
  obtain ⟨⟨found, j⟩, hj, h⟩ := bind_eq_ok.mp h
  have hjk : ∃ s shm, j = { k with phys := s, shm := shm } := by
    simp only [shmAlloc] at hj
    split at hj
    · cases hj
      exact ⟨k.phys, k.shm, rfl⟩
    · obtain ⟨⟨page, s⟩, -, hj⟩ := bind_eq_ok.mp hj
      simp only at hj
      split at hj <;>
      · cases hj
        exact ⟨_, _, rfl⟩
  obtain ⟨s, shm, rfl⟩ := hjk
  simp only at h
  split at h
  · cases h
    exact ⟨s, shm, rfl⟩
  · obtain ⟨⟨r, t⟩, -, h⟩ := bind_eq_ok.mp h
    simp only at h
    split at h <;>
    · cases h
      exact ⟨t, shm, rfl⟩

end Xv6
