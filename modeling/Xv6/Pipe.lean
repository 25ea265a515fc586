import Xv6.Loops

namespace Xv6.Pipe

open Lib Function

-- kernel/pipe.c: any number of processes in pipewrite(), piperead() and pipeclose() of one
-- pipe. A step is one statement that tests or changes the pipe under pi->lock, a wakeup(), a
-- sleep(), or one that takes or gives back the lock; kill() comes at any time.

inductive Chan where
  | nread
  | nwrite
  deriving DecidableEq

def empty (pi : Pipe) : Prop := pi.nread = pi.nwrite
def full (pi : Pipe) : Prop := pi.nwrite = wrapU32 (pi.nread + PIPESIZE)

instance decidableEmpty (pi : Pipe) : Decidable pi.empty := inferInstanceAs (Decidable (_ = _))
instance decidableFull (pi : Pipe) : Decidable pi.full := inferInstanceAs (Decidable (_ = _))

-- pi->data[pi->nwrite++ % PIPESIZE] = ch
def put (pi : Pipe) (ch : Byte) : Pipe :=
  { pi with
    data := update pi.data (Fin.ofNat PIPESIZE pi.nwrite) ch
    nwrite := wrapU32 (pi.nwrite + 1) }

-- pi->data[pi->nread++ % PIPESIZE]
def next (pi : Pipe) : Byte := pi.data (Fin.ofNat PIPESIZE pi.nread)
def drop (pi : Pipe) : Pipe := { pi with nread := wrapU32 (pi.nread + 1) }

def close (pi : Pipe) (writable : Bool) : Pipe :=
  if writable then { pi with writeopen := false } else { pi with readopen := false }

-- Where a process is. In pipewrite(): at acquire, at the test of the loop, at sleep() and in it, at
-- the wakeup() behind the loop, at the last release. In piperead(): the same, and in
-- the for loop with the bytes that it has copied. In pipeclose(): at acquire, at the store, at
-- the wakeup(), at the last test.
inductive Pc where
  | out
  | writeCall (n : Int)
  | write (i : Nat) (n : Int)
  | writeFull (i : Nat) (n : Int)
  | writeSleep (i : Nat) (n : Int)
  | writeEnd (i : Nat)
  | writeExit (r : Int)
  | readCall (n : Int)
  | read (n : Int)
  | readSleep (n : Int)
  | copy (bytes : List Byte) (n : Int)
  | readEnd (bytes : List Byte) (n : Int)
  | readExit (r : Int) (bytes : List Byte) (n : Int)
  | closeCall (writable : Bool)
  | closeStore (writable : Bool)
  | closeWake (writable : Bool)
  | closeEnd
  deriving DecidableEq

inductive Call where
  | pipewrite (n : Int)
  | piperead (n : Int)
  | pipeclose (writable : Bool)
  deriving DecidableEq

def Call.pc : Call → Pc
  | .pipewrite n => .writeCall n
  | .piperead n => .readCall n
  | .pipeclose w => .closeCall w

-- `stored` and `taken` are the history: the bytes that pipewrite() has stored and
-- those that piperead() has copied to its callers, in that order.
structure State (ι : Type) where
  pipe : Pipe
  freed : Bool
  lock : Option ι
  tasks : ι → Task Chan
  pc : ι → Pc
  stored : List Byte
  taken : List Byte

-- A step of a process comes with what copyin() would give, or copyout() return: none is a failure.
inductive Event (ι : Type) where
  | call (p : ι) (c : Call)
  | step (p : ι) (copy : Option Byte)
  | kill (p : ι)
  deriving DecidableEq

variable {ι : Type} [DecidableEq ι]

def State.goto (s : State ι) (p : ι) (pc : Pc) : State ι := { s with pc := update s.pc p pc }

def State.wakeup (s : State ι) (p : ι) (c : Chan) : State ι := { s with tasks := Xv6.wakeup s.tasks p c }

def State.acquire (s : State ι) (p : ι) : State ι := { s with lock := some p }

def State.release (s : State ι) : State ι := { s with lock := none }

-- sleep(c, &pi->lock), which releases the lock, and its end, which takes it again.
def State.sleep (s : State ι) (p : ι) (c : Chan) : State ι :=
  { s with tasks := Xv6.sleep s.tasks p c, lock := none }

def State.awaken (s : State ι) (p : ι) : State ι :=
  { s with tasks := Xv6.awaken s.tasks p, lock := some p }

def State.step (s : State ι) (p : ι) (copy : Option Byte) : State ι :=
  match s.pc p with
  | .out => s
  | .writeCall n => (s.acquire p).goto p (.write 0 n)
  | .write i n =>
    if (i : Int) < n then
      if s.pipe.readopen = false ∨ (s.tasks p).killed = true then s.goto p (.writeExit (-1))
      else if s.pipe.full then (s.wakeup p .nread).goto p (.writeFull i n)
      else
        match copy with
        | none => s.goto p (.writeEnd i)
        | some ch => { s with pipe := s.pipe.put ch, stored := s.stored ++ [ch] }.goto p (.write (i + 1) n)
    else s.goto p (.writeEnd i)
  | .writeFull i n => (s.sleep p .nwrite).goto p (.writeSleep i n)
  | .writeSleep i n => (s.awaken p).goto p (.write i n)
  | .writeEnd i => (s.wakeup p .nread).goto p (.writeExit i)
  | .writeExit _ => s.release.goto p .out
  | .readCall n => (s.acquire p).goto p (.read n)
  | .read n =>
    if s.pipe.empty ∧ s.pipe.writeopen = true then
      if (s.tasks p).killed = true then s.goto p (.readExit (-1) [] n)
      else (s.sleep p .nread).goto p (.readSleep n)
    else s.goto p (.copy [] n)
  | .readSleep n => (s.awaken p).goto p (.read n)
  | .copy bytes n =>
    if (bytes.length : Int) < n then
      if s.pipe.empty then s.goto p (.readEnd bytes n)
      else
        match copy with
        | none => { s with pipe := s.pipe.drop }.goto p (.readEnd bytes n)
        | some _ =>
          { s with pipe := s.pipe.drop, taken := s.taken ++ [s.pipe.next] }.goto p
            (.copy (bytes ++ [s.pipe.next]) n)
    else s.goto p (.readEnd bytes n)
  | .readEnd bytes n => (s.wakeup p .nwrite).goto p (.readExit bytes.length bytes n)
  | .readExit _ _ _ => s.release.goto p .out
  | .closeCall w => (s.acquire p).goto p (.closeStore w)
  | .closeStore w => { s with pipe := s.pipe.close w }.goto p (.closeWake w)
  | .closeWake w => (s.wakeup p (if w then .nread else .nwrite)).goto p .closeEnd
  | .closeEnd =>
    if s.pipe.readopen = false ∧ s.pipe.writeopen = false then { s.release with freed := true }.goto p .out
    else s.release.goto p .out

def State.next (s : State ι) : Event ι → State ι
  | .call p c => s.goto p c.pc
  | .step p copy => s.step p copy
  | .kill p => { s with tasks := Xv6.kill s.tasks p }

-- pi->lock is held from the first acquire on, except in sleep().
def Pc.locked : Pc → Bool
  | .out | .writeCall _ | .writeSleep _ _ | .readCall _ | .readSleep _ | .closeCall _ => false
  | _ => true

-- An acquire waits for the lock, and sleep() for a wakeup() or kill() too.
def State.ready (s : State ι) (p : ι) : Prop :=
  s.pc p ≠ .out ∧ ((s.pc p).locked = false → s.lock = none) ∧ (s.tasks p).state ≠ .SLEEPING

instance State.decidableReady (s : State ι) (p : ι) : Decidable (s.ready p) := inferInstanceAs (Decidable (_ ∧ _ ∧ _))

-- The pipe is used while its page is not free.
def Event.enabled (s : State ι) : Event ι → Prop
  | .call p _ => s.freed = false ∧ s.pc p = .out
  | .step p _ => s.freed = false ∧ s.ready p
  | .kill _ => True

instance Event.decidableEnabled (s : State ι) : ∀ e : Event ι, Decidable (e.enabled s)
  | .call _ _ | .step _ _ => inferInstanceAs (Decidable (_ ∧ _))
  | .kill _ => inferInstanceAs (Decidable True)

-- What pipealloc() leaves. No process waits for the pipe yet.
def Start (s : State ι) : Prop :=
  s.pipe.nread = 0 ∧ s.pipe.nwrite = 0 ∧ s.pipe.readopen = true ∧ s.pipe.writeopen = true ∧ s.freed = false ∧
  s.lock = none ∧ (∀ p, s.pc p = .out ∧ (s.tasks p).state ≠ .SLEEPING) ∧ s.stored = [] ∧ s.taken = []

def Step (allowed : State ι → Event ι → Prop) (s t : State ι) : Prop :=
  ∃ e : Event ι, e.enabled s ∧ allowed s e ∧ t = s.next e

variable {s : State ι} {p q : ι} {copy : Option Byte}

def LockOk (s : State ι) : Prop := ∀ p, s.lock = some p ↔ (s.pc p).locked = true

@[simp] theorem goto_self (s : State ι) (p : ι) (pc : Pc) : (s.goto p pc).pc p = pc := update_self ..

theorem goto_of_ne (h : q ≠ p) (s : State ι) (pc : Pc) : (s.goto p pc).pc q = s.pc q :=
  update_of_ne h ..

theorem step_pc_of_ne (h : q ≠ p) : (s.step p copy).pc q = s.pc q := by
  unfold State.step
  split
  all_goals repeat' split
  all_goals first | rfl | exact goto_of_ne h ..

theorem step_unlocked (h : (s.pc p).locked = false) (copy : Option Byte) :
    (s.step p copy).pipe = s.pipe ∧ (s.step p copy).stored = s.stored ∧ (s.step p copy).taken = s.taken := by
  cases hpc : s.pc p with
  | out => simp [State.step, hpc]
  | writeCall n | writeSleep i n | readCall n | readSleep n | closeCall w =>
    simp [State.step, hpc, State.goto, State.acquire, State.awaken]
  | write i n | writeFull i n | writeEnd i | writeExit r | read n | copy bytes n | readEnd bytes n
  | readExit r bytes n | closeStore w | closeWake w | closeEnd => simp [hpc, Pc.locked] at h

theorem step_lock (hok : LockOk s) (hready : s.ready p) (copy : Option Byte) :
    (s.lock = none ∨ s.lock = some p) ∧
    (s.step p copy).lock = if ((s.step p copy).pc p).locked = true then some p else none := by
  have hp := hok p
  cases hpc : s.pc p with
  | out => exact absurd hpc hready.1
  | writeCall n | readCall n | closeCall w =>
    refine ⟨.inl (hready.2.1 (by rw [hpc]; rfl)), ?_⟩
    simp [State.step, hpc, State.acquire, State.goto, Pc.locked]
  | writeSleep i n | readSleep n =>
    refine ⟨.inl (hready.2.1 (by rw [hpc]; rfl)), ?_⟩
    simp [State.step, hpc, State.awaken, State.goto, Pc.locked]
  | write i n | writeFull i n | writeEnd i | writeExit r | read n | copy bytes n | readEnd bytes n
  | readExit r bytes n | closeStore w | closeWake w | closeEnd =>
    simp only [hpc, Pc.locked, iff_true] at hp
    refine ⟨.inr hp, ?_⟩
    simp only [State.step, hpc]
    repeat' split
    all_goals simp_all [State.goto, State.wakeup, State.sleep, State.release, Pc.locked]

theorem LockOk.next (h : LockOk s) (he : e.enabled s) : LockOk (s.next e) := by
  intro q
  cases e with
  | kill p => exact h q
  | call p c =>
    by_cases hq : q = p
    · subst hq
      have hout : (s.pc q).locked = false := by rw [he.2]; rfl
      have hnot : s.lock ≠ some q := by
        rw [ne_eq, h q, hout]
        exact Bool.false_ne_true
      cases c <;> simpa [State.next, State.goto, Call.pc, Pc.locked] using hnot
    · simpa [State.next, State.goto, update_of_ne hq] using h q
  | step p copy =>
    obtain ⟨hold, hnew⟩ := step_lock h he.2 copy
    rw [State.next, hnew]
    by_cases hq : q = p
    · subst hq
      split
      next hl => simp [hl]
      next hl => simp [hl]
    · have hfree : (s.pc q).locked = false := by
        by_contra hl
        have hlock := (h q).mpr (by simpa using hl)
        rcases hold with hold | hold
        · simp [hold] at hlock
        · exact hq (Option.some.inj (hlock.symm.trans hold))
      rw [step_pc_of_ne hq, hfree]
      split <;> simp [Ne.symm hq]

theorem lockOk_reach (h : Reach Start (Step allowed) s) : LockOk s := by
  refine h.invariant (I := LockOk) (fun s hs p => ?_) fun s t _ hi hs => ?_
  · obtain ⟨-, -, -, -, -, hlock, hp, -⟩ := hs
    simp [hlock, (hp p).1, Pc.locked]
  · obtain ⟨e, he, -, rfl⟩ := hs
    exact hi.next he

def samplePipe : State (Fin 2) where
  pipe := { data := fun _ => 0, nread := 0, nwrite := 0, readopen := true, writeopen := true }
  freed := false
  lock := none
  tasks := fun _ => { state := .RUNNABLE, chan := none, killed := false }
  pc := fun _ => .out
  stored := []
  taken := []

theorem samplePipe_start : Start samplePipe := by
  simp [Start, samplePipe]

end Xv6.Pipe
