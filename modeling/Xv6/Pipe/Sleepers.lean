import Xv6.Pipe

set_option linter.unusedSectionVars false

namespace Xv6.Pipe

open Lib

variable {ι : Type} [DecidableEq ι]

-- The wakeup() of a channel that a process with the lock is going to call. A pipewrite()
-- calls it unless it leaves its loop because of killed or readopen.
def Tells (pi : Pipe) (killed : Bool) : Chan → Pc → Prop
  | .nread, .write i n => (i : Int) < n → pi.readopen = true ∧ killed = false
  | .nread, .writeEnd _ => True
  | .nwrite, .copy _ _ | .nwrite, .readEnd _ _ => True
  | _, _ => False

def Closes : Chan → Pc → Prop
  | .nread, .closeWake true | .nwrite, .closeWake false => True
  | _, _ => False

-- What a process waits for on a channel, and which end of the pipe has to be open then.
def awaited (pi : Pipe) : Chan → Prop
  | .nread => pi.empty
  | .nwrite => pi.full

def isOpen (pi : Pipe) : Chan → Bool
  | .nread => pi.writeopen
  | .nwrite => pi.readopen

def Reason (s : State ι) (c : Chan) : Prop :=
  (awaited s.pipe c ∨ ∃ q, s.lock = some q ∧ Tells s.pipe (s.tasks q).killed c (s.pc q)) ∧
  (isOpen s.pipe c = true ∨ ∃ q, s.lock = some q ∧ Closes c (s.pc q))

def Pc.sleeps : Pc → Bool
  | .writeSleep _ _ | .readSleep _ => true
  | _ => false

structure Sleepers (s : State ι) : Prop where
  asleep : ∀ p, (s.tasks p).state = .SLEEPING → (s.pc p).sleeps = true
  reason : Justified s.tasks (Reason s)
  filled : ∀ p i n, s.pc p = .writeFull i n → s.pipe.full ∧ s.pipe.readopen = true

-- No kill() hits a pipewrite() in the middle of a transfer while a process sleeps that has
-- not been told of the bytes.
def Careful (s : State ι) : Event ι → Prop
  | .kill q => ∀ i n, s.pc q = .write i n → (i : Int) < n → ∀ p, SleepsOn s.tasks p .nread → s.pipe.empty
  | _ => True

variable {s : State ι} {p q : ι}

-- What the sleepers on a channel go by while a process at pc has the lock.
def Owed (pi : Pipe) (killed : Bool) (pc : Pc) (c : Chan) : Prop :=
  (awaited pi c ∨ Tells pi killed c pc) ∧ (isOpen pi c = true ∨ Closes c pc)

-- The process calls no wakeup() before it lets go of the lock.
def Silent (pi : Pipe) (killed : Bool) (pc : Pc) : Prop := ∀ c, ¬Tells pi killed c pc ∧ ¬Closes c pc

theorem Owed.of_silent (h : Owed pi killed pc c) (hs : Silent pi killed pc) : awaited pi c ∧ isOpen pi c = true :=
  ⟨h.1.resolve_right (hs c).1, h.2.resolve_right (hs c).2⟩

theorem Owed.keep (h : Owed pi killed pc c) (ht : Tells pi killed c pc → awaited pi c ∨ Tells pi killed c pc')
    (hc : ¬Closes c pc) : Owed pi killed pc' c :=
  ⟨h.1.elim .inl ht, .inl (h.2.resolve_right hc)⟩

theorem reason_of_lock (hl : s.lock = some p) (c : Chan) : Reason s c ↔ Owed s.pipe (s.tasks p).killed (s.pc p) c := by
  simp [Reason, Owed, hl]

theorem reason_of_free (hl : s.lock = none) (c : Chan) : Reason s c ↔ awaited s.pipe c ∧ isOpen s.pipe c = true := by
  simp [Reason, hl]

theorem state_wakeup {tasks : ι → Task Chan} {c : Chan} (h : (Xv6.wakeup tasks p c q).state = .SLEEPING) :
    (tasks q).state = .SLEEPING := by
  unfold Xv6.wakeup at h
  split at h
  · simp at h
  · exact h

theorem state_awaken : (Xv6.awaken tasks p q).state = (tasks q).state := by
  by_cases hq : q = p
  · subst hq
    simp [Xv6.awaken]
  · simp [Xv6.awaken, hq]

section

variable (h : Sleepers s) (hok : LockOk s)
include h hok

theorem Sleepers.of (hl : s.lock = none ∨ s.lock = some p) (hpc : ∀ q, q ≠ p → t.pc q = s.pc q)
    (htasks : ∀ q, q ≠ p → (t.tasks q).state = .SLEEPING → (s.tasks q).state = .SLEEPING)
    (hself : (t.tasks p).state = .SLEEPING → (t.pc p).sleeps = true)
    (hfilled : ∀ i n, t.pc p = .writeFull i n → t.pipe.full ∧ t.pipe.readopen = true)
    (hreason : Justified t.tasks (Reason t)) : Sleepers t := by
  refine ⟨fun q hq => ?_, hreason, fun q i n hq => ?_⟩
  · by_cases hqp : q = p
    · subst hqp
      exact hself hq
    · rw [hpc q hqp]
      exact h.asleep q (htasks q hqp hq)
  · by_cases hqp : q = p
    · subst hqp
      exact hfilled i n hq
    · rw [hpc q hqp] at hq
      have hlq := (hok q).mpr (by rw [hq]; rfl)
      rcases hl with hl | hl
      · simp [hl] at hlq
      · exact absurd (Option.some.inj (hlq.symm.trans hl)) hqp

theorem Sleepers.take (hl : s.lock = none) (hrun : (s.tasks p).state ≠ .SLEEPING)
    (htasks : ∀ q, (tasks q).state = (s.tasks q).state) (hsleeps : ∀ q c, SleepsOn tasks q c → SleepsOn s.tasks q c) (hpc : ∀ i n, pc ≠ .writeFull i n) :
    Sleepers ({ s with lock := some p, tasks := tasks }.goto p pc) := by
  refine h.of hok (.inl hl) (fun q hq => goto_of_ne hq ..) (fun q _ hq => (htasks q).symm.trans hq)
    (fun hp => absurd ((htasks p).symm.trans hp) hrun) (fun i n hp => absurd (by rwa [goto_self] at hp) (hpc i n))
    fun q c hs => ?_
  obtain ⟨h1, h2⟩ := (reason_of_free hl c).mp (h.reason q c (hsleeps q c hs))
  exact ⟨.inl h1, .inl h2⟩

section

variable (hpc : s.pc p = pc₀) (hlocked : pc₀.locked = true)
include hpc hlocked

omit h in
theorem LockOk.holds : s.lock = some p := (hok p).mpr (hpc ▸ hlocked)

theorem Sleepers.owed (hs : SleepsOn s.tasks q c) : Owed s.pipe (s.tasks p).killed pc₀ c :=
  hpc ▸ (reason_of_lock (hok.holds hpc hlocked) c).mp (h.reason q c hs)

theorem Sleepers.sleep (c : Chan) (hpc' : pc.sleeps = true) (hc : awaited s.pipe c ∧ isOpen s.pipe c = true)
    (hsilent : Silent s.pipe (s.tasks p).killed pc₀) : Sleepers ((s.sleep p c).goto p pc) := by
  refine h.of hok (.inr (hok.holds hpc hlocked)) (fun q hq => goto_of_ne hq ..) (fun q hq hs => ?_)
    (fun _ => by rwa [goto_self]) (fun i n hp => ?_) fun q d hs => ?_
  · simpa [State.sleep, State.goto, Xv6.sleep, hq] using hs
  · rw [goto_self] at hp
    simp [hp, Pc.sleeps] at hpc'
  · refine (reason_of_free (s := (s.sleep p c).goto p pc) rfl d).mpr ?_
    rcases sleepsOn_sleep.mp hs with ⟨-, rfl⟩ | ⟨-, hs⟩
    · exact hc
    · exact (h.owed hok hpc hlocked hs).of_silent hsilent

variable (hrun : (s.tasks p).state ≠ .SLEEPING)
include hrun

theorem Sleepers.goto (pipe : Pipe) (stored taken : List Byte) (pc : Pc)
    (hfilled : ∀ i n, pc = .writeFull i n → pipe.full ∧ pipe.readopen = true)
    (hreason : ∀ c, Owed s.pipe (s.tasks p).killed pc₀ c → Owed pipe (s.tasks p).killed pc c) :
    Sleepers ({ s with pipe := pipe, stored := stored, taken := taken }.goto p pc) := by
  have hl := hok.holds hpc hlocked
  refine h.of hok (.inr hl) (fun q hq => goto_of_ne hq ..) (fun _ _ hq => hq) (fun hp => absurd hp hrun)
    (fun i n hp => hfilled i n (by rwa [goto_self] at hp)) fun q c hs => ?_
  refine (reason_of_lock (s := { s with pipe := pipe, stored := stored, taken := taken }.goto p pc) hl c).mpr ?_
  rw [goto_self]
  exact hreason c (h.owed hok hpc hlocked hs)

theorem Sleepers.stay (pc : Pc) (hfilled : ∀ i n, pc ≠ .writeFull i n)
    (htells : ∀ c, Tells s.pipe (s.tasks p).killed c pc₀ → awaited s.pipe c ∨ Tells s.pipe (s.tasks p).killed c pc)
    (hcloses : ∀ c, ¬Closes c pc₀) : Sleepers (s.goto p pc) :=
  h.goto hok hpc hlocked hrun s.pipe s.stored s.taken pc (fun i n hp => absurd hp (hfilled i n))
    fun c hc => hc.keep (htells c) (hcloses c)

theorem Sleepers.leave (freed : Bool) (hsilent : Silent s.pipe (s.tasks p).killed pc₀) :
    Sleepers ({ s.release with freed := freed }.goto p .out) := by
  refine h.of hok (.inr (hok.holds hpc hlocked)) (fun q hq => goto_of_ne hq ..) (fun _ _ hq => hq)
    (fun hp => absurd hp hrun) (fun i n hp => by simp at hp) fun q c hs => ?_
  exact (reason_of_free (s := { s.release with freed := freed }.goto p .out) rfl c).mpr
    ((h.owed hok hpc hlocked hs).of_silent hsilent)

theorem Sleepers.wakeup (c : Chan) (pc : Pc)
    (hfilled : ∀ i n, pc = .writeFull i n → s.pipe.full ∧ s.pipe.readopen = true)
    (hother : ∀ d, d ≠ c → ¬Tells s.pipe (s.tasks p).killed d pc₀ ∧ ¬Closes d pc₀) :
    Sleepers ((s.wakeup p c).goto p pc) := by
  refine h.of hok (.inr (hok.holds hpc hlocked)) (fun q hq => goto_of_ne hq ..) (fun q _ hq => state_wakeup hq)
    (fun hp => absurd (state_wakeup hp) hrun) (fun i n hp => hfilled i n (by rwa [goto_self] at hp)) fun q d hs => ?_
  obtain ⟨hold, hor⟩ := sleepsOn_wakeup.mp hs
  rcases hor with rfl | hne
  · exact absurd hold.1 hrun
  · obtain ⟨hnot, hnot'⟩ := hother d (Ne.symm hne)
    obtain ⟨h1, h2⟩ := h.owed hok hpc hlocked hold
    exact ⟨.inl (h1.resolve_right hnot), .inl (h2.resolve_right hnot')⟩

end

theorem Sleepers.step (hready : s.ready p) (copy : Option Byte) : Sleepers (s.step p copy) := by
  obtain ⟨hout, hfree, hrun⟩ := hready
  cases hpc : s.pc p with
  | out => exact absurd hpc hout
  | writeCall n | readCall n | closeCall w =>
    rw [hpc] at hfree
    simp only [State.step, hpc]
    exact h.take hok (hfree rfl) hrun (fun _ => rfl) (fun _ _ hs => hs) (by simp)
  | writeSleep i n | readSleep n =>
    rw [hpc] at hfree
    simp only [State.step, hpc]
    exact h.take hok (hfree rfl) hrun (fun _ => state_awaken) (fun _ _ hs => hs.of_awaken) (by simp)
  | write i n =>
    have hcloses : ∀ c, ¬Closes c (.write i n) := by
      intro c
      cases c <;> simp [Closes]
    simp only [State.step, hpc]
    split_ifs with h1 h2 h3
    · -- it leaves without a wakeup(), and has nothing to tell
      refine h.stay hok hpc rfl hrun _ (by simp) (fun c ht => ?_) hcloses
      cases c with
      | nread =>
        obtain ⟨ho, hk⟩ := ht h1
        simp [ho, hk] at h2
      | nwrite => exact ht.elim
    · refine h.wakeup hok hpc rfl hrun .nread _ (fun _ _ _ => ⟨h3, ?_⟩) fun d hd => ⟨?_, hcloses d⟩
      · simpa using not_or.mp h2 |>.1
      · cases d <;> simp_all [Tells]
    · cases copy with
      | none =>
        refine h.stay hok hpc rfl hrun _ (by simp) (fun c ht => .inr ?_) hcloses
        cases c with
        | nread => trivial
        | nwrite => exact ht
      | some ch =>
        -- it has passed the tests of readopen and killed in this turn
        refine h.goto hok hpc rfl hrun _ _ s.taken _ (by simp) fun c hc => ⟨?_, .inl (hc.2.resolve_right (hcloses c))⟩
        cases c with
        | nread => exact .inr fun _ => by simpa [put] using h2
        | nwrite => exact absurd (hc.1.resolve_right (by simp [Tells])) h3
    · refine h.stay hok hpc rfl hrun _ (by simp) (fun c ht => .inr ?_) hcloses
      cases c with
      | nread => trivial
      | nwrite => exact ht
  | writeFull i n =>
    simp only [State.step, hpc]
    exact h.sleep hok hpc rfl .nwrite rfl (h.filled p i n hpc) fun c => by cases c <;> simp [Tells, Closes]
  | writeEnd i =>
    simp only [State.step, hpc]
    exact h.wakeup hok hpc rfl hrun .nread _ (by simp) fun d hd => by cases d <;> simp_all [Tells, Closes]
  | writeExit r | readExit r bytes n =>
    simp only [State.step, hpc]
    exact h.leave hok hpc rfl hrun s.freed fun c => by cases c <;> simp [Tells, Closes]
  | read n =>
    have hsilent : Silent s.pipe (s.tasks p).killed (.read n) := by
      intro c
      cases c <;> simp [Tells, Closes]
    have hstay : ∀ pc, (∀ i n, pc ≠ .writeFull i n) → Sleepers (s.goto p pc) := fun pc hne =>
      h.stay hok hpc rfl hrun pc hne (fun c ht => absurd ht (hsilent c).1) fun c => (hsilent c).2
    simp only [State.step, hpc]
    split_ifs with h1 h2
    · exact hstay _ (by simp)
    · exact h.sleep hok hpc rfl .nread rfl h1 hsilent
    · exact hstay _ (by simp)
  | copy bytes n =>
    have hcloses : ∀ c, ¬Closes c (.copy bytes n) := by
      intro c
      cases c <;> simp [Closes]
    simp only [State.step, hpc]
    -- a byte can be taken only if there is one, so that no reader sleeps
    have htake : ∀ pc, (pc = .copy (bytes ++ [s.pipe.next]) n ∨ pc = .readEnd bytes n) → ¬s.pipe.empty →
        ∀ taken, Sleepers ({ s with pipe := s.pipe.drop, taken := taken }.goto p pc) := by
      intro pc hpc' hne taken
      refine h.goto hok hpc rfl hrun _ s.stored taken pc (by rcases hpc' with rfl | rfl <;> simp) fun c hc => ?_
      cases c with
      | nread => exact absurd (hc.1.resolve_right (by simp [Tells])) hne
      | nwrite =>
        refine ⟨.inr ?_, .inl (hc.2.resolve_right (hcloses _))⟩
        rcases hpc' with rfl | rfl <;> trivial
    have hend : Sleepers (s.goto p (.readEnd bytes n)) := by
      refine h.stay hok hpc rfl hrun _ (by simp) (fun c ht => .inr ?_) hcloses
      cases c with
      | nread => exact ht
      | nwrite => trivial
    split_ifs with h1 h2
    · exact hend
    · cases copy with
      | none => exact htake _ (.inr rfl) h2 s.taken
      | some _ => exact htake _ (.inl rfl) h2 _
    · exact hend
  | readEnd bytes n =>
    simp only [State.step, hpc]
    exact h.wakeup hok hpc rfl hrun .nwrite _ (by simp) fun d hd => by cases d <;> simp_all [Tells, Closes]
  | closeStore w =>
    simp only [State.step, hpc]
    refine h.goto hok hpc rfl hrun _ s.stored s.taken _ (by simp) fun c hc => ?_
    have hold := hc.of_silent fun c => by cases c <;> simp [Tells, Closes]
    cases w <;> cases c <;> simp_all [Owed, awaited, isOpen, Closes, close, empty, full]
  | closeWake w =>
    simp only [State.step, hpc]
    exact h.wakeup hok hpc rfl hrun _ _ (by simp) fun d hd => by cases w <;> cases d <;> simp_all [Tells, Closes]
  | closeEnd =>
    have hsilent : Silent s.pipe (s.tasks p).killed .closeEnd := by
      intro c
      cases c <;> simp [Tells, Closes]
    simp only [State.step, hpc]
    split_ifs with h1
    · exact h.leave hok hpc rfl hrun true hsilent
    · exact h.leave hok hpc rfl hrun s.freed hsilent

theorem Sleepers.call (hout : s.pc p = .out) (c : Call) : Sleepers (s.goto p c.pc) := by
  have hother : ∀ q, s.lock = some q → (s.goto p c.pc).pc q = s.pc q := by
    intro q hq
    apply goto_of_ne
    rintro rfl
    have := (hok q).mp hq
    simp [hout, Pc.locked] at this
  refine ⟨fun q hq => ?_, fun q d hs => ?_, fun q i n hq => ?_⟩
  · have hold := h.asleep q hq
    rw [goto_of_ne]
    · exact hold
    · rintro rfl
      simp [hout, Pc.sleeps] at hold
  · obtain ⟨h1, h2⟩ := h.reason q d hs
    refine ⟨h1.imp_right ?_, h2.imp_right ?_⟩
    all_goals
      rintro ⟨r, hr, ht⟩
      refine ⟨r, hr, ?_⟩
      rw [hother r hr]
      exact ht
  · by_cases hqp : q = p
    · subst hqp
      rw [goto_self] at hq
      cases c <;> simp [Call.pc] at hq
    · rw [goto_of_ne hqp] at hq
      exact h.filled q i n hq

end

theorem Sleepers.kill (h : Sleepers s) (hc : Careful s (.kill p)) :
    Sleepers { s with tasks := Xv6.kill s.tasks p } := by
  refine ⟨fun q hq => ?_, fun q d hs => ?_, h.filled⟩
  · by_cases hqp : q = p
    · subst hqp
      simp only [Xv6.kill, Function.update_self] at hq
      split_ifs at hq with hst
      exact absurd hq hst
    · simp only [Xv6.kill, Function.update_of_ne hqp] at hq
      exact h.asleep q hq
  · have hold := hs.of_kill
    obtain ⟨h1, h2⟩ := h.reason q d hold
    refine ⟨?_, h2⟩
    rcases h1 with h1 | ⟨r, hr, ht⟩
    · exact .inl h1
    · by_cases hrp : r = p
      · subst hrp
        cases d with
        | nwrite =>
          refine .inr ⟨r, hr, ?_⟩
          cases hpc : s.pc r <;> simp_all [Tells]
        | nread =>
          cases hpc : s.pc r with
          | write i n =>
            by_cases hlt : (i : Int) < n
            · exact .inl (hc i n hpc hlt q hold)
            · exact .inr ⟨r, hr, by simp [hpc, Tells, hlt]⟩
          | writeEnd i => exact .inr ⟨r, hr, by simp [hpc, Tells]⟩
          | _ => simp [hpc, Tells] at ht
      · refine .inr ⟨r, hr, ?_⟩
        simpa [Xv6.kill, Function.update_of_ne hrp] using ht

theorem Start.sleepers (h : Start s) : Sleepers s := by
  obtain ⟨-, -, -, -, -, -, hp, -⟩ := h
  exact ⟨fun p hs => absurd hs (hp p).2, fun p c hs => absurd hs.1 (hp p).2, fun p i n hpc => by simp [(hp p).1] at hpc⟩

theorem sleepers_reach (h : Reach Start (Step Careful) s) : Sleepers s := by
  refine h.invariant (I := Sleepers) (fun s hs => hs.sleepers) fun s t hr hi hs => ?_
  obtain ⟨e, he, hc, rfl⟩ := hs
  have hok := lockOk_reach hr
  cases e with
  | call p c => exact hi.call hok he.2 c
  | step p copy => exact hi.step hok he.2 copy
  | kill p => exact hi.kill hc

-- A reader goes to sleep, and two bytes are written, of which it is told.
def sampleTold : List (Event (Fin 2)) :=
  [.call 0 (.piperead 1), .step 0 none, .step 0 none, .call 1 (.pipewrite 2), .step 1 none, .step 1 (some 7),
    .step 1 (some 8), .step 1 none, .step 1 none, .step 1 none]

-- A reader goes to sleep, and the writer is killed when it has stored the first byte.
def sampleUntold : List (Event (Fin 2)) :=
  [.call 0 (.piperead 1), .step 0 none, .step 0 none, .call 1 (.pipewrite 2), .step 1 none, .step 1 (some 7),
    .kill 1, .step 1 none, .step 1 none]

-- While the lock is free, only those sleep that have to.
theorem pipe_sleepers (h : Reach Start (Step Careful) s) (hl : s.lock = none) :
    (∀ p, SleepsOn s.tasks p .nread → s.pipe.empty ∧ s.pipe.writeopen = true) ∧
    ∀ p, SleepsOn s.tasks p .nwrite → s.pipe.full ∧ s.pipe.readopen = true :=
  ⟨fun p hs => (reason_of_free hl _).mp ((sleepers_reach h).reason p _ hs),
    fun p hs => (reason_of_free hl _).mp ((sleepers_reach h).reason p _ hs)⟩

theorem pipe_sleepers_told : ∃ s : State (Fin 2), s.stored = [7, 8] ∧ ¬SleepsOn s.tasks 0 .nread := by
  have hrun : Admits (fun s e => e.enabled s ∧ ∀ q, e ≠ .kill q) State.next samplePipe sampleTold ∧
      (sampleTold.foldl State.next samplePipe).stored = [7, 8] ∧
      (sampleTold.foldl State.next samplePipe).lock = none ∧
      ¬(sampleTold.foldl State.next samplePipe).pipe.empty := by
    decide +kernel
  obtain ⟨hadmits, hstored, hlock, hempty⟩ := hrun
  have hreach : Reach Start (Step Careful) (sampleTold.foldl State.next samplePipe) := by
    refine Reach.foldl (fun s e he => ⟨e, he.1, ?_, rfl⟩) (.start samplePipe_start) hadmits
    cases e with
    | kill q => exact absurd rfl (he.2 q)
    | call p c | step p copy => trivial
  exact ⟨_, hstored, fun hs => hempty ((pipe_sleepers hreach hlock).1 0 hs).1⟩

-- The killed pipewrite() has returned, and the reader sleeps beside a byte.
theorem pipe_sleepers_untold : ∃ s : State (Fin 2), Reach Start (Step fun _ _ => True) s ∧ s.lock = none ∧
    SleepsOn s.tasks 0 .nread ∧ ¬s.pipe.empty ∧ s.pc 1 = .out := by
  have hrun : Admits (fun s e => e.enabled s) State.next samplePipe sampleUntold ∧
      (sampleUntold.foldl State.next samplePipe).lock = none ∧
      SleepsOn (sampleUntold.foldl State.next samplePipe).tasks 0 .nread ∧
      ¬(sampleUntold.foldl State.next samplePipe).pipe.empty ∧
      (sampleUntold.foldl State.next samplePipe).pc 1 = .out := by
    decide +kernel
  obtain ⟨hadmits, hrest⟩ := hrun
  exact ⟨_, Reach.foldl (fun s e he => ⟨e, he, trivial, rfl⟩) (.start samplePipe_start) hadmits, hrest⟩

end Xv6.Pipe
