import Xv6.Sleep
import Xv6.Lib.Reach

namespace Xv6.Sleeplock

open Lib Function

-- One sleep-lock and the processes that use it.

-- The wait channels: the lock, or anything else that a process sleeps on.
inductive Chan where
  | lock
  | other (addr : Nat)
  deriving DecidableEq

-- Where a process is: in acquiresleep() before the test of its loop, with lk->lk held; in sleep(),
-- with p->lock held and lk->lk released; behind sched() there; behind acquiresleep(); in the loop
-- of wakeup() in releasesleep(), with lk->lk held and some slots before it.
inductive Place (ι : Type) where
  | out | test | dozing | asleep | holds
  | waking (rest : List ι)
  deriving DecidableEq

def Place.locks {ι : Type} : Place ι → Bool
  | .test | .waking _ => true
  | _ => false

structure State (ι : Type) where
  locked : Bool
  pid : Int
  -- who has lk->lk
  lk : Option ι
  tasks : ι → Task Chan
  pids : ι → Int
  place : ι → Place ι

inductive Event (ι : Type) where
  | acquiresleep (p : ι)
  | releasesleep (p : ι)
  -- the next statement of a process that is in one of the two
  | go (p : ι)
  | kill (p : ι)
  | schedule (p : ι)
  | preempt (p : ι)
  -- what a process does elsewhere, with or without the lock; fork and exit included
  | other (p : ι) (t : Task Chan) (pid : Int)

variable {ι : Type} [DecidableEq ι]

namespace State

def Live (s : State ι) (p : ι) : Prop := (s.tasks p).state ≠ .UNUSED

def goto (s : State ι) (p : ι) (pl : Place ι) : State ι := { s with place := update s.place p pl }

-- holdingsleep(), which changes nothing.
def holdingsleep (s : State ι) (p : ι) : Bool := s.locked && s.pid == s.pids p

def go (s : State ι) (p : ι) : Option (State ι) :=
  match s.place p with
  | .test =>
    if s.locked then some ({ s with lk := none }.goto p .dozing)
    else some ({ s with locked := true, pid := s.pids p, lk := none }.goto p .holds)
  | .dozing => some ({ s with tasks := sleep s.tasks p .lock }.goto p .asleep)
  | .asleep =>
    if s.lk = none then some ({ s with tasks := awaken s.tasks p, lk := some p }.goto p .test) else none
  | .waking [] => some ({ s with lk := none }.goto p .out)
  | .waking (q :: rest) =>
    if q = p then some (s.goto p (.waking rest))
    else if s.place q = .dozing then none
    else if SleepsOn s.tasks q .lock then
      some ({ s with tasks := setState s.tasks q .RUNNABLE }.goto p (.waking rest))
    else some (s.goto p (.waking rest))
  | .out | .holds => none

-- none where the event cannot happen. kill() takes p->lock, and a process with a spinlock is
-- not preempted.
def next (table : List ι) (s : State ι) : Event ι → Option (State ι)
  | .acquiresleep p =>
    if (s.tasks p).state = .RUNNING ∧ s.place p = .out ∧ s.lk = none then
      some ({ s with lk := some p }.goto p .test)
    else none
  | .releasesleep p =>
    if (s.tasks p).state = .RUNNING ∧ s.place p = .holds ∧ s.lk = none then
      some ({ s with locked := false, pid := 0, lk := some p }.goto p (.waking table))
    else none
  | .go p => if (s.tasks p).state = .RUNNING then s.go p else none
  | .kill p => if s.place p ≠ .dozing then some { s with tasks := kill s.tasks p } else none
  | .schedule p =>
    if (s.tasks p).state = .RUNNABLE then some { s with tasks := setState s.tasks p .RUNNING } else none
  | .preempt p =>
    if (s.tasks p).state = .RUNNING ∧ (s.place p).locks = false ∧ s.place p ≠ .dozing then
      some { s with tasks := setState s.tasks p .RUNNABLE }
    else none
  | .other p t pid =>
    if (s.place p = .out ∨ s.place p = .holds ∧ pid = s.pids p ∧ t.state ≠ .UNUSED) ∧ t.chan ≠ some .lock ∧
        (t.state ≠ .UNUSED → ∀ q ∈ table, q ≠ p → (s.tasks q).state ≠ .UNUSED → s.pids q ≠ pid) then
      some { s with tasks := update s.tasks p t, pids := update s.pids p pid }
    else none

def Step (table : List ι) (s t : State ι) : Prop := ∃ e, s.next table e = some t

def Start (s : State ι) : Prop :=
  s.locked = false ∧ s.lk = none ∧ (∀ p, s.place p = .out ∧ (s.tasks p).chan ≠ some .lock) ∧
  ∀ p q, s.Live p → s.Live q → s.pids p = s.pids q → p = q

end State

variable {s t : State ι} {p q : ι} {table : List ι}

-- Who sleeps on the lock, or is about to.
def Drowsy (place : ι → Place ι) (tasks : ι → Task Chan) (q : ι) : Prop :=
  place q = .dozing ∨ SleepsOn tasks q .lock

structure Inv (s : State ι) : Prop where
  lk : ∀ p, (s.place p).locks = true ↔ s.lk = some p
  held : ∀ p, s.place p = .holds → s.locked = true ∧ s.pid = s.pids p ∧ s.Live p
  holder : s.locked = true → ∃ p, s.place p = .holds ∧ ∀ q, s.place q = .holds → q = p
  sleeps : ∀ p, SleepsOn s.tasks p .lock → s.place p = .asleep
  -- the lock is held, or the wakeup() has still to come to the process
  woken : ∀ q, Drowsy s.place s.tasks q → s.locked = true ∨ ∃ p rest, s.place p = .waking rest ∧ q ∈ rest
  pids : ∀ p q, s.Live p → s.Live q → s.pids p = s.pids q → p = q

omit [DecidableEq ι] in
theorem Inv.tasks (h : Inv s) (hs : ∀ q, SleepsOn u q .lock → SleepsOn s.tasks q .lock)
    (hlive : ∀ q, (u q).state = .UNUSED ↔ (s.tasks q).state = .UNUSED) : Inv { s with tasks := u } where
  lk := h.lk
  held p hp := ⟨(h.held p hp).1, (h.held p hp).2.1, fun hu => (h.held p hp).2.2 ((hlive p).mp hu)⟩
  holder := h.holder
  sleeps p hp := h.sleeps p (hs p hp)
  woken q hq := h.woken q (hq.imp_right (hs q))
  pids p q hp hq := h.pids p q (fun hu => hp ((hlive p).mpr hu)) fun hu => hq ((hlive q).mpr hu)

theorem Inv.setState (h : Inv s) (hst : st ≠ .SLEEPING) (hu : st ≠ .UNUSED) (hp : s.Live p) :
    Inv { s with tasks := setState s.tasks p st } := by
  refine h.tasks (fun q hq => hq.of_setState hst) fun q => ?_
  by_cases hqp : q = p
  · subst hqp
    rw [State.Live] at hp
    simp [Xv6.setState, hu, hp]
  · simp [Xv6.setState, hqp]

-- A step of p, which has p->lock or lk->lk or takes lk->lk, so that the others are where they were.
theorem Inv.go (h : Inv s) (hrun : (s.tasks p).state = .RUNNING) (hgo : s.go p = some t) : Inv t := by
  obtain ⟨hlk, hheld, hholder, hsleeps, hwoken, hpids⟩ := h
  simp only [State.Live, Drowsy, SleepsOn] at hheld hsleeps hwoken hpids
  revert hgo
  fun_cases State.go s p <;> intro hgo <;> cases hgo
  all_goals
    constructor <;>
      simp only [State.goto, State.Live, Drowsy, SleepsOn, sleep, awaken, Xv6.setState, update_apply] <;>
      grind -ring -linarith [Place.locks, SleepsOn]

theorem Inv.next (h : Inv s) (hall : ∀ p, p ∈ table) (hn : s.next table e = some t) : Inv t := by
  obtain ⟨hlk, hheld, hholder, hsleeps, hwoken, hpids⟩ := id h
  simp only [State.Live, Drowsy, SleepsOn] at hheld hsleeps hwoken hpids
  revert hn
  fun_cases State.next table s e <;> intro hn
  case case5 p hrun => exact h.go hrun hn
  all_goals cases hn
  next p hg =>
    constructor <;> simp only [State.goto, State.Live, Drowsy, SleepsOn, update_apply] <;>
      grind -ring -linarith [Place.locks]
  next p hg =>
    constructor
    -- wakeup() has every slot before it
    case woken => exact fun q _ => .inr ⟨p, table, update_self .., hall q⟩
    all_goals simp only [State.goto, State.Live, SleepsOn, update_apply]
    all_goals grind -ring -linarith [Place.locks]
  next p hg =>
    refine h.tasks (fun q hq => hq.of_kill) fun q => ?_
    simp only [kill, update_apply]
    grind
  next p hg => exact h.setState (by simp) (by simp) (by simp [State.Live, hg])
  next p hg => exact h.setState (by simp) (by simp) (by simp [State.Live, hg])
  next p x pid hg =>
    constructor <;> simp only [State.Live, Drowsy, SleepsOn, update_apply] <;> grind

theorem sleeplock_inv (hall : ∀ p, p ∈ table) (h : Reach State.Start (State.Step table) s) : Inv s := by
  refine h.invariant (fun s ⟨hlocked, hlk, hout, hpids⟩ => ?_) fun _ _ _ hinv ⟨_, hn⟩ => hinv.next hall hn
  have hawake : ∀ p, ¬SleepsOn s.tasks p .lock := fun p hs => (hout p).2 hs.2
  refine ⟨?_, ?_, ?_, fun p hs => absurd hs (hawake p), fun q hq => ?_, hpids⟩
  · simp [hout, hlk, Place.locks]
  · simp [hout]
  · simp [hlocked]
  · simp [Drowsy, hout, hawake] at hq

-- At most one process is between its acquiresleep() and its releasesleep(), and holdingsleep() is
-- true for it alone.
theorem sleeplock_excludes (hall : ∀ p, p ∈ table) (h : Reach State.Start (State.Step table) s) :
    (∀ p q, s.place p = .holds → s.place q = .holds → p = q) ∧
    (s.locked = true ↔ ∃ p, s.place p = .holds) ∧
    (∀ p, s.place p = .holds → s.pid = s.pids p ∧ s.holdingsleep p = true ∧
      ∀ q, q ≠ p → s.Live q → s.holdingsleep q = false) ∧
    (s.lk = none → s.locked = false → ∀ p, ¬SleepsOn s.tasks p .lock) := by
  have hinv := sleeplock_inv hall h
  refine ⟨fun p q hp hq => ?_, ⟨fun hl => ?_, fun ⟨p, hp⟩ => (hinv.held p hp).1⟩, fun p hp => ?_,
    fun hlk hl p hs => ?_⟩
  · obtain ⟨r, -, honly⟩ := hinv.holder (hinv.held p hp).1
    rw [honly p hp, honly q hq]
  · obtain ⟨p, hp, -⟩ := hinv.holder hl
    exact ⟨p, hp⟩
  · obtain ⟨hl, hpid, hlive⟩ := hinv.held p hp
    simp only [State.holdingsleep, hl, hpid, Bool.true_and, beq_self_eq_true, beq_eq_false_iff_ne, true_and]
    exact fun q hne hq heq => hne (hinv.pids p q hlive hq heq).symm
  · rcases hinv.woken p (.inr hs) with hl' | ⟨q, rest, hq, -⟩
    · simp [hl] at hl'
    · simpa [hlk] using (hinv.lk q).mp (by rw [hq]; rfl)

-- Process 1 sleeps on the lock of process 0, is killed, looks again and sleeps again.
theorem sleeplock_excludes_two : ∃ s : State (Fin 2), s.place 1 = .asleep ∧ s.place 0 = .out ∧
    ¬SleepsOn s.tasks 1 .lock := by
  obtain ⟨s, hs, h1, h0, hlk, hl⟩ : ∃ s : State (Fin 2), List.foldlM (State.next [0, 1])
      { locked := false, pid := 0, lk := none, tasks := fun _ => { state := .RUNNING, chan := none, killed := false },
        pids := fun p => p.val + 1, place := fun _ => .out }
      [.acquiresleep 0, .go 0, .acquiresleep 1, .go 1, .go 1, .kill 1, .schedule 1, .go 1, .go 1, .go 1,
        .releasesleep 0, .go 0, .go 0, .go 0] = some s ∧ s.place 1 = .asleep ∧ s.place 0 = .out ∧ s.lk = none ∧
      s.locked = false := exists_of_any (by decide +kernel)
  have hreach : Reach State.Start (State.Step [0, 1]) s :=
    Reach.foldlM (fun _ e _ hn => ⟨e, hn⟩) (.start ⟨rfl, rfl, fun _ => ⟨rfl, by simp⟩, fun p q _ _ hpq =>
      Fin.ext (by simp at hpq; omega)⟩) hs
  exact ⟨s, h1, h0, (sleeplock_excludes (by decide) hreach).2.2.2 hlk hl 1⟩

end Xv6.Sleeplock
