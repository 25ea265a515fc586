import Xv6.Sched

set_option linter.unusedSectionVars false

namespace Xv6.Sched

open Lib Function

variable {ι κ Λ γ : Type} {lockOf : κ → Λ} {table : List ι} {m m' : Machine ι κ Λ γ}

section Places

def Wake.plock : Wake ι κ → Option ι
  | .scan _ _ => none
  | .locked _ q _ | .unlock _ q _ => some q

def Pc.plock (p : ι) : Pc ι κ → Option ι
  | .sleep _ s => if s = .lock ∨ s = .off ∨ s = .retake then none else some p
  | .wakeup w => w.plock
  | .kill _ (.scan _) => none
  | .kill _ (.locked q _) | .kill _ (.hit q) | .kill _ (.miss q _) => some q
  | .table _ q s => if s = .lock then none else some q
  | .yield s | .exit s => if s = .lock ∨ s = .off then none else some p
  | .forkret => some p
  | .run | .new => none

def Wake.chan : Wake ι κ → κ
  | .scan c _ | .locked c _ _ | .unlock c _ _ => c

def Wake.rest : Wake ι κ → List ι
  | .scan _ rest | .unlock _ _ rest => rest
  | .locked _ q rest => q :: rest

-- The channel whose lock a thread must hold at its place.
def Pc.guards : Pc ι κ → Option κ
  | .sleep c .lock | .sleep c .release => some c
  | .wakeup w => some w.chan
  | _ => none

-- The slot's state goes with the place of its thread.
def Pc.Fits (slot : Slot κ) : Pc ι κ → Prop
  | .sleep c .setState => slot.task.state = .RUNNING ∧ slot.task.chan = some c
  | .sleep c .switch => slot.task.state = .SLEEPING ∧ slot.task.chan = some c
  | .sleep c .off => slot.task.state = .SLEEPING ∧ slot.task.chan = some c ∨ slot.task.state = .RUNNABLE
  | .yield .switch | .yield .off => slot.task.state = .RUNNABLE
  | .exit .switch => slot.task.state = .ZOMBIE
  | .exit .off => slot.task.state = .ZOMBIE ∨ slot.task.state = .UNUSED
  | .new => slot.task.state = .UNUSED ∨ slot.task.state = .USED ∨ slot.task.state = .RUNNABLE
  | _ => slot.task.state = .RUNNING

-- A thread that has let go of the lock of c and has not yet set its state.
def Pc.entering (c : κ) : Pc ι κ → Prop
  | .sleep d .setChan | .sleep d .setState => d = c
  | _ => False

def Machine.plockOf (m : Machine ι κ Λ γ) : Thread ι γ → Option ι
  | .proc p => (m.pc p).plock p
  | .cpu x => (m.cpu x).bind Wake.plock

def Machine.guards (m : Machine ι κ Λ γ) : Thread ι γ → Option κ
  | .proc p => (m.pc p).guards
  | .cpu x => (m.cpu x).map Wake.chan

def Slot.sleepsOn (slot : Slot κ) (c : κ) : Prop := slot.task.state = .SLEEPING ∧ slot.task.chan = some c

-- A wakeup(c) need not come back to slot q.
def Machine.Passed (m : Machine ι κ Λ γ) (c : κ) (q : ι) : Prop :=
  ¬(m.slots q).sleepsOn c ∧ ¬(m.pc q).entering c

end Places

structure LInv (lockOf : κ → Λ) (m : Machine ι κ Λ γ) : Prop where
  plock : ∀ t q, m.plockOf t = some q → m.plock q = some (.thread t)
  sched : ∀ p, m.sched p ≠ .idle → m.plock p = some .scheduler
  lock : ∀ t c, m.guards t = some c → m.lock (lockOf c) = some t
  fits : ∀ p, (m.pc p).Fits (m.slots p)
  below : ∀ p, ∀ pc ∈ m.below p, pc.interruptible = true
  passed : ∀ t w, m.waker t = some w → ∀ q, q ∉ w.rest → m.Passed w.chan q

section Programs

-- A thread takes one slot's lock at a time, stores to a slot only under its lock, and
-- lets go of it before it takes the next.
def Act.Brackets (held held' : Option ι) : Act ι κ Λ → Prop
  | .acquire q => held = none ∧ held' = some q
  | .release q | .swtch q => held = some q ∧ held' = none
  | .edit q _ => held = some q ∧ held' = some q
  | _ => held' = held

-- A place that needs the lock of its channel is entered with it, and left before or
-- when the lock is dropped.
def Act.Guarded (lockOf : κ → Λ) (chan chan' : Option κ) : Act ι κ Λ → Prop
  | .holding l => ∀ c, chan' = some c → lockOf c = l
  | .drop _ => chan' = none
  | _ => chan' = none ∨ chan' = chan

def Act.onSlot [DecidableEq ι] [DecidableEq κ] (q : ι) (slot : Slot κ) : Act ι κ Λ → Slot κ
  | .edit q' e => if q' = q then e.run slot else slot
  | _ => slot

def Act.onPc [DecidableEq ι] (q : ι) (pc : Pc ι κ) : Act ι κ Λ → Pc ι κ
  | .edit q' e => if q' = q then e.context pc else pc
  | _ => pc

-- The stores that a thread makes to slots other than its own.
def Edit.Foreign (slot : Slot κ) : Edit κ → Prop
  | .wake _ | .kill => True
  | .table op => op.possible slot
  | _ => False

variable [DecidableEq ι] [DecidableEq κ] {p q : ι} {slots : ι → Slot κ} {pc pc' : Pc ι κ} {ch : Choice ι κ Λ} {act : Act ι κ Λ}
  {w w' : Wake ι κ} {me : Option ι}

theorem Act.onPc_cases (act : Act ι κ Λ) (q : ι) (pc : Pc ι κ) :
    act.onPc q pc = pc ∨ act.onPc q pc = .new ∧ ∃ pid, act = .edit q (.table (.alloc pid)) := by
  cases act with
  | edit q' e =>
    by_cases hq : q' = q
    · rcases e with _ | _ | _ | _ | (_ | _ | _) <;> simp [Act.onPc, Edit.context, hq]
    · simp [Act.onPc, hq]
  | _ => exact .inl rfl

structure Turn (lockOf : κ → Λ) (p : ι) (slots : ι → Slot κ) (pc : Pc ι κ) (act : Act ι κ Λ) (pc' : Pc ι κ) :
    Prop where
  brackets : act.Brackets (pc.plock p) (pc'.plock p)
  guarded : act.Guarded lockOf pc.guards pc'.guards
  fits : pc.Fits (slots p) → pc'.Fits (act.onSlot p (slots p))
  foreign : ∀ q e, act = .edit q e → q ≠ p → e.Foreign (slots q)
  own : pc.Fits (slots p) → ∀ op, act ≠ .edit p (.table op)
  entering : ∀ c, pc'.entering c → pc.entering c ∨ pc.guards = some c
  sleeps : ∀ c, pc.Fits (slots p) → (act.onSlot p (slots p)).sleepsOn c →
    (slots p).sleepsOn c ∨ pc.entering c

theorem SleepStage.turn (h : s.step lockOf p c = some (act, pc')) :
    Turn lockOf p slots (.sleep c s) act pc' := by
  cases s <;> simp only [SleepStage.step, Option.some.injEq, Prod.mk.injEq, reduceCtorEq] at h <;>
    obtain ⟨rfl, rfl⟩ := h <;> constructor <;>
    simp_all [Act.Brackets, Act.Guarded, Act.onSlot, Pc.plock, Pc.guards, Pc.Fits, Pc.entering, Edit.run,
      Slot.sleepsOn]

theorem TableOp.not_possible (op : TableOp) (h : slot.task.state = .RUNNING) :
    ¬op.possible slot := by
  cases op <;> simp [TableOp.possible, h]

theorem Edit.Foreign.running {slot : Slot κ} {e : Edit κ} (he : e.Foreign slot)
    (h : slot.task.state = .RUNNING) : (e.run slot).task.state = .RUNNING := by
  cases e with
  | chan c => exact he.elim
  | state st => exact he.elim
  | wake c => simp [Edit.run, h]
  | kill => simp [Edit.run, h]
  | table op => exact absurd he (op.not_possible h)

theorem Turn.foreign_only (hb : act.Brackets (pc.plock p) (pc'.plock p))
    (hg : act.Guarded lockOf pc.guards pc'.guards) (hpc : pc.Fits (slots p) → (slots p).task.state = .RUNNING)
    (hpc' : ∀ slot, slot.task.state = .RUNNING → pc'.Fits slot) (hent : ∀ c, ¬pc'.entering c)
    (he : ∀ q e, act = .edit q e → e.Foreign (slots q)) : Turn lockOf p slots pc act pc' := by
  have hrun : pc.Fits (slots p) → (act.onSlot p (slots p)).task.state = .RUNNING := by
    intro hfits
    cases act with
    | edit q e =>
      simp only [Act.onSlot]
      split
      next hq => exact (hq ▸ he q e rfl).running (hpc hfits)
      next => exact hpc hfits
    | _ => exact hpc hfits
  refine ⟨hb, hg, fun hfits => hpc' _ (hrun hfits), fun q e hact _ => he q e hact, fun hfits op hact => ?_,
    fun c hc => absurd hc (hent c), fun c hfits hs => ?_⟩
  · exact op.not_possible (hpc hfits) (he p _ hact)
  · have hstate := hs.1
    rw [hrun hfits] at hstate
    simp at hstate

theorem KillStage.turn (h : s.step slots n = (act, pc')) :
    Turn lockOf p slots (.kill n s) act pc' := by
  revert h
  fun_cases KillStage.step slots n s <;> intro h <;> simp only [Prod.mk.injEq] at h <;> obtain ⟨rfl, rfl⟩ := h <;>
    apply Turn.foreign_only <;>
    simp [Act.Brackets, Act.Guarded, Pc.plock, Pc.guards, Pc.Fits, Pc.entering, Edit.Foreign]

theorem TableStage.turn (h : s.step slots op q = (act, pc')) :
    Turn lockOf p slots (.table op q s) act pc' := by
  cases s <;> simp only [TableStage.step, Prod.mk.injEq] at h <;> obtain ⟨hact, rfl⟩ := h
  · subst hact
    apply Turn.foreign_only <;> simp [Act.Brackets, Act.Guarded, Pc.plock, Pc.guards, Pc.Fits, Pc.entering]
  · split at hact <;> subst hact <;> apply Turn.foreign_only <;>
      simp_all [Act.Brackets, Act.Guarded, Pc.plock, Pc.guards, Pc.Fits, Pc.entering, Edit.Foreign]
  · subst hact
    apply Turn.foreign_only <;> simp [Act.Brackets, Act.Guarded, Pc.plock, Pc.guards, Pc.Fits, Pc.entering]

theorem turn_yieldStep (h : yieldStep p s = some (act, pc')) :
    Turn lockOf p slots (.yield s) act pc' := by
  cases s <;> simp only [yieldStep, Option.some.injEq, Prod.mk.injEq, reduceCtorEq] at h <;>
    obtain ⟨rfl, rfl⟩ := h <;> constructor <;>
    simp_all [Act.Brackets, Act.Guarded, Act.onSlot, Pc.plock, Pc.guards, Pc.Fits, Pc.entering, Edit.run,
      Slot.sleepsOn]

theorem turn_exitStep (h : exitStep p s = some (act, pc')) :
    Turn lockOf p slots (.exit s) act pc' := by
  cases s <;> simp only [exitStep, Option.some.injEq, Prod.mk.injEq, reduceCtorEq] at h <;>
    obtain ⟨rfl, rfl⟩ := h <;> constructor <;>
    simp_all [Act.Brackets, Act.Guarded, Act.onSlot, Pc.plock, Pc.guards, Pc.Fits, Pc.entering, Edit.run,
      Slot.sleepsOn]

-- wakeup() goes on to the next slot only when the last one is its own process, or has
-- been tested under its lock.
structure WakeTurn (lockOf : κ → Λ) (me : Option ι) (w : Wake ι κ) (act : Act ι κ Λ) (w' : Wake ι κ) : Prop where
  brackets : act.Brackets w.plock w'.plock
  guarded : act.Guarded lockOf (some w.chan) (some w'.chan)
  chan : w'.chan = w.chan
  edits : ∀ q e, act = .edit q e → e = .wake w.chan
  rest : ∀ q, q ∉ w'.rest → q ∉ w.rest ∨ some q = me ∨ act = .edit q (.wake w.chan)

theorem Wake.turn (lockOf : κ → Λ) (h : w.step me = some (act, w')) : WakeTurn lockOf me w act w' := by
  revert h
  fun_cases Wake.step (Λ := Λ) me w <;> intro h <;>
    simp only [Option.some.injEq, Prod.mk.injEq, reduceCtorEq] at h <;> obtain ⟨rfl, rfl⟩ := h <;> constructor <;>
    simp_all [Act.Brackets, Act.Guarded, Wake.plock, Wake.chan, Wake.rest]
  all_goals grind

theorem Pc.step_wakeup (h : (Pc.wakeup w).step lockOf table p slots ch = some (act, pc')) :
    ((∃ c, w = .scan c []) ∧ act = .skip ∧ pc' = .run) ∨
    ∃ w', pc' = .wakeup w' ∧ w.step (some p) = some (act, w') := by
  cases ch with
  | go =>
    rcases w with ⟨c, _ | ⟨q, rest⟩⟩ | ⟨c, q, rest⟩ | ⟨c, q, rest⟩
    · simp only [Pc.step, Option.some.injEq, Prod.mk.injEq] at h
      exact .inl ⟨⟨c, rfl⟩, h.1.symm, h.2.symm⟩
    all_goals
      simp only [Pc.step, Option.map_eq_some_iff, Prod.mk.injEq] at h
      obtain ⟨⟨act, w'⟩, hw, rfl, rfl⟩ := h
      exact .inr ⟨w', rfl, hw⟩
  | _ => simp [Pc.step] at h

theorem Pc.turn (h : pc.step lockOf table p slots ch = some (act, pc')) : Turn lockOf p slots pc act pc' := by
  cases pc with
  | run =>
    cases ch <;> simp only [Pc.step, Option.some.injEq, Prod.mk.injEq, reduceCtorEq] at h <;>
      obtain ⟨rfl, rfl⟩ := h <;> apply Turn.foreign_only <;>
      simp [Act.Brackets, Act.Guarded, Pc.plock, Pc.guards, Pc.Fits, Pc.entering, Wake.plock, Wake.chan]
  | sleep c s =>
    cases ch with
    | go => exact SleepStage.turn h
    | _ => simp [Pc.step] at h
  | wakeup w =>
    rcases Pc.step_wakeup h with ⟨⟨c, rfl⟩, rfl, rfl⟩ | ⟨w', rfl, hw⟩
    · apply Turn.foreign_only <;>
        simp [Act.Brackets, Act.Guarded, Pc.plock, Pc.guards, Pc.Fits, Pc.entering, Wake.plock]
    · have hturn := Wake.turn lockOf hw
      exact Turn.foreign_only hturn.brackets hturn.guarded id (fun _ => id) (fun _ => id)
        fun q e he => by rw [hturn.edits q e he]; trivial
  | kill n s =>
    cases ch with
    | go =>
      simp only [Pc.step, Option.some.injEq] at h
      exact KillStage.turn h
    | _ => simp [Pc.step] at h
  | table op q s =>
    cases ch with
    | go =>
      simp only [Pc.step, Option.some.injEq] at h
      exact TableStage.turn h
    | _ => simp [Pc.step] at h
  | yield s =>
    cases ch with
    | go => exact turn_yieldStep h
    | _ => simp [Pc.step] at h
  | exit s =>
    cases ch with
    | go => exact turn_exitStep h
    | _ => simp [Pc.step] at h
  | new => cases ch <;> simp [Pc.step] at h
  | forkret =>
    cases ch with
    | go =>
      cases h
      apply Turn.foreign_only <;> simp [Act.Brackets, Act.Guarded, Pc.plock, Pc.guards, Pc.Fits, Pc.entering]
    | _ => simp [Pc.step] at h

theorem Pc.step_to_wakeup (h : pc.step lockOf table p slots ch = some (act, .wakeup w')) :
    w'.rest = table ∨ ∃ w, pc = .wakeup w ∧ w.step (some p) = some (act, w') := by
  cases pc with
  | wakeup w =>
    rcases Pc.step_wakeup h with ⟨-, -, hpc⟩ | ⟨w'', hpc, hw⟩
    · simp at hpc
    · simp only [Pc.wakeup.injEq] at hpc
      exact .inr ⟨w, rfl, hpc ▸ hw⟩
  | run =>
    cases ch <;> simp only [Pc.step, Option.some.injEq, Prod.mk.injEq, reduceCtorEq, and_false] at h
    simp only [Pc.wakeup.injEq] at h
    exact .inl (by rw [← h.2, Wake.rest])
  | sleep c s => cases ch <;> cases s <;> simp [Pc.step, SleepStage.step] at h
  | kill n s =>
    cases ch <;> simp only [Pc.step, reduceCtorEq, Option.some.injEq] at h
    revert h
    fun_cases KillStage.step slots n s <;> simp
  | table op q s => cases ch <;> cases s <;> simp [Pc.step, TableStage.step] at h
  | yield s => cases ch <;> cases s <;> simp [Pc.step, yieldStep] at h
  | exit s => cases ch <;> cases s <;> simp [Pc.step, exitStep] at h
  | new => cases ch <;> simp [Pc.step] at h
  | forkret => cases ch <;> simp [Pc.step] at h

end Programs

section Exec

variable [DecidableEq ι] [DecidableEq κ] [DecidableEq Λ] [DecidableEq γ] {t : Thread ι γ} {act : Act ι κ Λ} {q : ι} {c : κ}
  {w : Wake ι κ}

structure Moved (lockOf : κ → Λ) (table : List ι) (m : Machine ι κ Λ γ) (t : Thread ι γ) (act : Act ι κ Λ)
    (m₁ : Machine ι κ Λ γ) : Prop where
  slots : m₁.slots = m.slots
  sched : m₁.sched = m.sched
  plock : m₁.plock = m.plock
  lock : m₁.lock = m.lock
  below : m₁.below = m.below
  pc : ∀ q, t ≠ .proc q → m₁.pc q = m.pc q
  cpu : ∀ x, t ≠ .cpu x → m₁.cpu x = m.cpu x
  brackets : act.Brackets (m.plockOf t) (m₁.plockOf t)
  guarded : act.Guarded lockOf (m.guards t) (m₁.guards t)
  foreign : ∀ q e, act = .edit q e → t ≠ .proc q → e.Foreign (m.slots q)
  turn : ∀ p, t = .proc p → Turn lockOf p m.slots (m.pc p) act (m₁.pc p)
  waker : ∀ w', m₁.waker t = some w' → w'.rest = table ∨ ∃ w, m.waker t = some w ∧ w'.chan = w.chan ∧
    ∀ q, q ∉ w'.rest → q ∉ w.rest ∨ t = .proc q ∨ act = .edit q (.wake w.chan)

variable {m₁ : Machine ι κ Λ γ}

section

variable (h : m₁.exec t act = some m')
include h

theorem exec_fields : m'.cpu = m₁.cpu ∧ ∀ q, m'.slots q = act.onSlot q (m₁.slots q) ∧
    m'.pc q = act.onPc q (m₁.pc q) ∧ (m'.below q = m₁.below q ∨ m'.below q = []) := by
  revert h
  fun_cases Machine.exec m₁ t act <;> intro h <;> cases h <;> try exact ⟨rfl, fun _ => ⟨rfl, rfl, .inl rfl⟩⟩
  next q' e =>
    refine ⟨rfl, fun q => ?_⟩
    by_cases hq : q' = q
    · subst hq
      rcases e with _ | _ | _ | _ | (_ | _ | _) <;> simp [Act.onSlot, Act.onPc, Edit.stack]
    · simp [Act.onSlot, Act.onPc, hq, update_of_ne (Ne.symm hq)]

theorem exec_places (t' : Thread ι γ) :
    (∀ q, m'.plockOf t' = some q → m₁.plockOf t' = some q) ∧
    (∀ c, m'.guards t' = some c → m₁.guards t' = some c) ∧
    (∀ w, m'.waker t' = some w → m₁.waker t' = some w) := by
  cases t' with
  | proc p =>
    simp only [Machine.plockOf, Machine.guards, Machine.waker]
    rw [((exec_fields h).2 p).2.1]
    rcases act.onPc_cases p (m₁.pc p) with hpc | ⟨hpc, -⟩ <;> simp [hpc, Pc.plock, Pc.guards]
  | cpu x => simp [Machine.plockOf, Machine.guards, Machine.waker, (exec_fields h).1]

end

variable {t' : Thread ι γ}

theorem Moved.others (hm : Moved lockOf table m t act m₁) (hne : t' ≠ t) :
    m₁.plockOf t' = m.plockOf t' ∧ m₁.guards t' = m.guards t' ∧ m₁.waker t' = m.waker t' := by
  cases t' with
  | proc p => simp [Machine.plockOf, Machine.guards, Machine.waker, hm.pc p (Ne.symm hne)]
  | cpu x => simp [Machine.plockOf, Machine.guards, Machine.waker, hm.cpu x (Ne.symm hne)]

inductive LockChange (m₁ : Machine ι κ Λ γ) (t : Thread ι γ) (act : Act ι κ Λ) (q : ι) (m' : Machine ι κ Λ γ) : Prop
  | none (hact : act ≠ .acquire q ∧ act ≠ .release q ∧ act ≠ .swtch q) (hlock : m'.plock q = m₁.plock q)
      (hsched : m'.sched q = m₁.sched q)
  | acquire (hact : act = .acquire q) (hfree : m₁.plock q = Option.none)
      (hlock : m'.plock q = some (.thread t)) (hsched : m'.sched q = m₁.sched q)
  | release (hact : act = .release q) (hheld : m₁.plock q = some (.thread t)) (hlock : m'.plock q = Option.none)
      (hsched : m'.sched q = m₁.sched q)
  | swtch (hact : act = .swtch q) (hheld : m₁.plock q = some (.thread t)) (hlock : m'.plock q = some .scheduler)

theorem exec_plock (h : m₁.exec t act = some m') (q : ι) : LockChange m₁ t act q m' := by
  revert h
  fun_cases Machine.exec m₁ t act <;> intro h <;> cases h <;> try exact .none (by simp) rfl rfl
  next q' hfree =>
    by_cases hq : q' = q
    · subst hq
      exact .acquire rfl hfree (by simp) rfl
    · exact .none (by simp [hq]) (by simp [update_of_ne (Ne.symm hq)]) rfl
  next q' hheld =>
    by_cases hq : q' = q
    · subst hq
      exact .release rfl hheld (by simp) rfl
    · exact .none (by simp [hq]) (by simp [update_of_ne (Ne.symm hq)]) rfl
  next q' hheld =>
    by_cases hq : q' = q
    · subst hq
      exact .swtch rfl hheld (by simp)
    · exact .none (by simp [hq]) (by simp [update_of_ne (Ne.symm hq)]) (by simp [update_of_ne (Ne.symm hq)])

theorem LInv.exec_plock (h : LInv lockOf m) (hm : Moved lockOf table m t act m₁)
    (hx : m₁.exec t act = some m') (hq : m'.plockOf t' = some q) : m'.plock q = some (.thread t') := by
  have hq₁ := (exec_places hx t').1 q hq
  by_cases ht : t' = t
  · subst ht
    have hb := hm.brackets
    rw [hq₁] at hb
    rcases Sched.exec_plock hx q with ⟨hact, hlock, -⟩ | ⟨rfl, hfree, hlock, -⟩ | ⟨rfl, -⟩ | ⟨rfl, -⟩
    · rw [hlock, hm.plock]
      apply h.plock
      cases act with
      | acquire q' =>
        simp only [Act.Brackets, Option.some.injEq] at hb
        simp [hb.2] at hact
      | release q' => simp [Act.Brackets] at hb
      | swtch q' => simp [Act.Brackets] at hb
      | edit q' e =>
        simp only [Act.Brackets] at hb
        rw [hb.1, hb.2]
      | skip | holding l | take l | drop l => exact hb.symm
    · exact hlock
    · simp [Act.Brackets] at hb
    · simp [Act.Brackets] at hb
  · rw [(hm.others ht).1] at hq₁
    have hheld := h.plock t' q hq₁
    rw [← hm.plock] at hheld
    rcases Sched.exec_plock hx q with ⟨-, hlock, -⟩ | ⟨-, hfree, -⟩ | ⟨-, hheld', -⟩ | ⟨-, hheld', -⟩
    · rw [hlock, hheld]
    · simp [hfree] at hheld
    · simp only [hheld', Option.some.injEq, Holder.thread.injEq] at hheld
      exact absurd hheld.symm ht
    · simp only [hheld', Option.some.injEq, Holder.thread.injEq] at hheld
      exact absurd hheld.symm ht

theorem LInv.exec_sched (h : LInv lockOf m) (hm : Moved lockOf table m t act m₁)
    (hx : m₁.exec t act = some m') (hq : m'.sched q ≠ .idle) : m'.plock q = some .scheduler := by
  have hold : m'.sched q = m₁.sched q → m₁.plock q = some .scheduler := by
    intro hsame
    rw [hsame, hm.sched] at hq
    rw [hm.plock]
    exact h.sched q hq
  rcases Sched.exec_plock hx q with ⟨-, hlock, hs⟩ | ⟨-, hfree, -, hs⟩ | ⟨-, hheld, -, hs⟩ | ⟨-, -, hlock⟩
  · rw [hlock, hold hs]
  · simp [hold hs] at hfree
  · simp [hold hs] at hheld
  · exact hlock

theorem exec_lock (hx : m₁.exec t act = some m') (hheld : m₁.lock l = some t') (hdrop : act = .drop l → t' ≠ t) :
    m'.lock l = some t' := by
  revert hx hdrop
  fun_cases Machine.exec m₁ t act <;> intro hx hdrop <;> cases hx <;> try exact hheld
  next l' hfree =>
    rw [← hheld]
    exact update_of_ne (fun heq => by simp [← heq, hheld] at hfree) ..
  next l' hown =>
    rw [← hheld]
    refine update_of_ne (fun heq => hdrop (by rw [heq]) ?_) ..
    rw [heq, hown, Option.some.injEq] at hheld
    exact hheld.symm

theorem LInv.exec_lock (h : LInv lockOf m) (hm : Moved lockOf table m t act m₁)
    (hx : m₁.exec t act = some m') (hc : m'.guards t' = some c) : m'.lock (lockOf c) = some t' := by
  have hc₁ := (exec_places hx t').2.1 c hc
  by_cases ht : t' = t
  · subst ht
    have hg := hm.guarded
    have hsame : (m₁.guards t' = none ∨ m₁.guards t' = m.guards t') → m₁.lock (lockOf c) = some t' := by
      intro hor
      rcases hor with hnone | heq
      · simp [hnone] at hc₁
      · rw [hm.lock]
        exact h.lock t' c (heq ▸ hc₁)
    cases act with
    | holding l =>
      simp only [Machine.exec, Option.ite_none_right_eq_some, Option.some.injEq] at hx
      rw [← hx.2, hg c hc₁, hx.1]
    | drop l =>
      rw [hc₁] at hg
      simp [Act.Guarded] at hg
    | skip | take l | acquire q | release q | edit q e | swtch q =>
      exact Sched.exec_lock hx (hsame hg) (by simp)
  · rw [(hm.others ht).2.1] at hc₁
    refine Sched.exec_lock hx ?_ fun _ => ht
    rw [hm.lock, h.lock t' c hc₁]

theorem Pc.Fits.congr {slot slot' : Slot κ} {pc : Pc ι κ} (h : pc.Fits slot)
    (hstate : slot'.task.state = slot.task.state) (hchan : slot'.task.chan = slot.task.chan) : pc.Fits slot' := by
  unfold Pc.Fits at h ⊢
  rwa [hstate, hchan]

-- A slot that does not run, and whose lock its own thread does not hold, has been switched away from.
theorem Pc.Fits.parked {slot : Slot κ} {pc : Pc ι κ} (h : pc.Fits slot) (hs : slot.task.state ≠ .RUNNING)
    (hlock : pc.plock q ≠ some q) : (∃ c, pc = .sleep c .off) ∨ pc = .yield .off ∨ pc = .exit .off ∨ pc = .new := by
  rcases pc with _ | ⟨c, s⟩ | w | ⟨n, s⟩ | ⟨op, q, s⟩ | s | s | _ | _
  case sleep | yield | exit => cases s <;> simp_all [Pc.Fits, Pc.plock]
  all_goals simp_all [Pc.Fits]

theorem Edit.Foreign.fits {slot : Slot κ} {e : Edit κ} {pc : Pc ι κ} (he : e.Foreign slot) (h : pc.Fits slot)
    (hlock : pc.plock q ≠ some q) : (e.context pc).Fits (e.run slot) := by
  cases e with
  | chan c => exact he.elim
  | state st => exact he.elim
  | wake c =>
    simp only [Edit.run, Edit.context]
    split
    next hs =>
      rcases h.parked (by simp [hs.1]) hlock with ⟨d, rfl⟩ | rfl | rfl | rfl <;> simp_all [Pc.Fits]
    next => exact h
  | kill =>
    by_cases hs : slot.task.state = .SLEEPING
    · rcases h.parked (by simp [hs]) hlock with ⟨d, rfl⟩ | rfl | rfl | rfl <;> simp_all [Pc.Fits, Edit.run, Edit.context]
    · exact h.congr (by simp [Edit.run, hs]) rfl
  | table op =>
    have hrun : slot.task.state ≠ .RUNNING := fun hs => op.not_possible hs he
    rcases h.parked hrun hlock with ⟨d, rfl⟩ | rfl | rfl | rfl <;> cases op <;>
      simp_all [Pc.Fits, Edit.Foreign, TableOp.possible, Edit.run, TableOp.run, Edit.context]
    rcases he with he | he <;> simp [he] at h

theorem LInv.exec_fits (h : LInv lockOf m) (hm : Moved lockOf table m t act m₁)
    (hx : m₁.exec t act = some m') (p : ι) : (m'.pc p).Fits (m'.slots p) := by
  rw [((exec_fields hx).2 p).1, ((exec_fields hx).2 p).2.1, hm.slots]
  by_cases ht : t = .proc p
  · have hturn := hm.turn p ht
    have hfits := hturn.fits (h.fits p)
    rcases act.onPc_cases p (m₁.pc p) with hpc | ⟨-, pid, hact⟩
    · rwa [hpc]
    · exact absurd hact (hturn.own (h.fits p) _)
  · rw [hm.pc p ht]
    cases act with
    | edit q e =>
      simp only [Act.onPc, Act.onSlot]
      split
      next hq =>
        subst hq
        refine (hm.foreign q e rfl ht).fits (q := q) (h.fits q) fun hown => ht ?_
        have hheld := h.plock t q hm.brackets.1
        have hheld' := h.plock (.proc q) q hown
        simpa [hheld] using hheld'
      next => exact h.fits p
    | _ => exact h.fits p

theorem Edit.Foreign.sleepsOn {slot : Slot κ} {e : Edit κ} (he : e.Foreign slot) (h : (e.run slot).sleepsOn c) :
    slot.sleepsOn c := by
  cases e with
  | chan d => exact he.elim
  | state st => exact he.elim
  | wake d =>
    simp only [Edit.run] at h
    split at h
    · exact absurd h.1 (by simp)
    · exact h
  | kill =>
    obtain ⟨hs, hc⟩ := h
    refine ⟨?_, hc⟩
    by_contra hn
    simp [Edit.run, hn] at hs
  | table op => cases op <;> exact absurd h.1 (by simp [Edit.run, TableOp.run])

theorem LInv.exec_passed (h : LInv lockOf m) (hm : Moved lockOf table m t act m₁)
    (hx : m₁.exec t act = some m') (hpass : m.Passed c q) (hc : t = .proc q → m.guards t ≠ some c) :
    m'.Passed c q := by
  obtain ⟨hsleep, hent⟩ := hpass
  refine ⟨fun hs => ?_, fun he => ?_⟩
  · rw [((exec_fields hx).2 q).1, hm.slots] at hs
    by_cases ht : t = .proc q
    · rcases (hm.turn q ht).sleeps c (h.fits q) hs with hs | he
      · exact hsleep hs
      · exact hent he
    · cases act with
      | edit q' e =>
        simp only [Act.onSlot] at hs
        split at hs
        next hq => exact hsleep ((hm.foreign q e (by rw [hq]) ht).sleepsOn hs)
        next => exact hsleep hs
      | _ => exact hsleep hs
  · rw [((exec_fields hx).2 q).2.1] at he
    rcases act.onPc_cases q (m₁.pc q) with hpc | ⟨hpc, -⟩
    · rw [hpc] at he
      by_cases ht : t = .proc q
      · rcases (hm.turn q ht).entering c he with he | hg
        · exact hent he
        · exact hc ht (by rw [ht]; exact hg)
      · rw [hm.pc q ht] at he
        exact hent he
    · simp [hpc, Pc.entering] at he

theorem passed_of_waker (hfits : (m.pc q).Fits (m.slots q)) (hw : m.waker (.proc q) = some w) (c : κ) :
    m.Passed c q := by
  simp only [Machine.waker] at hw
  split at hw
  next hpc =>
    rw [hpc] at hfits
    refine ⟨fun hs => ?_, by simp [hpc, Pc.entering]⟩
    have hrun : (m.slots q).task.state = .RUNNING := hfits
    simp [Slot.sleepsOn, hrun] at hs
  next => simp at hw

theorem guards_of_waker (hw : m.waker t = some w) : m.guards t = some w.chan := by
  cases t with
  | proc p =>
    simp only [Machine.waker] at hw
    split at hw
    next hpc =>
      simp only [Option.some.injEq] at hw
      simp [Machine.guards, hpc, Pc.guards, hw]
    next => simp at hw
  | cpu x =>
    simp only [Machine.waker] at hw
    simp [Machine.guards, hw]

theorem LInv.exec_tested (h : LInv lockOf m) (hm : Moved lockOf table m t (.edit q (.wake c)) m₁)
    (hx : m₁.exec t (.edit q (.wake c)) = some m') (ht : t ≠ .proc q) : m'.Passed c q := by
  have hheld := h.plock t q hm.brackets.1
  refine ⟨fun hs => ?_, fun he => ?_⟩
  · rw [((exec_fields hx).2 q).1] at hs
    simp only [Act.onSlot, if_pos, Edit.run] at hs
    split at hs
    · exact absurd hs.1 (by simp)
    next hn => exact hn hs
  · rw [((exec_fields hx).2 q).2.1, hm.pc q ht] at he
    simp only [Act.onPc, if_pos, Edit.context] at he
    have hown : (m.pc q).plock q = some q := by
      unfold Pc.entering at he
      split at he <;> simp_all [Pc.plock]
    have hheld' := h.plock (.proc q) q hown
    rw [hheld] at hheld'
    simp only [Option.some.injEq, Holder.thread.injEq] at hheld'
    exact ht hheld'

section

variable (h : LInv lockOf m) (htable : ∀ q, q ∈ table) (hm : Moved lockOf table m t act m₁)
  (hx : m₁.exec t act = some m')
include h htable hm hx

theorem LInv.exec_waker (hw : m'.waker t' = some w) (hq : q ∉ w.rest) : m'.Passed w.chan q := by
  have hw₁ := (exec_places hx t').2.2 w hw
  by_cases ht : t' = t
  · subst ht
    by_cases hself : t' = .proc q
    · exact passed_of_waker (h.exec_fits hm hx q) (hself ▸ hw) _
    · rcases hm.waker w hw₁ with hall | ⟨w₀, hw₀, hchan, hrest⟩
      · exact absurd (htable q) (hall ▸ hq)
      · rw [hchan]
        rcases hrest q hq with hq | hq | rfl
        · exact h.exec_passed hm hx (h.passed t' w₀ hw₀ q hq) fun heq => absurd heq hself
        · exact absurd hq hself
        · exact h.exec_tested hm hx hself
  · rw [(hm.others ht).2.2] at hw₁
    refine h.exec_passed hm hx (h.passed t' w hw₁ q hq) fun _ hg => ht ?_
    have hheld := h.lock t _ hg
    have hheld' := h.lock t' _ (guards_of_waker hw₁)
    rw [hheld, Option.some.injEq] at hheld'
    exact hheld'.symm

theorem LInv.exec : LInv lockOf m' where
  plock _ _ := h.exec_plock hm hx
  sched _ := h.exec_sched hm hx
  lock _ _ := h.exec_lock hm hx
  fits := h.exec_fits hm hx
  below p pc hpc := by
    rcases ((exec_fields hx).2 p).2.2 with hsame | hnil
    · rw [hsame, hm.below] at hpc
      exact h.below p pc hpc
    · simp [hnil] at hpc
  passed _ _ hw _ := h.exec_waker htable hm hx hw

end

end Exec

section Steps

variable [DecidableEq ι] [DecidableEq κ] [DecidableEq Λ] [DecidableEq γ] {act : Act ι κ Λ} {ch : Choice ι κ Λ}
  {p : ι} {x : γ} {pc : Pc ι κ} {w : Option (Wake ι κ)}

theorem moved_proc (h : (m.pc p).step lockOf table p m.slots ch = some (act, pc)) :
    Moved lockOf table m (.proc p) act { m with pc := update m.pc p pc } where
  slots := rfl
  sched := rfl
  plock := rfl
  lock := rfl
  below := rfl
  pc q hq := update_of_ne (fun heq => hq (by rw [heq])) ..
  cpu _ _ := rfl
  brackets := by simpa [Machine.plockOf] using (Pc.turn h).brackets
  guarded := by simpa [Machine.guards] using (Pc.turn h).guarded
  foreign q e hact hq := (Pc.turn h).foreign q e hact fun heq => hq (by rw [heq])
  turn q hq := by
    cases hq
    simpa using Pc.turn h
  waker w' hw := by
    simp only [Machine.waker, update_self] at hw
    split at hw
    next w'' =>
      cases hw
      rcases Pc.step_to_wakeup h with hrest | ⟨w, hpc, hw⟩
      · exact .inl hrest
      · have hturn := Wake.turn lockOf hw
        refine .inr ⟨w, by simp [Machine.waker, hpc], hturn.chan, fun q hq => ?_⟩
        simpa [eq_comm] using hturn.rest q hq
    next => simp at hw

theorem cpuStep_cases (h : cpuStep lockOf table w₀ ch = some (act, w)) :
    (w = none ∧ w₀.bind Wake.plock = none ∧ (act = .skip ∨ ∃ l, act = .take l ∨ act = .drop l)) ∨
    (∃ c, w₀ = none ∧ w = some (.scan c table) ∧ act = .holding (lockOf c)) ∨
    ∃ w₁ w', w₀ = some w₁ ∧ w = some w' ∧ w₁.step none = some (act, w') := by
  rcases w₀ with _ | (⟨c, _ | ⟨q, rest⟩⟩ | ⟨c, q, rest⟩ | ⟨c, q, rest⟩)
  · cases ch <;> simp only [cpuStep, Option.some.injEq, Prod.mk.injEq, reduceCtorEq] at h <;>
      obtain ⟨rfl, rfl⟩ := h <;> simp
  · cases ch <;> cases h
    simp [Wake.plock]
  all_goals
    cases ch <;> simp only [cpuStep, Option.map_eq_some_iff, Prod.mk.injEq, reduceCtorEq] at h
    obtain ⟨⟨act, w'⟩, hw, rfl, rfl⟩ := h
    exact .inr (.inr ⟨_, w', rfl, rfl, hw⟩)

theorem moved_cpu (h : cpuStep lockOf table (m.cpu x) ch = some (act, w)) :
    Moved lockOf table m (.cpu x) act { m with cpu := update m.cpu x w } where
  slots := rfl
  sched := rfl
  plock := rfl
  lock := rfl
  below := rfl
  pc _ _ := rfl
  cpu y hy := update_of_ne (fun heq => hy (by rw [heq])) ..
  brackets := by
    simp only [Machine.plockOf, update_self]
    rcases cpuStep_cases h with ⟨rfl, hheld, rfl | ⟨l, rfl | rfl⟩⟩ | ⟨c, hidle, rfl, rfl⟩ | ⟨w₁, w', hw₁, rfl, hw⟩
    · exact hheld.symm
    · exact hheld.symm
    · exact hheld.symm
    · simp [hidle, Act.Brackets, Wake.plock]
    · simpa [hw₁] using (Wake.turn lockOf hw).brackets
  guarded := by
    simp only [Machine.guards, update_self]
    rcases cpuStep_cases h with ⟨rfl, -, rfl | ⟨l, rfl | rfl⟩⟩ | ⟨c, -, rfl, rfl⟩ | ⟨w₁, w', hw₁, rfl, hw⟩
    · exact .inl rfl
    · exact .inl rfl
    · rfl
    · simp [Act.Guarded, Wake.chan]
    · simpa [hw₁] using (Wake.turn lockOf hw).guarded
  foreign q e hact _ := by
    rcases cpuStep_cases h with ⟨-, -, rfl | ⟨l, rfl | rfl⟩⟩ | ⟨c, -, -, rfl⟩ | ⟨w₁, w', -, -, hw⟩
    · simp at hact
    · simp at hact
    · simp at hact
    · simp at hact
    · rw [(Wake.turn lockOf hw).edits q e hact]
      trivial
  turn _ hq := by simp at hq
  waker w' hw' := by
    simp only [Machine.waker, update_self] at hw'
    subst hw'
    rcases cpuStep_cases h with ⟨hnone, -⟩ | ⟨c, -, hscan, -⟩ | ⟨w₁, w'', hw₁, hsome, hw⟩
    · simp at hnone
    · simp only [Option.some.injEq] at hscan
      exact .inl (by rw [hscan, Wake.rest])
    · cases hsome
      have hturn := Wake.turn lockOf hw
      refine .inr ⟨w₁, hw₁, hturn.chan, fun q hq => ?_⟩
      rcases hturn.rest q hq with hold | hme | hedit
      · exact .inl hold
      · simp at hme
      · exact .inr (.inr hedit)

theorem LInv.redirect (h : LInv lockOf m)
    (hsame : ∀ q, q ≠ p → m'.pc q = m.pc q ∧ m'.slots q = m.slots q ∧ m'.below q = m.below q)
    (hcpu : m'.cpu = m.cpu) (hlock : m'.lock = m.lock) (hrun : (m'.slots p).task.state = .RUNNING)
    (hfits : (m'.pc p).Fits (m'.slots p)) (hguards : (m'.pc p).guards = none)
    (hent : ∀ c, ¬(m'.pc p).entering c) (hbelow : ∀ pc ∈ m'.below p, pc.interruptible = true)
    (hplock : ∀ t q, m'.plockOf t = some q → m'.plock q = some (.thread t))
    (hsched : ∀ q, m'.sched q ≠ .idle → m'.plock q = some .scheduler) : LInv lockOf m' := by
  have hguard : ∀ t c, m'.guards t = some c → m.guards t = some c := by
    intro t c hc
    cases t with
    | proc q =>
      by_cases hq : q = p
      · subst hq
        simp [Machine.guards, hguards] at hc
      · simpa [Machine.guards, (hsame q hq).1] using hc
    | cpu x => simpa [Machine.guards, hcpu] using hc
  refine ⟨hplock, hsched, fun t c hc => ?_, fun q => ?_, fun q => ?_, fun t w hw q hq => ?_⟩
  · rw [hlock]
    exact h.lock t c (hguard t c hc)
  · by_cases hq : q = p
    · exact hq ▸ hfits
    · rw [(hsame q hq).1, (hsame q hq).2.1]
      exact h.fits q
  · by_cases hq : q = p
    · exact hq ▸ hbelow
    · rw [(hsame q hq).2.2]
      exact h.below q
  · have hold : m.waker t = some w := by
      cases t with
      | proc r =>
        have hr : r ≠ p := by
          rintro rfl
          have hg := guards_of_waker hw
          simp [Machine.guards, hguards] at hg
        simpa [Machine.waker, (hsame r hr).1] using hw
      | cpu x => simpa [Machine.waker, hcpu] using hw
    by_cases hq' : q = p
    · subst hq'
      exact ⟨fun hs => by simp [Slot.sleepsOn, hrun] at hs, hent _⟩
    · have hpass := h.passed t w hold q hq
      rwa [Machine.Passed, (hsame q hq').1, (hsame q hq').2.1]

theorem Pc.interruptible_spec (h : pc.interruptible = true) :
    pc.plock p = none ∧ pc.guards = none ∧ (∀ c, ¬pc.entering c) ∧
    ∀ slot, pc.Fits slot ↔ slot.task.state = .RUNNING := by
  revert h
  fun_cases Pc.interruptible pc <;> simp [Pc.plock, Pc.guards, Pc.entering, Pc.Fits]

theorem Pc.resume_spec {pc₀ : Pc ι κ} (h : pc₀.resume = some pc) :
    pc.plock p = some p ∧ pc.guards = none ∧ (∀ c, ¬pc.entering c) ∧
    ∀ slot, pc.Fits slot ↔ slot.task.state = .RUNNING := by
  revert h
  fun_cases Pc.resume pc₀ <;> intro h <;> simp only [Option.some.injEq, reduceCtorEq] at h <;> subst h <;>
    simp [Pc.plock, Pc.guards, Pc.entering, Pc.Fits]

theorem LInv.relocate {below : List (Pc ι κ)} (h : LInv lockOf m) (hpc : pc.interruptible = true)
    (hrun : (m.slots p).task.state = .RUNNING) (hbelow : ∀ pc ∈ below, pc.interruptible = true) :
    LInv lockOf { m with
      pc := update m.pc p pc
      below := update m.below p below } := by
  obtain ⟨hheld, hguards, hent, hfits⟩ := Pc.interruptible_spec (p := p) hpc
  refine h.redirect (p := p) (fun q hq => by simp [update_of_ne hq]) rfl rfl hrun ?_ ?_ ?_ ?_
    (fun t q hq => ?_) h.sched
  · simpa [hfits] using hrun
  · simpa using hguards
  · simpa using hent
  · simpa using hbelow
  · apply h.plock
    cases t with
    | proc r =>
      by_cases hr : r = p
      · subst hr
        simp [Machine.plockOf, hheld] at hq
      · simpa [Machine.plockOf, update_of_ne hr] using hq
    | cpu x => exact hq

section

variable (h : LInv lockOf m)
include h

theorem LInv.update_plock (hp : ∀ t, m.plock p ≠ some (.thread t)) (hq : m.plockOf t = some q)
    (v : Option (Holder ι γ)) : update m.plock p v q = some (.thread t) := by
  have hlock := h.plock t q hq
  have hne : q ≠ p := fun heq => hp t (heq ▸ hlock)
  rw [update_of_ne hne, hlock]

theorem LInv.update_sched (hv : st ≠ .idle → v = some .scheduler) (hq : update m.sched p st q ≠ .idle) :
    update m.plock p v q = some .scheduler := by
  by_cases hqp : q = p
  · subst hqp
    simp only [update_self] at hq ⊢
    exact hv hq
  · simp only [update_of_ne hqp] at hq ⊢
    exact h.sched q hq

theorem LInv.schedule (hs : m.schedule p = some m') : LInv lockOf m' := by
  have hheld : m.sched p ≠ .idle → ∀ t, m.plock p ≠ some (.thread t) := fun hne t => by simp [h.sched p hne]
  revert hs
  fun_cases Machine.schedule m p <;> intro hs
  next hidle hfree =>
    cases hs
    exact ⟨fun t q hq => h.update_plock (by simp [hfree]) hq _, fun q => h.update_sched fun _ => rfl,
      h.lock, h.fits, h.below, h.passed⟩
  next => simp at hs
  next hlocked hrunnable =>
    have hnot := hheld (by simp [hlocked])
    obtain ⟨pc, hpc, rfl⟩ := Option.map_eq_some_iff.mp hs
    obtain ⟨hown, hguards, hent, hfits⟩ := Pc.resume_spec (p := p) hpc
    refine h.redirect (p := p) (fun q hq => by simp [update_of_ne hq]) rfl rfl ?_ ?_ ?_ ?_ (h.below p)
      (fun t q hq => ?_) fun q => h.update_sched (by simp)
    · simp [Edit.run]
    · simp [hfits, Edit.run]
    · simpa using hguards
    · simpa using hent
    · cases t with
      | proc r =>
        by_cases hr : r = p
        · subst hr
          simp only [Machine.plockOf, update_self, hown, Option.some.injEq] at hq
          simp [← hq]
        · simp only [Machine.plockOf, update_of_ne hr] at hq
          exact h.update_plock (t := .proc r) hnot hq _
      | cpu x => exact h.update_plock (t := .cpu x) hnot hq _
  next hlocked _ =>
    cases hs
    refine ⟨h.plock, fun q hq => ?_, h.lock, h.fits, h.below, h.passed⟩
    rw [← h.update_sched (v := m.plock p) (fun _ => h.sched p (by simp [hlocked])) hq, update_eq_self]
  next hunlock =>
    cases hs
    exact ⟨fun t q hq => h.update_plock (hheld (by simp [hunlock])) hq _, fun q => h.update_sched (by simp),
      h.lock, h.fits, h.below, h.passed⟩

end

theorem LInv.step (htable : ∀ q, q ∈ table) (h : LInv lockOf m) (hs : m.Step lockOf table m') :
    LInv lockOf m' := by
  obtain ⟨e, he⟩ := hs
  revert he
  fun_cases Machine.next lockOf table m e <;> intro he
  next p ch act pc hstep => exact h.exec htable (moved_proc hstep) he
  next => simp at he
  next x ch act w hstep => exact h.exec htable (moved_cpu hstep) he
  next => simp at he
  next p hint =>
    cases he
    have hrun := ((Pc.interruptible_spec (p := p) hint).2.2.2 _).mp (h.fits p)
    refine h.relocate rfl hrun fun pc hpc => ?_
    rcases List.mem_cons.mp hpc with rfl | hpc
    · exact hint
    · exact h.below p pc hpc
  next => simp at he
  next p pc below hbelow hpc =>
    cases he
    have hmem : ∀ pc' ∈ pc :: below, pc'.interruptible = true := hbelow ▸ h.below p
    have hrun : (m.slots p).task.state = .RUNNING := by
      have hfits := h.fits p
      rwa [hpc] at hfits
    exact h.relocate (hmem pc (by simp)) hrun fun pc' hpc' => hmem pc' (by simp [hpc'])
  next => simp at he
  next p => exact h.schedule he

end Steps

section Wakeup

variable [DecidableEq ι] [DecidableEq κ] [DecidableEq Λ] [DecidableEq γ]

theorem linv_start (h : m.Start) : LInv lockOf m := by
  obtain ⟨hslots, hcpu, hlock⟩ := h
  refine ⟨fun t q hq => ?_, fun p hp => ?_, fun t c hc => ?_, fun p => ?_, fun p pc hpc => ?_, fun t w hw => ?_⟩
  · cases t with
    | proc p => simp [Machine.plockOf, (hslots p).2.1, Pc.plock] at hq
    | cpu x => simp [Machine.plockOf, hcpu] at hq
  · exact absurd (hslots p).2.2.2.1 hp
  · cases t with
    | proc p => simp [Machine.guards, (hslots p).2.1, Pc.guards] at hc
    | cpu x => simp [Machine.guards, hcpu] at hc
  · rw [(hslots p).2.1]
    rcases (hslots p).1 with hstate | hstate
    · exact .inl hstate
    · exact .inr (.inr hstate)
  · simp [(hslots p).2.2.1] at hpc
  · cases t with
    | proc p => simp [Machine.waker, (hslots p).2.1] at hw
    | cpu x => simp [Machine.waker, hcpu] at hw

theorem linv_reach (htable : ∀ q, q ∈ table)
    (h : Reach Machine.Start (Machine.Step lockOf table (γ := γ)) m) : LInv lockOf m :=
  h.invariant (fun _ => linv_start) fun _ _ _ hinv hs => hinv.step htable hs

theorem Pc.Fits.not_unused (h : (Pc.sleep c s : Pc ι κ).Fits slot) :
    slot.task.state ≠ .UNUSED := by
  cases s <;> simp only [Pc.Fits] at h
  case off => rcases h with ⟨hs, -⟩ | hs <;> simp [hs]
  case setState | switch => simp [h.1]
  all_goals simp [h]

theorem LInv.sleep_pc
    (h : LInv lockOf m) (hm : Moved lockOf table m t act m₁) (hx : m₁.exec t act = some m') (ht : t ≠ .proc p)
    (hpc : m.pc p = .sleep c s) : m'.pc p = .sleep c s := by
  rw [((exec_fields hx).2 p).2.1, hm.pc p ht, hpc]
  rcases act.onPc_cases p (.sleep c s) with hsame | ⟨-, pid, hact⟩
  · exact hsame
  · have hfits := h.fits p
    rw [hpc] at hfits
    exact absurd (hm.foreign p _ hact ht) hfits.not_unused

theorem schedule_pc (h : m.schedule q = some m') :
    m'.pc p = m.pc p ∨ ∃ pc, (m.pc p).resume = some pc ∧ m'.pc p = pc := by
  revert h
  fun_cases Machine.schedule m q <;> intro h
  next => exact .inl (by cases h; rfl)
  next => simp at h
  next =>
    obtain ⟨pc, hpc, rfl⟩ := Option.map_eq_some_iff.mp h
    by_cases hq : p = q
    · subst hq
      exact .inr ⟨pc, hpc, update_self ..⟩
    · exact .inl (update_of_ne hq ..)
  next => exact .inl (by cases h; rfl)
  next => exact .inl (by cases h; rfl)

-- The only step out of sleep(c, lk) takes lk; an interrupt is not a step out of it.
theorem LInv.sleep_returns (h : LInv lockOf m)
    (hpc : m.pc p = .sleep c s) (he : m.next lockOf table e = some m') (hout : ∀ s', m'.pc p ≠ .sleep c s')
    (hbelow : m'.below p = m.below p) : m'.lock (lockOf c) = some (.proc p) := by
  revert he
  fun_cases Machine.next lockOf table m e <;> intro he
  next q ch act pc hstep =>
    by_cases hq : q = p
    · subst hq
      rw [hpc] at hstep
      cases ch <;> simp only [Pc.step, reduceCtorEq] at hstep
      cases s with
      | retake =>
        cases hstep
        simp only [Machine.exec, Option.ite_none_right_eq_some, Option.some.injEq] at he
        rw [← he.2]
        exact update_self ..
      | _ => cases hstep <;> simp [((exec_fields he).2 q).2.1, Act.onPc, Edit.context] at hout
    · exact absurd (h.sleep_pc (moved_proc hstep) he (by simp [hq]) hpc) (hout s)
  next => simp at he
  next x ch act w hstep => exact absurd (h.sleep_pc (moved_cpu hstep) he (by simp) hpc) (hout s)
  next => simp at he
  next q _ =>
    cases he
    by_cases hq : p = q
    · subst hq
      simp at hbelow
    · exact absurd (by simp [update_of_ne hq, hpc]) (hout s)
  next => simp at he
  next q pc below _ hrun =>
    cases he
    by_cases hq : p = q
    · subst hq
      simp [hpc] at hrun
    · exact absurd (by simp [update_of_ne hq, hpc]) (hout s)
  next => simp at he
  next q =>
    rcases schedule_pc (p := p) he with hsame | ⟨pc, hresume, hnew⟩
    · exact absurd (hsame.trans hpc) (hout s)
    · rw [hpc] at hresume
      cases s <;> cases hresume
      exact absurd hnew (hout .tidy)

-- When a wakeup(c), called with the lock of c held, has been through the table, no process
-- sleeps on c. And sleep() comes back to its caller with the lock held.
theorem no_lost_wakeup (lockOf : κ → Λ) (table : List ι) (htable : ∀ q, q ∈ table) (m : Machine ι κ Λ γ)
    (h : Reach Machine.Start (Machine.Step lockOf table) m) :
    (∀ t c, m.waker t = some (.scan c []) →
      m.lock (lockOf c) = some t ∧ ∀ p, ¬SleepsOn (fun q => (m.slots q).task) p c) ∧
    ∀ p c s e m', m.pc p = .sleep c s → m.next lockOf table e = some m' → (∀ s', m'.pc p ≠ .sleep c s') →
      m'.below p = m.below p → m'.lock (lockOf c) = some (.proc p) := by
  have hinv := linv_reach htable h
  exact ⟨fun t c hw => ⟨hinv.lock t c (guards_of_waker hw), fun p =>
    (hinv.passed t _ hw p (by simp [Wake.rest])).1⟩, fun p c s e m' => hinv.sleep_returns⟩

def sampleMachine : List (Event (Fin 2) Unit Unit Unit) → Option (Machine (Fin 2) Unit Unit Unit) :=
  List.foldlM (fun m e => m.next (fun _ => ()) [0, 1] e) {
    slots := fun _ => { task := { state := .RUNNABLE, chan := none, killed := false }, pid := 1 }
    pc := fun _ => .new
    below := fun _ => []
    cpu := fun _ => none
    sched := fun _ => .idle
    plock := fun _ => none
    lock := fun _ => none }

def sampleStart (p : Fin 2) : List (Event (Fin 2) Unit Unit Unit) :=
  [.schedule p, .schedule p, .proc p .go, .proc p (.acquire ())]

-- The first process sleeps, and the second wakes it.
def sampleWakeup : List (Event (Fin 2) Unit Unit Unit) :=
  sampleStart 0 ++ .proc 0 (.sleep ()) :: List.replicate 5 (.proc 0 .go) ++ .schedule 0 ::
    sampleStart 1 ++ .proc 1 (.wakeup ()) :: List.replicate 4 (.proc 1 .go)

theorem no_lost_wakeup_sample : ∃ m : Machine (Fin 2) Unit Unit Unit,
    (m.pc 0 = .sleep () .off ∧ m.waker (.proc 1) = some (.scan () [])) ∧
    ∀ p, ¬SleepsOn (fun q => (m.slots q).task) p () := by
  obtain ⟨m, hm, hres⟩ : ∃ m, sampleMachine sampleWakeup = some m ∧ m.pc 0 = .sleep () .off ∧ m.waker (.proc 1) =
      some (.scan () []) :=
    exists_of_any (by decide +kernel)
  have hreach : Reach Machine.Start (Machine.Step (fun _ => ()) [0, 1]) m :=
    Reach.foldlM (fun s e t hn => ⟨e, hn⟩) (.start (by simp [Machine.Start])) hm
  exact ⟨m, hres, ((no_lost_wakeup (fun _ => ()) [0, 1] (by decide) m hreach).1 _ _ hres.2).2⟩

end Wakeup

end Xv6.Sched
