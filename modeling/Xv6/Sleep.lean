import Xv6.Params

namespace Xv6

open Function

-- enum procstate of kernel/proc.h.
inductive ProcState where
  | UNUSED | USED | SLEEPING | RUNNABLE | RUNNING | ZOMBIE
  deriving DecidableEq, Repr

-- The fields of struct proc that sleep(), wakeup() and kill() use. `κ` are the
-- wait channels; none is the null channel.
structure Task (κ : Type) where
  state : ProcState
  chan : Option κ
  killed : Bool
  deriving DecidableEq

variable {ι κ : Type}

def SleepsOn (procs : ι → Task κ) (p : ι) (c : κ) : Prop :=
  (procs p).state = .SLEEPING ∧ (procs p).chan = some c

instance [DecidableEq κ] (procs : ι → Task κ) (p : ι) (c : κ) : Decidable (SleepsOn procs p c) :=
  inferInstanceAs (Decidable (_ ∧ _))

variable [DecidableEq ι]

-- sleep(chan, lk) up to the switch to the scheduler. It is called with lk held
-- and takes p->lock before it releases lk, so that no wakeup falls in between.
def sleep (procs : ι → Task κ) (p : ι) (c : κ) : ι → Task κ :=
  update procs p { procs p with state := .SLEEPING, chan := some c }

-- The rest of sleep(), once the scheduler has switched back to the process.
def awaken (procs : ι → Task κ) (p : ι) : ι → Task κ :=
  update procs p { procs p with chan := none }

def wakeup [DecidableEq κ] (procs : ι → Task κ) (me : ι) (c : κ) : ι → Task κ := fun p =>
  if p ≠ me ∧ SleepsOn procs p c then { procs p with state := .RUNNABLE } else procs p

-- kill() on the slot that has the pid it looks for.
def kill (procs : ι → Task κ) (p : ι) : ι → Task κ :=
  update procs p { procs p with
    killed := true
    state := if (procs p).state = .SLEEPING then .RUNNABLE else (procs p).state }

def setState (procs : ι → Task κ) (p : ι) (st : ProcState) : ι → Task κ :=
  update procs p { procs p with state := st }

variable {procs : ι → Task κ} {p q : ι} {c d : κ}

theorem sleepsOn_sleep :
    SleepsOn (sleep procs p c) q d ↔ (q = p ∧ c = d) ∨ (q ≠ p ∧ SleepsOn procs q d) := by
  by_cases hq : q = p
  · subst hq
    simp [SleepsOn, sleep]
  · simp [SleepsOn, sleep, hq]

theorem sleepsOn_wakeup [DecidableEq κ] :
    SleepsOn (wakeup procs p c) q d ↔ SleepsOn procs q d ∧ (q = p ∨ c ≠ d) := by
  by_cases h : q ≠ p ∧ SleepsOn procs q c
  · have hw : wakeup procs p c q = { procs q with state := .RUNNABLE } := if_pos h
    obtain ⟨hne, -, hc⟩ := h
    simp [SleepsOn, hw, hne, hc]
  · have hw : wakeup procs p c q = procs q := if_neg h
    simp only [SleepsOn, hw]
    refine ⟨fun hs => ⟨hs, ?_⟩, fun hs => hs.1⟩
    by_contra hn
    simp only [not_or, not_not] at hn
    exact h ⟨hn.1, hn.2 ▸ hs⟩

theorem SleepsOn.of_awaken (h : SleepsOn (awaken procs p) q d) : SleepsOn procs q d := by
  by_cases hq : q = p
  · subst hq
    simp [SleepsOn, awaken] at h
  · simpa [SleepsOn, awaken, hq] using h

theorem SleepsOn.of_kill (h : SleepsOn (kill procs p) q d) : SleepsOn procs q d := by
  by_cases hq : q = p
  · subst hq
    simp only [SleepsOn, kill, update_self] at h
    split_ifs at h with hs
    · exact absurd h.1 (by simp)
    · exact h
  · simpa [SleepsOn, kill, hq] using h

theorem SleepsOn.of_setState (h : SleepsOn (setState procs p st) q d) (hst : st ≠ .SLEEPING) :
    SleepsOn procs q d := by
  by_cases hq : q = p
  · subst hq
    simp [SleepsOn, setState, hst] at h
  · simpa [SleepsOn, setState, hq] using h

-- No process sleeps on a channel whose condition does not call for it.
def Justified (procs : ι → Task κ) (cond : κ → Prop) : Prop := ∀ p c, SleepsOn procs p c → cond c

variable {cond cond' : κ → Prop}

theorem Justified.sleep (h : Justified procs cond) (hc : cond c) :
    Justified (sleep procs p c) cond := by
  intro q d hs
  rcases sleepsOn_sleep.mp hs with ⟨-, rfl⟩ | ⟨-, hs⟩
  · exact hc
  · exact h q d hs

theorem Justified.wakeup [DecidableEq κ] (h : Justified procs cond) (hme : (procs p).state ≠ .SLEEPING)
    (himp : ∀ d, d ≠ c → cond d → cond' d) : Justified (wakeup procs p c) cond' := by
  intro q d hs
  obtain ⟨hold, hor⟩ := sleepsOn_wakeup.mp hs
  rcases hor with hq | hne
  · exact absurd (hq ▸ hold.1) hme
  · exact himp d (Ne.symm hne) (h q d hold)

end Xv6
