import Mathlib.Tactic.Common
import Mathlib.Logic.Relation

namespace Xv6.Lib

variable {σ : Type*}

inductive Reach (start : σ → Prop) (step : σ → σ → Prop) : σ → Prop
  | start {s : σ} (h : start s) : Reach start step s
  | step {s t : σ} (h : Reach start step s) (hs : step s t) : Reach start step t

variable {start : σ → Prop} {step step' : σ → σ → Prop}

-- The invariant rule. The step case may use that the state before is reachable.
theorem Reach.invariant {I : σ → Prop} (hstart : ∀ s, start s → I s)
    (hstep : ∀ s t, Reach start step s → I s → step s t → I t) (h : Reach start step s) : I s := by
  induction h with
  | start h => exact hstart _ h
  | step h hs ih => exact hstep _ _ h ih hs

theorem Reach.mono (hle : ∀ s t, step s t → step' s t) (h : Reach start step s) :
    Reach start step' s := by
  induction h with
  | start h => exact .start h
  | step _ hs ih => exact .step ih (hle _ _ hs)

theorem Reach.steps (h : Reach start step s) (hs : Relation.ReflTransGen step s t) :
    Reach start step t := by
  induction hs with
  | refl => exact h
  | tail _ hs ih => exact .step ih hs

-- Systems whose steps are events: a list of events, each possible when its turn comes.
def Admits {ε : Type*} (enabled : σ → ε → Prop) (next : σ → ε → σ) : σ → List ε → Prop
  | _, [] => True
  | s, e :: events => enabled s e ∧ Admits enabled next (next s e) events

instance Admits.decidable {ε : Type*} (enabled : σ → ε → Prop) (next : σ → ε → σ)
    [∀ s e, Decidable (enabled s e)] : ∀ s events, Decidable (Admits enabled next s events)
  | _, [] => inferInstanceAs (Decidable True)
  | s, e :: events =>
    have := Admits.decidable enabled next (next s e) events
    inferInstanceAs (Decidable (_ ∧ _))

theorem Reach.foldl {ε : Type*} {enabled : σ → ε → Prop} {next : σ → ε → σ}
    (hstep : ∀ s e, enabled s e → step s (next s e)) {events : List ε} (h : Reach start step s)
    (ha : Admits enabled next s events) : Reach start step (events.foldl next s) := by
  induction events generalizing s with
  | nil => exact h
  | cons e events ih => exact ih (.step h (hstep s e ha.1)) ha.2

theorem Reach.foldlM {ε : Type*} {next : σ → ε → Option σ} (hstep : ∀ s e t, next s e = some t → step s t)
    {events : List ε} (h : Reach start step s) (hr : events.foldlM next s = some t) : Reach start step t := by
  induction events generalizing s with
  | nil =>
    simp only [List.foldlM_nil, Option.pure_def, Option.some.injEq] at hr
    exact hr ▸ h
  | cons e events ih =>
    rw [List.foldlM_cons] at hr
    obtain ⟨u, hu, hr⟩ := Option.bind_eq_some_iff.mp hr
    exact ih (.step h (hstep s e u hu)) hr

-- Systems whose events can fail: the state after a list of them.
def runs {ε π : Type*} (enabled : σ → ε → Prop) [∀ s e, Decidable (enabled s e)]
    (next : σ → ε → Except π σ) : σ → List ε → Option σ
  | s, [] => some s
  | s, e :: events =>
    if enabled s e then
      match next s e with
      | .ok t => runs enabled next t events
      | .error _ => none
    else none

theorem Reach.runs {ε π : Type*} {enabled : σ → ε → Prop} [∀ s e, Decidable (enabled s e)]
    {next : σ → ε → Except π σ} {events : List ε}
    (hstep : ∀ e ∈ events, ∀ s t, enabled s e → next s e = .ok t → step s t) (h : Reach start step s)
    (hr : runs enabled next s events = some t) : Reach start step t := by
  induction events generalizing s with
  | nil =>
    simp only [Lib.runs, Option.some.injEq] at hr
    exact hr ▸ h
  | cons e events ih =>
    simp only [Lib.runs] at hr
    split at hr
    next he =>
      cases hn : next s e with
      | error err => simp [hn] at hr
      | ok u =>
        simp only [hn] at hr
        exact ih (fun e' he' => hstep e' (by simp [he'])) (.step h (hstep e (by simp) s u he hn)) hr
    next => simp at hr

-- A run that can be evaluated: its last state, with what was checked of it.
theorem exists_of_any [DecidablePred p] {o : Option σ} (h : o.any (fun s => decide (p s)) = true) :
    ∃ s, o = some s ∧ p s := by
  obtain ⟨s, hs, hp⟩ := (Option.any_eq_true ..).mp h
  exact ⟨s, hs, of_decide_eq_true hp⟩

end Xv6.Lib
