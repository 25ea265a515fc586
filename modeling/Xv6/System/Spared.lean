import Xv6.Proc.Effects
import Xv6.System.Ordinary

namespace Xv6

open Lib

variable {L : Layout} {used : List Nat} {k k' : Kernel} {p q : Fin NPROC} {tasks : Fin NPROC → Task Chan}

-- Without kill(), only a fault marks a process as killed, and it exits at once.
def Spared (tasks : Fin NPROC → Task Chan) (q : Fin NPROC) : Prop :=
  (tasks q).killed = true → (tasks q).state = .ZOMBIE

theorem Spared.update (h : q ≠ p → Spared tasks q) (ht : q = p → task.killed = true → task.state = .ZOMBIE) :
    Spared (Function.update tasks p task) q := by
  by_cases hq : q = p
  · subst hq
    rw [Spared, Function.update_self]
    exact ht rfl
  · rw [Spared, Function.update_of_ne hq]
    exact h hq

theorem Spared.wakeupProc (h : Spared tasks q) (me : Fin NPROC) (c : Option (Fin NPROC)) :
    Spared (wakeupProc tasks me c) q := by
  cases c with
  | none => exact h
  | some c =>
    rw [Spared, Xv6.wakeupProc, wakeup]
    split
    next hs =>
      intro hk
      have hzombie := h hk
      rw [hs.2.1] at hzombie
      simp at hzombie
    next => exact h

theorem Spared.reparent (h : Spared k.tasks q) (p : Fin NPROC) : Spared (reparent p k).tasks q := by
  rw [Xv6.reparent]
  generalize List.finRange NPROC = slots
  induction slots generalizing k with
  | nil => exact h
  | cons pp slots ih =>
    refine ih (k := reparentOne p k pp) ?_
    rw [reparentOne]
    split
    · exact h.wakeupProc _ _
    · exact h

theorem spared_exit (hok : exit p status k = .ok k') (h : ∀ q, q ≠ p → Spared k.tasks q) : Spared k'.tasks q := by
  simp only [exit] at hok
  split at hok
  · simp at hok
  · rw [Except.ok.injEq] at hok
    rw [← hok]
    exact .update (fun hq => ((h q hq).reparent p).wakeupProc _ _) fun _ _ => rfl

theorem spared_freed (h : q ≠ p → Spared k.tasks q) (s : Phys) : Spared (k.freed p s).tasks q :=
  .update h fun _ hk => by simp at hk

theorem spared_taken (h : ∀ q, Spared k.tasks q) (hslot : unusedSlot k = some p) (s : Phys) (state : ProcState)
    (proc : Proc) : Spared (k.taken p s state proc).tasks q := by
  refine .update (fun _ => h q) fun _ hk => ?_
  have hzombie := h p hk
  simp [unusedSlot_spec hslot] at hzombie

theorem spared_fork (h : ∀ q, Spared k.tasks q) (hok : fork L p k = .ok (r, k')) (q : Fin NPROC) : Spared k'.tasks q := by
  rcases fork_effect hok with ⟨-, -, rfl⟩ | ⟨np, hslot, ⟨-, s, rfl⟩ | ⟨-, s, proc, -, -, rfl⟩⟩
  · exact h q
  · exact spared_freed (fun _ => h q) s
  · exact spared_taken h hslot s _ proc

theorem spared_pageFault (h : ∀ q, Spared k.tasks q) (hok : pageFault L p va k = .ok k') (q : Fin NPROC) :
    Spared k'.tasks q := by
  obtain ⟨⟨pa, s⟩, -, hok⟩ := bind_eq_ok.mp hok
  simp only at hok
  split at hok
  next => exact spared_exit hok fun q hq => .update (fun _ => h q) fun hqp => absurd hqp hq
  next hkilled =>
    rw [pure_eq_ok, Except.ok.injEq] at hok
    rw [← hok]
    exact .update (fun _ => h q) fun _ hk => absurd hk hkilled

theorem spared_wait (h : ∀ q, Spared k.tasks q) (hp : (k.tasks p).state = .RUNNING)
    (hok : wait L p addr k = .ok (r, k')) (q : Fin NPROC) : Spared k'.tasks q := by
  rcases wait_effect hok with ⟨pp, s, -, rfl⟩ | ⟨s, rfl⟩ | ⟨-, rfl⟩
  · exact spared_freed (fun _ => h q) s
  · exact h q
  · refine .update (fun _ => h q) fun _ hk => ?_
    have hzombie := h p hk
    simp [hp] at hzombie

theorem spared_setState (h : Spared k.tasks q) (hp : (k.tasks p).state ≠ .ZOMBIE) (hpq : q = p → Spared k.tasks p) :
    Spared (setState k.tasks p st) q :=
  .update (fun _ => h) fun hq hk => absurd (hpq hq hk) hp

theorem spared_next (h : ∀ q, Spared k.tasks q) (he : e.enabled k) (hb : Bounded k e)
    (hok : e.next L k = .ok k') (q : Fin NPROC) : Spared k'.tasks q := by
  cases e with
  | call p c =>
    cases c with
    | sbrk n =>
      obtain ⟨⟨r, j⟩, hj, hok⟩ := bind_eq_ok.mp hok
      rw [return_eq_ok] at hok
      obtain ⟨s, proc, -, rfl⟩ := sbrk_effect hj
      exact hok ▸ h q
    | fork =>
      obtain ⟨⟨r, j⟩, hj, hok⟩ := bind_eq_ok.mp hok
      rw [return_eq_ok] at hok
      exact hok ▸ spared_fork h hj q
    | exec file args =>
      obtain ⟨⟨r, j⟩, hj, hok⟩ := bind_eq_ok.mp hok
      rw [return_eq_ok] at hok
      obtain ⟨s, proc, -, rfl⟩ := exec_effect hj
      exact hok ▸ h q
    | exit status => exact spared_exit hok fun q _ => h q
    | wait addr =>
      obtain ⟨⟨r, j⟩, hj, hok⟩ := bind_eq_ok.mp hok
      rw [return_eq_ok] at hok
      exact hok ▸ spared_wait h he hj q
    | shmGet => exact hb.elim
    | fault va => exact spared_pageFault h hok q
    | copyin srcva len | copyout dstva src =>
      obtain ⟨res, -, hok⟩ := bind_return_eq_ok.mp hok
      rw [← hok]
      exact h q
  | schedule p =>
    simp only [Event.next, Except.ok.injEq] at hok
    have hp : (k.tasks p).state = .RUNNABLE := he
    rw [← hok]
    exact spared_setState (h q) (by simp [hp]) fun _ => h p
  | yield p =>
    simp only [Event.next, Except.ok.injEq] at hok
    have hp : (k.tasks p).state = .RUNNING := he
    rw [← hok]
    exact spared_setState (h q) (by simp [hp]) fun _ => h p

theorem spared_start (h : Start L used k) (q : Fin NPROC) : Spared k.tasks q := by
  obtain ⟨s, -, hinit⟩ := h
  obtain ⟨np, t, proc, hslot, -, rfl⟩ := userinit_effect hinit
  have hboot : ∀ q, Spared (bootKernel s).tasks q := fun q hk => by simp [bootKernel] at hk
  exact spared_taken hboot hslot t _ proc

theorem bounded_spared (h : Reach (Start L used) (Step L Bounded) k) : ∀ q, Spared k.tasks q := by
  induction h with
  | start h => exact spared_start h
  | step _ hs ih =>
    obtain ⟨e, he, hb, hok⟩ := hs
    exact spared_next ih he hb hok

end Xv6
