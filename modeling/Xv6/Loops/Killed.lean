import Xv6.Loops
import Xv6.Slots.Clean

namespace Xv6

open Lib

section Turn

variable {L : Layout} {chan : Waited → Nat} {p : Fin NPROC} {w w' : Waits} {o : Outcome}

theorem semDownTurn_eq_downLoop [DecidableEq ι] {q : ι} {i : Fin Sem.MAX_SEM} {k : Sem.Kernel ι}
    (hsems : w.sems = k.sems) :
    ((semDownTurn chan p i w).1 = .asleep ↔ (Sem.downLoop q i k).1 = none) ∧
    (semDownTurn chan p i w).2.sems = (Sem.downLoop q i k).2.sems := by
  rw [semDownTurn, Sem.downLoop, hsems]
  split
  · exact ⟨by simp, hsems⟩
  · simp

-- Nothing but sleep() and exit() take a running process off its state.
def StaysAwake (p : Fin NPROC) (w w' : Waits) : Prop :=
  (w'.kernel.tasks p).state = (w.kernel.tasks p).state

theorem StaysAwake.trans (h : StaysAwake p w w₁) (h' : StaysAwake p w₁ w₂) : StaysAwake p w w₂ :=
  Eq.trans h' h

theorem staysAwake_wakeup (v : Waited) : StaysAwake p w (w.wakeup chan p v) := by
  simp [StaysAwake, Waits.wakeup, Waits.setTasks, Xv6.wakeup]

theorem staysAwake_copyout (h : w.copyout L p dst byte = .ok (r, w')) :
    StaysAwake p w w' := by
  obtain ⟨res, -, hres⟩ := bind_eq_ok.mp h
  rw [return_pair_eq_ok] at hres
  rw [← hres.2]
  rfl

theorem staysAwake_pipereadCopy (h : pipereadCopy L p pi addr turns i w = .ok (j, w')) : StaysAwake p w w' := by
  induction turns generalizing i w with
  | zero =>
    simp only [pipereadCopy, Except.ok.injEq, Prod.mk.injEq] at h
    rw [StaysAwake, ← h.2]
  | succ turns ih =>
    rw [pipereadCopy] at h
    dsimp only at h
    split at h
    · simp only [Except.ok.injEq, Prod.mk.injEq] at h
      rw [StaysAwake, ← h.2]
    · obtain ⟨⟨r, w₁⟩, hout, h⟩ := bind_eq_ok.mp h
      have hawake := staysAwake_copyout hout
      dsimp only at h
      split at h
      · rw [return_pair_eq_ok] at h
        exact h.2 ▸ hawake
      · exact StaysAwake.trans hawake (ih h)

theorem pipereadTurn_awake (hk : (w.kernel.tasks p).killed = true)
    (h : pipereadTurn L chan p pi addr n w = .ok (o, w')) : StaysAwake p w w' := by
  rw [pipereadTurn] at h
  split at h
  · rw [if_pos (by exact hk)] at h
    simp only [Except.ok.injEq, Prod.mk.injEq] at h
    rw [StaysAwake, ← h.2]
  · obtain ⟨⟨i, w₁⟩, hcopy, h⟩ := bind_eq_ok.mp h
    rw [return_pair_eq_ok] at h
    rw [← h.2]
    exact (staysAwake_pipereadCopy hcopy).trans (staysAwake_wakeup _)

theorem pipewriteTurn_awake (hk : (w.kernel.tasks p).killed = true)
    (h : pipewriteTurn L chan p pi addr i n w = .ok (o, w')) : StaysAwake p w w' := by
  rw [pipewriteTurn] at h
  split at h
  · simp only [Except.ok.injEq, Prod.mk.injEq] at h
    rw [← h.2]
    exact staysAwake_wakeup _
  · rw [if_pos (by exact Or.inr hk)] at h
    simp only [Except.ok.injEq, Prod.mk.injEq] at h
    rw [StaysAwake, ← h.2]

theorem sysSleepTurn_awake (chan : Waited → Nat) (ticks0 : Nat) (n : Int) (hk : (w.kernel.tasks p).killed = true) :
    StaysAwake p w (sysSleepTurn chan p ticks0 n w).2 := by
  rw [sysSleepTurn]
  split
  · rw [if_pos (by exact hk)]
    rfl
  · rfl

theorem consolereadTurn_awake (hk : (w.kernel.tasks p).killed = true)
    (h : consolereadTurn L chan p dst target n w = .ok (o, w')) : StaysAwake p w w' := by
  rw [consolereadTurn] at h
  dsimp only at h
  split at h
  · simp only [Except.ok.injEq, Prod.mk.injEq] at h
    rw [StaysAwake, ← h.2]
  split at h
  · rw [if_pos (by exact hk)] at h
    simp only [Except.ok.injEq, Prod.mk.injEq] at h
    rw [StaysAwake, ← h.2]
  split at h
  · simp only [Except.ok.injEq, Prod.mk.injEq] at h
    rw [StaysAwake, ← h.2]
    split <;> rfl
  · obtain ⟨⟨r, w₁⟩, hout, h⟩ := bind_eq_ok.mp h
    have hawake := staysAwake_copyout hout
    have hw : w' = w₁ := by
      dsimp only at h
      split_ifs at h <;>
      · rw [return_pair_eq_ok] at h
        exact h.2.symm
    exact hw ▸ hawake

theorem waitTurn_awake (hk : (w.kernel.tasks p).killed = true)
    (hrun : (w.kernel.tasks p).state = .RUNNING) (h : waitTurn L p addr w = .ok (o, w')) :
    StaysAwake p w w' := by
  obtain ⟨⟨r, k⟩, hwait, h⟩ := bind_eq_ok.mp h
  rw [return_pair_eq_ok] at h
  rw [StaysAwake, ← h.2]
  rcases wait_effect hwait with ⟨pp, s, hz, rfl⟩ | ⟨s, rfl⟩ | ⟨hkilled, -⟩
  · have hne : p ≠ pp := fun heq => by simp [heq, hz] at hrun
    exact congrArg Task.state (w.kernel.freed_of_ne s hne).1
  · rfl
  · simp [hkilled] at hk

theorem turn_awake {loop : WaitLoop} (hk : (w.kernel.tasks p).killed = true)
    (hrun : (w.kernel.tasks p).state = .RUNNING) (hloop : ∀ i, loop = .semDown i → 0 < (w.sems i).count)
    (h : loop.turn L chan p w = .ok (o, w')) : StaysAwake p w w' := by
  cases loop with
  | semDown i =>
    have hpos := hloop i rfl
    simp only [WaitLoop.turn, semDownTurn, if_neg (show ¬(w.sems i).count ≤ 0 by omega), Except.ok.injEq,
      Prod.mk.injEq] at h
    rw [StaysAwake, ← h.2]
  | piperead pi addr n => exact pipereadTurn_awake hk h
  | pipewrite pi addr i n => exact pipewriteTurn_awake hk h
  | wait addr => exact waitTurn_awake hk hrun h
  | sysSleep ticks0 n =>
    simp only [WaitLoop.turn, Except.ok.injEq] at h
    have hawake := sysSleepTurn_awake chan ticks0 n hk
    rwa [h] at hawake
  | consoleread dst target n => exact consolereadTurn_awake hk h

-- A turn of a wait loop puts a killed process to sleep if it is sem_down()'s, with
-- nothing to take, and in no other case.
theorem killed_stays_awake_iff (L : Layout) (chan : Waited → Nat) (w : Waits) (p : Fin NPROC) (loop : WaitLoop)
    (hrun : (w.kernel.tasks p).state = .RUNNING) (hk : (w.kernel.tasks p).killed = true) :
    (∀ o w', loop.turn L chan p w = .ok (o, w') → (w'.kernel.tasks p).state ≠ .SLEEPING) ↔
    ∀ i, loop = .semDown i → 0 < (w.sems i).count := by
  constructor
  · intro h i hi
    by_contra hcount
    refine h .asleep (w.sleep chan p (.sem i)) ?_ (by simp [Waits.sleep, Waits.setTasks, Xv6.sleep])
    rw [hi, WaitLoop.turn, semDownTurn, if_pos (by omega)]
  · intro hloop o w' h
    rw [turn_awake hk hrun hloop h, hrun]
    simp

end Turn

section Sample

-- The variables laid out one after the other; a pipe has its counters behind its data.
def sampleChan : Waited → Nat
  | .sem i => 32 * i.val
  | .ticks => 3200
  | .consR => 3208
  | .nread pi => pi + 536
  | .nwrite pi => pi + 540

def sampleWaits (events : List WaitEvent) : Option Waits :=
  (sampleRun []).bind fun k =>
    runs (fun w e => e.enabled w) (fun w e => e.next sampleLayout sampleChan w)
      { kernel := k
        sems := fun _ => { count := 0, initialized := false }
        pipes := fun _ => { data := fun _ => 0#8, nread := 0, nwrite := 0, readopen := true, writeopen := true }
        ticks := 0
        cons := { buf := fun _ => 0#8, r := 0, w := 0 } } events

theorem sampleWaits_reach (h : sampleWaits events = some w) :
    Reach (Waits.Start sampleLayout []) (Waits.Step sampleLayout sampleChan) w := by
  obtain ⟨k, hk, hruns⟩ := Option.bind_eq_some_iff.mp h
  exact Reach.runs (fun e _ s t hen hn => ⟨e, hen, hn⟩) (.start ⟨sampleRun_start hk, fun _ => rfl⟩) hruns

-- init's child waits for a semaphore and init kills it.
def sampleKill : List WaitEvent :=
  [.schedule initSlot, .semInit initSlot 0 0, .call initSlot .fork, .schedule ⟨1, one_lt_NPROC⟩,
    .turn ⟨1, one_lt_NPROC⟩ (.semDown 0), .kill initSlot 2, .schedule ⟨1, one_lt_NPROC⟩]

theorem killed_reader_stays_awake : ∃ w : Waits, ∀ o w',
    (WaitLoop.piperead PGSIZE 0 1).turn sampleLayout sampleChan ⟨1, by decide⟩ w = .ok (o, w') →
    (w'.kernel.tasks ⟨1, by decide⟩).state ≠ .SLEEPING := by
  obtain ⟨w, -, hrunning, hk⟩ : ∃ w, sampleWaits sampleKill = some w ∧ (w.kernel.tasks ⟨1, by decide⟩).state =
      .RUNNING ∧ (w.kernel.tasks ⟨1, by decide⟩).killed = true := by
    apply exists_of_any
    decide +kernel
  exact ⟨w, (killed_stays_awake_iff sampleLayout sampleChan w ⟨1, by decide⟩ (.piperead PGSIZE 0 1)
    hrunning hk).mpr fun i hi => by simp at hi⟩

-- Woken by kill(), the child finds the semaphore still at 0 and sleeps on it again.
theorem semDown_ignores_kill : ∃ w w' : Waits,
    Reach (Waits.Start sampleLayout []) (Waits.Step sampleLayout sampleChan) w ∧
    (w.kernel.tasks ⟨1, by decide⟩).state = .RUNNING ∧ (w.kernel.tasks ⟨1, by decide⟩).killed = true ∧
    (WaitLoop.semDown 0).turn sampleLayout sampleChan ⟨1, by decide⟩ w = .ok (.asleep, w') ∧
    SleepsOn w'.kernel.tasks ⟨1, by decide⟩ (.other (sampleChan (.sem 0))) := by
  obtain ⟨w, hw, hrunning, hk, hcount⟩ : ∃ w, sampleWaits sampleKill = some w ∧
      (w.kernel.tasks ⟨1, by decide⟩).state = .RUNNING ∧ (w.kernel.tasks ⟨1, by decide⟩).killed = true ∧
      (w.sems 0).count ≤ 0 := by
    apply exists_of_any
    decide +kernel
  refine ⟨w, w.sleep sampleChan ⟨1, by decide⟩ (.sem 0), sampleWaits_reach hw, hrunning, hk, ?_, ?_⟩
  · rw [WaitLoop.turn, semDownTurn, if_pos hcount]
  · exact sleepsOn_sleep.mpr (.inl ⟨rfl, rfl⟩)

end Sample

end Xv6
