import Xv6.Sem.Theorems

namespace Xv6.Sem

open Lib

variable {ι : Type} [DecidableEq ι] {k : Kernel ι} {sem_id : Int} {i : Fin MAX_SEM}

-- The processes of the list call sem_down() one after the other, and each call returns 0.
def Completes (sem_id : Int) : List ι → Kernel ι → Prop
  | [], _ => True
  | p :: ps, k => (semDown p sem_id k).1 = some 0 ∧ Completes sem_id ps (semDown p sem_id k).2

-- The numbers of sem_down() calls that can complete without a further sem_up().
def CanTake (sem_id : Int) (k : Kernel ι) : Set Nat := {n | ∃ ps, ps.length = n ∧ Completes sem_id ps k}

theorem completes_iff (hid : semIndex sem_id = some i) (hi : (k.sems i).initialized = true)
    (hlt : (k.sems i).count < 0x80000000) (ps : List ι) :
    Completes sem_id ps k ↔ ps.length ≤ (k.sems i).count.toNat := by
  induction ps generalizing k with
  | nil => simp [Completes]
  | cons p ps ih =>
    have hdown : semDown p sem_id k = downLoop p i k := by simp [semDown, hid, hi]
    rw [Completes, hdown, List.length_cons]
    by_cases hc : (k.sems i).count ≤ 0
    · have hblocks : (downLoop p i k).1 = none := by simp [downLoop, hc]
      rw [hblocks]
      simp
      omega
    · -- the unit that the call takes is one less for the others
      have hw : wrap32 ((k.sems i).count - 1) = (k.sems i).count - 1 := wrap32_eq (by omega) (by omega)
      have hnext : ((downLoop p i k).2.sems i) = { k.sems i with count := (k.sems i).count - 1 } := by
        simp [downLoop, hc, setCount, hw]
      have hret : (downLoop p i k).1 = some 0 := by simp [downLoop, hc]
      rw [ih (by rw [hnext]; exact hi) (by rw [hnext]; simp only; omega), hnext]
      simp only [hret, true_and]
      omega

theorem isGreatest_canTake [Nonempty ι] (hid : semIndex sem_id = some i) (hi : (k.sems i).initialized = true)
    (hlt : (k.sems i).count < 0x80000000) : IsGreatest (CanTake sem_id k) (k.sems i).count.toNat := by
  constructor
  · have p : ι := Classical.choice inferInstance
    refine ⟨List.replicate _ p, List.length_replicate, (completes_iff hid hi hlt _).mpr ?_⟩
    rw [List.length_replicate]
  · rintro n ⟨ps, rfl, hps⟩
    exact (completes_iff hid hi hlt ps).mp hps

def InRange (sems : Sems) : Prop := ∀ i, 0 ≤ (sems i).count ∧ (sems i).count < 0x80000000

theorem InRange.setCount (h : InRange sems) (i : Fin MAX_SEM) (hc : 0 ≤ c) (hlt : c < 0x80000000) :
    InRange (setCount sems i c) := by
  intro j
  by_cases hj : j = i
  · subst hj
    simpa [Sem.setCount] using ⟨hc, hlt⟩
  · simpa [Sem.setCount, hj] using h j

theorem InRange.semInit (h : InRange sems) (sem_id : Int) (hlt : val < 0x80000000) :
    InRange (semInit sem_id val sems).2 := by
  rw [Sem.semInit]
  cases semIndex sem_id with
  | none => exact h
  | some i =>
    simp only
    split_ifs with hv hi
    · exact h
    · exact h
    · intro j
      by_cases hj : j = i
      · subst hj
        simp only [Function.update_self]
        omega
      · simpa [hj] using h j

theorem InRange.downLoop (h : InRange k.sems) (p : ι) (i : Fin MAX_SEM) : InRange (downLoop p i k).2.sems := by
  rw [Sem.downLoop]
  split_ifs with hc
  · exact h
  · have hi := h i
    rw [wrap32_eq (by omega) (by omega)]
    exact h.setCount i (by omega) (by omega)

theorem InRange.semDown (h : InRange k.sems) (p : ι) (sem_id : Int) : InRange (semDown p sem_id k).2.sems := by
  rw [Sem.semDown]
  cases semIndex sem_id with
  | none => exact h
  | some i =>
    simp only
    split_ifs
    · exact h.downLoop p i
    · exact h

theorem InRange.semUp (h : InRange k.sems) (p : ι)
    (hlt : ∀ i, semIndex sem_id = some i → (k.sems i).count < 0x7fffffff) : InRange (semUp p sem_id k).2.sems := by
  rw [Sem.semUp]
  cases hid : semIndex sem_id with
  | none => exact h
  | some i =>
    simp only
    split_ifs
    · have hi := h i
      have htop := hlt i hid
      rw [wrap32_eq (by omega) (by omega)]
      exact h.setCount i (by omega) (by omega)
    · exact h

-- The argument of sem_init() is an int, and no sem_up() finds the counter at its top.
def Bounded (s : State ι) : Event ι → Prop
  | .init _ _ val => val < 0x80000000
  | .up _ sem_id => ∀ i, semIndex sem_id = some i → (s.k.sems i).count < 0x7fffffff
  | _ => True

def BoundedStep (s t : State ι) : Prop := ∃ e, Enabled s e ∧ Bounded s e ∧ t = next s e

theorem inRange_reach {s : State ι} (h : Reach Start BoundedStep s) : InRange s.k.sems := by
  refine Reach.invariant (I := fun s => InRange s.k.sems) (fun s hs i => ?_) ?_ h
  · rw [hs.1 i]
    simp
  · rintro s t _ hin ⟨e, -, hb, rfl⟩
    cases e with
    | init p sem_id val => exact hin.semInit sem_id hb
    | up p sem_id => exact hin.semUp p hb
    | down p sem_id => exact hin.semDown p sem_id
    | resume p i => exact InRange.downLoop (k := { s.k with procs := awaken s.k.procs p }) hin p i
    | kill p => exact hin
    | schedule p => exact hin
    | preempt p => exact hin
    | other p t => exact hin

theorem semUp_initialized (hid : semIndex sem_id = some i) (hret : (semUp p sem_id k).1 = 0) :
    (k.sems i).initialized = true := by
  by_contra hi
  simp [semUp, hid, hi] at hret

theorem semUp_sems (hid : semIndex sem_id = some i) (hi : (k.sems i).initialized = true) :
    (semUp p sem_id k).2.sems i = { k.sems i with count := wrap32 ((k.sems i).count + 1) } := by
  simp [semUp, hid, hi, setCount]

-- In every run in which no sem_up() finds the counter at its top. For the next sem_up() that bound is exact.
theorem counter_in_range {s : State ι} (h : Reach Start BoundedStep s) :
    (∀ i, 0 ≤ (s.k.sems i).count ∧ (s.k.sems i).count < 0x80000000) ∧
    ∀ p sem_id i, semIndex sem_id = some i → (semUp p sem_id s.k).1 = 0 →
      ((s.k.sems i).count < 0x7fffffff ↔
        0 ≤ ((semUp p sem_id s.k).2.sems i).count ∧
        ∃ m m', IsGreatest (CanTake sem_id s.k) m ∧ IsGreatest (CanTake sem_id (semUp p sem_id s.k).2) m' ∧ m < m') := by
  have hin := inRange_reach h
  refine ⟨hin, fun p sem_id i hid hret => ?_⟩
  obtain ⟨hpos, hlt⟩ := hin i
  have : Nonempty ι := ⟨p⟩
  have hi := semUp_initialized hid hret
  have hsems := semUp_sems (p := p) hid hi
  constructor
  · intro htop
    have hw : wrap32 ((s.k.sems i).count + 1) = (s.k.sems i).count + 1 := wrap32_eq (by omega) (by omega)
    rw [hw] at hsems
    have hafter := isGreatest_canTake (k := (semUp p sem_id s.k).2) hid (by rw [hsems]; exact hi)
      (by rw [hsems]; simp only; omega)
    rw [hsems] at hafter ⊢
    simp only at hafter ⊢
    exact ⟨by omega, _, _, isGreatest_canTake hid hi hlt, hafter, by omega⟩
  · rintro ⟨hnonneg, -⟩
    by_contra htop
    have htop : (s.k.sems i).count = 0x7fffffff := by omega
    have hwraps : wrap32 (0x7fffffff + 1) = -0x80000000 := by decide
    rw [hsems, htop, hwraps] at hnonneg
    simp at hnonneg

-- A counter at its top: sem_up() returns 0, the counter becomes negative and no sem_down() can complete.
theorem counter_wraps :
    let s := runEvents (boot (Fin 1)) [.init 0 0 0x7fffffff]
    Reach Start Step s ∧ (semUp 0 0 s.k).1 = 0 ∧ ((semUp 0 0 s.k).2.sems 0).count = -0x80000000 ∧
    IsGreatest (CanTake 0 s.k) 0x7fffffff ∧ IsGreatest (CanTake 0 (semUp 0 0 s.k).2) 0 := by
  intro s
  have h0 : Reach Start Step (boot (Fin 1)) := .start start_boot
  refine ⟨h0.step ⟨.init 0 0 0x7fffffff, ⟨rfl, rfl⟩, rfl⟩, by decide, by decide, ?_, ?_⟩
  · exact isGreatest_canTake (k := s.k) (i := 0) (by decide) (by decide) (by decide)
  · exact isGreatest_canTake (k := (semUp 0 0 s.k).2) (i := 0) (by decide) (by decide) (by decide)

theorem counter_in_range_below_top :
    let s := runEvents (boot (Fin 1)) [.init 0 0 0x7ffffffe]
    Reach Start BoundedStep s ∧ 0 ≤ ((semUp 0 0 s.k).2.sems 0).count ∧
    ∃ m m', IsGreatest (CanTake 0 s.k) m ∧ IsGreatest (CanTake 0 (semUp 0 0 s.k).2) m' ∧ m < m' := by
  intro s
  have h0 : Reach Start BoundedStep (boot (Fin 1)) := .start start_boot
  have h1 : Reach Start BoundedStep s := h0.step ⟨.init 0 0 0x7ffffffe, ⟨rfl, rfl⟩, by simp [Bounded], rfl⟩
  exact ⟨h1, ((counter_in_range h1).2 0 0 0 (by decide) (by decide)).mp (by decide)⟩

end Xv6.Sem
