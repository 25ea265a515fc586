import Xv6.Sem
import Mathlib.Algebra.BigOperators.Group.Finset.Piecewise
import Mathlib.Algebra.Order.BigOperators.Group.Finset

namespace Xv6.Sem

open Lib Function

variable {ι : Type} [DecidableEq ι]

inductive Effect (s : State ι) : State ι → Prop
  | quiet (procs : ι → Task Chan)
      (hsub : ∀ q i, SleepsOn procs q (.sem i) → SleepsOn s.k.procs q (.sem i)) :
      Effect s { s with k := { s.k with procs := procs } }
  | init (i : Fin MAX_SEM) (val : Int) (hi : (s.k.sems i).initialized = false) (hv : 0 ≤ val) :
      Effect s { s with
        k := { s.k with
          sems := update s.k.sems i { count := val, initialized := true } }
        initVal := update s.initVal i (some val) }
  | up (p : ι) (i : Fin MAX_SEM) (hi : (s.k.sems i).initialized = true)
      (hp : (s.k.procs p).state ≠ .SLEEPING) :
      Effect s { s with
        k := { s.k with
          sems := setCount s.k.sems i (wrap32 ((s.k.sems i).count + 1))
          procs := wakeup s.k.procs p (.sem i) }
        ups := bump s.ups p i }
  | down (p : ι) (i : Fin MAX_SEM) (procs : ι → Task Chan)
      (hsub : ∀ q i, SleepsOn procs q (.sem i) → SleepsOn s.k.procs q (.sem i))
      (hi : (s.k.sems i).initialized = true) (hc : 0 < (s.k.sems i).count) :
      Effect s { s with
        k := { s.k with
          sems := setCount s.k.sems i (wrap32 ((s.k.sems i).count - 1))
          procs := procs
          inDown := update s.k.inDown p none }
        downs := bump s.downs p i }
  | block (p : ι) (i : Fin MAX_SEM) (procs : ι → Task Chan)
      (hsub : ∀ q i, SleepsOn procs q (.sem i) → SleepsOn s.k.procs q (.sem i))
      (hi : (s.k.sems i).initialized = true) (hc : (s.k.sems i).count ≤ 0) :
      Effect s { s with
        k := { s.k with
          procs := sleep procs p (.sem i)
          inDown := update s.k.inDown p (some i) } }

theorem Effect.refl (s : State ι) : Effect s s := .quiet s.k.procs fun _ _ h => h

theorem effect_downLoop (s : State ι) (p : ι) (i : Fin MAX_SEM) (procs : ι → Task Chan)
    (hsub : ∀ q i, SleepsOn procs q (.sem i) → SleepsOn s.k.procs q (.sem i)) (hi : (s.k.sems i).initialized = true) :
    Effect s { s with
      k := (downLoop p i { s.k with procs := procs }).2
      downs := if (downLoop p i { s.k with procs := procs }).1 = some 0 then bump s.downs p i
        else s.downs } := by
  by_cases hc : (s.k.sems i).count ≤ 0
  · simpa [downLoop, hc] using Effect.block p i procs hsub hi hc
  · simpa [downLoop, hc] using Effect.down p i procs hsub hi (by omega)

theorem effect_init (s : State ι) (p : ι) (sem_id val : Int) :
    Effect s (next s (.init p sem_id val)) := by
  cases h : semIndex sem_id with
  | none => simpa [next, semInit, noteInit, h] using Effect.refl s
  | some i =>
    by_cases hv : val < 0
    · simpa [next, semInit, noteInit, h, hv] using Effect.refl s
    · cases hi : (s.k.sems i).initialized with
      | true => simpa [next, semInit, noteInit, h, hv, hi] using Effect.refl s
      | false => simpa [next, semInit, noteInit, h, hv, hi] using Effect.init i val hi (by omega)

theorem effect_up (s : State ι) (p : ι) (sem_id : Int) (hp : (s.k.procs p).state ≠ .SLEEPING) :
    Effect s (next s (.up p sem_id)) := by
  cases h : semIndex sem_id with
  | none => simpa [next, semUp, tally, h] using Effect.refl s
  | some i =>
    cases hi : (s.k.sems i).initialized with
    | true => simpa [next, semUp, tally, h, hi] using Effect.up p i hi hp
    | false => simpa [next, semUp, tally, h, hi] using Effect.refl s

theorem effect_down (s : State ι) (p : ι) (sem_id : Int) :
    Effect s (next s (.down p sem_id)) := by
  cases h : semIndex sem_id with
  | none => simpa [next, semDown, tally, h] using Effect.refl s
  | some i =>
    cases hi : (s.k.sems i).initialized with
    | true =>
      simpa [next, semDown, tally, h, hi] using
        effect_downLoop s p i s.k.procs (fun _ _ h => h) hi
    | false => simpa [next, semDown, tally, h, hi] using Effect.refl s

theorem effect_of_enabled {s : State ι} {e : Event ι} (he : Enabled s e)
    (hin : ∀ p i, s.k.inDown p = some i → (s.k.sems i).initialized = true) :
    Effect s (next s e) := by
  cases e with
  | init p sem_id val => exact effect_init s p sem_id val
  | up p sem_id => exact effect_up s p sem_id (by simp [he.1])
  | down p sem_id => exact effect_down s p sem_id
  | resume p i => exact effect_downLoop s p i _ (fun _ _ h => h.of_awaken) (hin p i he.2)
  | kill p => exact .quiet _ fun _ _ h => h.of_kill
  | schedule p => exact .quiet _ fun _ _ h => h.of_setState (by simp)
  | preempt p => exact .quiet _ fun _ _ h => h.of_setState (by simp)
  | other p t =>
    refine .quiet _ fun q i h => ?_
    by_cases hq : q = p
    · subst hq
      exact absurd h.2 (by simpa using he.2 i)
    · simpa [SleepsOn, hq] using h

variable [Fintype ι]

def total (f : ι → Fin MAX_SEM → Nat) (i : Fin MAX_SEM) : Nat := ∑ p, f p i

theorem total_bump (f : ι → Fin MAX_SEM → Nat) (p : ι) (i j : Fin MAX_SEM) :
    total (bump f p i) j = total f j + if j = i then 1 else 0 := by
  have hpoint : ∀ q, bump f p i q j = f q j + if q = p then (if j = i then 1 else 0) else 0 := by
    intro q
    by_cases hq : q = p
    · subst hq
      by_cases hj : j = i
      · subst hj
        simp [bump]
      · simp [bump, hj]
    · simp [bump, hq]
  simp [total, hpoint, Finset.sum_add_distrib]

structure Inv (s : State ι) : Prop where
  blocked : ∀ p i, s.k.inDown p = some i → (s.k.sems i).initialized = true
  untouched : ∀ i, (s.k.sems i).initialized = false →
    s.initVal i = none ∧ total s.ups i = 0 ∧ total s.downs i = 0
  conserved : ∀ i v, s.initVal i = some v → v + total s.ups i < 0x80000000 →
    (s.k.sems i).count = v + total s.ups i - total s.downs i ∧ 0 ≤ (s.k.sems i).count
  -- nobody sleeps on a semaphore that has a unit to give
  awake : Justified s.k.procs fun c =>
    ∀ i, c = .sem i → (s.k.sems i).initialized = true ∧ (s.k.sems i).count ≤ 0

omit [DecidableEq ι] in
theorem inv_start {s : State ι} (h : Start s) : Inv s := by
  obtain ⟨hsems, hchan, hin, hval, hups, hdowns⟩ := h
  refine ⟨?_, ?_, ?_, ?_⟩
  · intro p i hp
    simp [hin] at hp
  · intro i _
    simp [hval, total, hups, hdowns]
  · intro i v hv
    simp [hval] at hv
  · intro p c hs i hc
    exact absurd (hc ▸ hs.2) (hchan p i)

theorem inv_effect {s t : State ι} (h : Inv s) (he : Effect s t) : Inv t := by
  cases he with
  | quiet procs hsub =>
    refine ⟨h.blocked, h.untouched, h.conserved, ?_⟩
    intro q c hs i hc
    subst hc
    exact h.awake q _ (hsub q i hs) i rfl
  | init i val hi hv =>
    obtain ⟨-, hups, hdowns⟩ := h.untouched i hi
    refine ⟨?_, ?_, ?_, ?_⟩
    · intro p j hp
      have hj := h.blocked p j hp
      have hne : j ≠ i := by
        intro hji
        simp [hji, hi] at hj
      simpa [hne] using hj
    · intro j hj
      by_cases hji : j = i
      · simp [hji] at hj
      · simpa [hji] using h.untouched j (by simpa [hji] using hj)
    · intro j v hj hlt
      by_cases hji : j = i
      · subst hji
        simp only [update_self, Option.some.injEq] at hj ⊢
        simp only [hups, hdowns]
        omega
      · simpa [hji] using h.conserved j v (by simpa [hji] using hj) hlt
    · intro q c hs j hc
      have hj := h.awake q c hs j hc
      have hne : j ≠ i := by
        intro hji
        simp [hji, hi] at hj
      simpa [hne] using hj
  | up p i hi hp =>
    refine ⟨?_, ?_, ?_, ?_⟩
    · intro q j hq
      have hj := h.blocked q j hq
      by_cases hji : j = i <;> simp [setCount, hji, hi, hj]
    · intro j hj
      by_cases hji : j = i
      · simp [setCount, hji, hi] at hj
      · simpa [total_bump, hji] using h.untouched j (by simpa [setCount, hji] using hj)
    · intro j v hj hlt
      simp only [total_bump] at hlt ⊢
      by_cases hji : j = i
      · subst hji
        simp only [if_true] at hlt ⊢
        obtain ⟨hc, h0⟩ := h.conserved j v hj (by omega)
        have hw : wrap32 ((s.k.sems j).count + 1) = (s.k.sems j).count + 1 :=
          wrap32_eq (by omega) (by omega)
        simp only [setCount, update_self, hw]
        omega
      · simp only [hji, if_false, Nat.add_zero] at hlt ⊢
        simpa [setCount, hji] using h.conserved j v hj hlt
    · refine h.awake.wakeup hp fun d hd hcond j hdj => ?_
      have hji : j ≠ i := by
        intro hji
        exact hd (by rw [hdj, hji])
      simpa [setCount, hji] using hcond j hdj
  | down p i procs hsub hi hc0 =>
    refine ⟨?_, ?_, ?_, ?_⟩
    · intro q j hq
      have hq' : s.k.inDown q = some j := by
        by_cases hqp : q = p
        · simp [hqp] at hq
        · simpa [hqp] using hq
      have hj := h.blocked q j hq'
      by_cases hji : j = i <;> simp [setCount, hji, hi, hj]
    · intro j hj
      by_cases hji : j = i
      · simp [setCount, hji, hi] at hj
      · simpa [total_bump, hji] using h.untouched j (by simpa [setCount, hji] using hj)
    · intro j v hj hlt
      simp only [total_bump]
      by_cases hji : j = i
      · subst hji
        have hlt' : v + total s.ups j < 0x80000000 := hlt
        obtain ⟨hc, h0⟩ := h.conserved j v hj hlt'
        have hw : wrap32 ((s.k.sems j).count - 1) = (s.k.sems j).count - 1 :=
          wrap32_eq (by omega) (by omega)
        simp only [setCount, update_self, hw, if_true]
        omega
      · simpa [setCount, hji] using h.conserved j v hj hlt
    · intro q c hs j hc
      subst hc
      have hj := h.awake q _ (hsub q j hs) j rfl
      -- the count was positive, so nobody slept on i
      have hji : j ≠ i := by
        intro hji
        rw [hji] at hj
        omega
      simpa [setCount, hji] using hj
  | block p i procs hsub hi hc0 =>
    refine ⟨?_, h.untouched, h.conserved, ?_⟩
    · intro q j hq
      by_cases hqp : q = p
      · simp only [hqp, update_self, Option.some.injEq] at hq
        exact hq ▸ hi
      · exact h.blocked q j (by simpa [hqp] using hq)
    · have hprocs : Justified procs fun c => ∀ j, c = .sem j →
          (s.k.sems j).initialized = true ∧ (s.k.sems j).count ≤ 0 := by
        intro q c hs j hc
        subst hc
        exact h.awake q _ (hsub q j hs) j rfl
      refine hprocs.sleep fun j hj => ?_
      simp only [Chan.sem.injEq] at hj
      exact hj ▸ ⟨hi, hc0⟩

theorem inv_reach {s : State ι} (h : Reach Start Step s) : Inv s := by
  refine h.invariant (fun _ => inv_start) ?_
  intro s t _ hinv ⟨e, he, ht⟩
  exact ht ▸ inv_effect hinv (effect_of_enabled he hinv.blocked)

-- Where one unit is handed out and every process takes it before it gives it
-- back, two processes cannot both have it.
theorem holder_unique
    (hle : ∀ p, ups p i ≤ downs p i) (htotal : total downs i ≤ 1 + total ups i) {p q : ι}
    (hp : ups p i < downs p i) (hq : ups q i < downs q i) : p = q := by
  by_contra hne
  have hextra : ∑ r ∈ ({p, q} : Finset ι), (downs r i - ups r i) ≤ ∑ r, (downs r i - ups r i) :=
    Finset.sum_le_sum_of_subset (Finset.subset_univ _)
  have hsplit : total downs i = total ups i + ∑ r, (downs r i - ups r i) := by
    unfold total
    rw [← Finset.sum_add_distrib]
    refine Finset.sum_congr rfl fun r _ => ?_
    have := hle r
    omega
  rw [Finset.sum_pair hne] at hextra
  omega

theorem semInit_again (hid : semIndex sem_id = some i)
    (hi : (sems i).initialized = true) (val : Int) : semInit sem_id val sems = (-1, sems) := by
  simp [semInit, hid, hi]

-- A semaphore that sem_init() set to v, in every state that any interleaving of
-- the calls, of wakeups and of kills reaches.
theorem units_conserved {s : State ι} (h : Reach Start Step s) (sem_id : Int) (i : Fin MAX_SEM)
    (hid : semIndex sem_id = some i) (v : Int) (hv : s.initVal i = some v)
    (hlt : v + total s.ups i < 0x80000000) :
    (s.k.sems i).count = v + total s.ups i - total s.downs i ∧ 0 ≤ (s.k.sems i).count ∧
    (total s.downs i : Int) ≤ v + total s.ups i ∧
    (v = 1 → (∀ p, s.ups p i ≤ s.downs p i) →
      ∀ p q, s.ups p i < s.downs p i → s.ups q i < s.downs q i → p = q) ∧
    (∀ val, semInit sem_id val s.k.sems = (-1, s.k.sems)) ∧
    (0 < (s.k.sems i).count → ∀ p, ¬SleepsOn s.k.procs p (.sem i)) := by
  have hinv := inv_reach h
  obtain ⟨hcount, hnonneg⟩ := hinv.conserved i v hv hlt
  have hi : (s.k.sems i).initialized = true := by
    by_contra hn
    have hnone := (hinv.untouched i (by simpa using hn)).1
    simp [hnone] at hv
  refine ⟨hcount, hnonneg, by omega, ?_, semInit_again hid hi, ?_⟩
  · intro hone hle p q hp hq
    exact holder_unique hle (by omega) hp hq
  · intro hpos p hs
    have hle := (hinv.awake p _ hs i rfl).2
    omega

def boot (ι : Type) : State ι where
  k := {
    sems := fun _ => { count := 0, initialized := false }
    procs := fun _ => { state := .RUNNING, chan := none, killed := false }
    inDown := fun _ => none }
  initVal := fun _ => none
  ups := fun _ _ => 0
  downs := fun _ _ => 0

omit [DecidableEq ι] [Fintype ι] in
theorem start_boot : Start (boot ι) := by
  simp [Start, boot]

def runEvents (s : State ι) (events : List (Event ι)) : State ι := events.foldl next s

theorem units_conserved_two_downs :
    let s := runEvents (boot (Fin 2)) [.init 0 7 1, .down 0 7, .down 1 7]
    Reach Start Step s ∧ s.initVal 7 = some 1 ∧ SleepsOn s.k.procs 1 (.sem 7) ∧
    (s.k.sems 7).count = 1 + total s.ups 7 - total s.downs 7 ∧
    (0 < (s.k.sems 7).count → ∀ p, ¬SleepsOn s.k.procs p (.sem 7)) := by
  intro s
  have h0 : Reach Start Step (boot (Fin 2)) := .start start_boot
  have h1 := h0.step ⟨.init 0 7 1, ⟨rfl, rfl⟩, rfl⟩
  have h2 := h1.step ⟨.down 0 7, ⟨rfl, rfl⟩, rfl⟩
  have h3 : Reach Start Step s := h2.step ⟨.down 1 7, ⟨rfl, rfl⟩, rfl⟩
  have hval : s.initVal 7 = some 1 := by decide
  have hmain := units_conserved h3 7 7 (by decide) 1 hval (by decide)
  exact ⟨h3, hval, by decide, hmain.1, hmain.2.2.2.2.2⟩

end Xv6.Sem
