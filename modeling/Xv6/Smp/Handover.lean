import Xv6.Smp
import Mathlib.Data.Set.Card

set_option linter.unusedSectionVars false

namespace Xv6.Smp

open Lib
open Function (update update_eq_self update_of_ne update_self)
open Sched (Slot Edit)

variable {ι κ Λ γ : Type}

-- The process that a scheduler is at: c->proc, the one that runs, those whose thread is not
-- parked any more, and those that no other scheduler may be at.
def Place.current : Place ι → Option ι
  | .switch p _ | .away p _ | .clear p _ => some p
  | _ => none

def Place.running : Place ι → Option ι
  | .away p _ => some p
  | _ => none

def Place.busy : Place ι → Option ι
  | .proc p _ | .switch p _ | .away p _ => some p
  | _ => none

def Place.engaged : Place ι → Option ι
  | .proc p _ | .switch p _ | .away p _ | .clear p _ => some p
  | _ => none

def Place.calm : Place ι → Bool
  | .on | .off | .scan _ => true
  | _ => false

-- The locks of a CPU while it is in scheduler().
def Place.Holds (noff : Nat) (has : Lock ι Λ → Prop) : Place ι → Prop
  | .on | .off | .scan _ => noff = 0
  | .test p _ | .proc p _ | .switch p _ | .clear p _ | .drop p _ => noff = 1 ∧ has (.proc p)
  | .away _ _ => True

-- The locks of a CPU that executes thread p, where the functions tell.
def Pc.Holds (waitLock : Λ) (p : ι) (noff : Nat) (has : Lock ι Λ → Prop) : Pc ι κ Λ → Prop
  | .run => True
  | .sleep q _ lk .lock => q = p ∧ noff = 1 ∧ has (.other lk)
  | .sleep q _ lk .release => q = p ∧ noff = 2 ∧ has (.other lk) ∧ has (.proc p)
  | .sleep q _ _ .retake => q = p ∧ noff = 0
  | .sleep q _ _ _ => q = p ∧ noff = 1 ∧ has (.proc p)
  | .yield q .lock => q = p ∧ noff = 0
  | .yield q _ => q = p ∧ noff = 1 ∧ has (.proc p)
  | .exit q .wait => q = p ∧ noff = 0
  | .exit q .scan => q = p ∧ noff = 1 ∧ has (.other waitLock)
  | .exit q (.test r _) | .exit q (.drop r) => q = p ∧ noff = 2 ∧ has (.other waitLock) ∧ has (.proc r)
  | .exit q .state | .exit q .release => q = p ∧ noff = 2 ∧ has (.other waitLock) ∧ has (.proc p)
  | .exit q .switch | .exit q (.off _) => q = p ∧ noff = 1 ∧ has (.proc p)
  | .fork np .making | .fork np .ready => has (.proc np)
  | .fork _ .linking => True
  | .forkret => noff = 1 ∧ has (.proc p)

def Pc.Runs (st : ProcState) : Pc ι κ Λ → Prop
  | .sleep _ _ _ .switch => st = .SLEEPING
  | .yield _ .switch => st = .RUNNABLE
  | .exit _ .release | .exit _ .switch => st = .ZOMBIE
  | .exit _ (.off _) => False
  | _ => st = .RUNNING

-- p->context and p's kernel stack while no CPU executes the thread.
def Parked (p : ι) (pc : Pc ι κ Λ) (below : List (Pc ι κ Λ)) : ProcState → Prop
  | .UNUSED => below = [] ∧ (pc = .forkret ∨ ∃ b, pc = .exit p (.off b))
  | .USED => below = [] ∧ pc = .forkret
  | .SLEEPING => ∃ c lk b, pc = .sleep p c lk (.off b)
  | .RUNNABLE => (∃ c lk b, pc = .sleep p c lk (.off b)) ∨ (∃ b, pc = .yield p (.off b)) ∨ pc = .forkret
  | .RUNNING => False
  | .ZOMBIE => below = [] ∧ ∃ b, pc = .exit p (.off b)

def Pc.makes : Pc ι κ Λ → Option ι
  | .fork np _ => some np
  | _ => none

def Pc.bottom : Pc ι κ Λ → Bool
  | .exit _ _ | .fork _ _ => true
  | _ => false

def Makes (m : Machine ι κ Λ γ) (p q : ι) : Prop := ∃ pc ∈ m.pc p :: m.below p, pc.makes = some q

structure Inv (waitLock : Λ) (m : Machine ι κ Λ γ) : Prop where
  held : ∀ x, {l | m.lock l = some x}.encard = (m.cpu x).noff
  intr : ∀ x, (m.cpu x).intr = true → (m.cpu x).noff = 0
  thread : ∀ x, m.thread x = (m.scheduler x).running
  proc : ∀ x, (m.cpu x).proc = (m.scheduler x).current
  place : ∀ x, m.handler x = false → (m.scheduler x).Holds (m.cpu x).noff fun l => m.lock l = some x
  calm : ∀ x, m.handler x = true → (m.scheduler x).calm = true
  alone : ∀ x y p, (m.scheduler x).engaged = some p → (m.scheduler y).engaged = some p → x = y
  chosen : ∀ x p rest, m.scheduler x = .proc p rest ∨ m.scheduler x = .switch p rest →
    (m.slots p).task.state = .RUNNING ∧ Parked p (m.pc p) (m.below p) .RUNNABLE
  runs : ∀ x p rest, m.scheduler x = .away p rest →
    (m.pc p).Holds waitLock p (m.cpu x).noff (fun l => m.lock l = some x) ∧ (m.pc p).Runs (m.slots p).task.state
  parked : ∀ p, (∀ x, (m.scheduler x).busy ≠ some p) → Parked p (m.pc p) (m.below p) (m.slots p).task.state
  -- a thread below its handlers holds no lock
  below : ∀ p, ∀ pc ∈ m.below p, pc.Holds waitLock p 0 fun _ => False
  bottom : ∀ p pc below, pc :: below <:+ m.pc p :: m.below p → pc.bottom = true → below = []
  made : ∀ p q, Makes m p q → (m.slots q).task.state = .USED
  maker : ∀ p p' q, Makes m p q → Makes m p' q → p = p'

variable {waitLock : Λ} {m m' : Machine ι κ Λ γ} {x y : γ} {p q : ι}

theorem Inv.thread_iff (h : Inv waitLock m) : m.thread x = some p ↔ ∃ rest, m.scheduler x = .away p rest := by
  rw [h.thread]
  cases m.scheduler x <;> simp [Place.running]

theorem Inv.at_pc (h : Inv waitLock m) (hx : m.thread x = some p) (hpc : m.pc p = pc) :
    pc.Holds waitLock p (m.cpu x).noff (fun l => m.lock l = some x) ∧ pc.Runs (m.slots p).task.state ∧
    (m.cpu x).proc = some p := by
  obtain ⟨rest, hpl⟩ := h.thread_iff.mp hx
  obtain ⟨hholds, hruns⟩ := h.runs x p rest hpl
  exact ⟨hpc ▸ hholds, hpc ▸ hruns, by rw [h.proc, hpl]; rfl⟩

theorem Inv.bottom_at (h : Inv waitLock m) (hpc : m.pc p = pc) (hb : pc.bottom = true) : m.below p = [] :=
  h.bottom p _ _ (List.suffix_refl _) (hpc ▸ hb)

theorem Inv.none_held (h : Inv waitLock m) (hx : (m.cpu x).noff = 0) (l : Lock ι Λ) : m.lock l ≠ some x := by
  have hcard := h.held x
  rw [hx, Nat.cast_zero, Set.encard_eq_zero] at hcard
  intro hl
  have hmem : l ∈ {l | m.lock l = some x} := hl
  simp [hcard] at hmem

theorem Inv.only_held (h : Inv waitLock m) (hx : (m.cpu x).noff = 1) {l l' : Lock ι Λ} (hl : m.lock l = some x)
    (hl' : m.lock l' = some x) : l = l' := by
  have hcard := h.held x
  rw [hx, Nat.cast_one] at hcard
  exact Set.encard_le_one_iff.mp (le_of_eq hcard) l l' hl hl'

theorem Pc.Runs.lock {st : ProcState} {pc : Pc ι κ Λ} {noff : Nat} {has : Lock ι Λ → Prop} (h : pc.Runs st)
    (hh : pc.Holds waitLock p noff has) (hst : st ≠ .RUNNING) : has (.proc p) := by
  cases pc with
  | run | fork np s | forkret => exact absurd h hst
  | sleep q c lk s =>
    cases s with
    | switch => exact hh.2.2
    | _ => exact absurd h hst
  | yield q s =>
    cases s with
    | switch => exact hh.2.2
    | _ => exact absurd h hst
  | exit q s =>
    cases s with
    | release => exact hh.2.2.2
    | switch => exact hh.2.2
    | off b => exact h.elim
    | _ => exact absurd h hst

theorem Inv.not_busy (h : Inv waitLock m) (hlock : m.lock (.proc q) = some x) (hst : (m.slots q).task.state ≠ .RUNNING)
    (hx : m.thread x ≠ some q) (y : γ) : (m.scheduler y).busy ≠ some q := by
  intro hb
  cases hpl : m.scheduler y with
  | proc r rest =>
    obtain rfl : r = q := by simpa [hpl, Place.busy] using hb
    exact hst (h.chosen y r rest (.inl hpl)).1
  | switch r rest =>
    obtain rfl : r = q := by simpa [hpl, Place.busy] using hb
    exact hst (h.chosen y r rest (.inr hpl)).1
  | away r rest =>
    obtain rfl : r = q := by simpa [hpl, Place.busy] using hb
    obtain ⟨hholds, hruns⟩ := h.runs y r rest hpl
    have hl : m.lock (.proc r) = some y := hruns.lock hholds hst
    obtain rfl : x = y := Option.some.inj (hlock.symm.trans hl)
    exact hx (h.thread_iff.mpr ⟨rest, hpl⟩)
  | on | off | scan rest | test r rest | clear r rest | drop r rest => simp [hpl, Place.busy] at hb

theorem Inv.congr_state (h : Inv waitLock m) {slots : ι → Slot κ}
    (hs : ∀ p, (slots p).task.state = (m.slots p).task.state) : Inv waitLock { m with slots := slots } := by
  refine ⟨h.held, h.intr, h.thread, h.proc, h.place, h.calm, h.alone, fun x p rest hx => ?_, fun x p rest hx => ?_,
    fun p hp => ?_, h.below, h.bottom, fun p q hm => ?_, h.maker⟩
  · simp only [hs]
    exact h.chosen x p rest hx
  · simp only [hs]
    exact h.runs x p rest hx
  · simp only [hs]
    exact h.parked p hp
  · simp only [hs]
    exact h.made p q hm

theorem Pc.Holds.mono {noff : Nat} {has has' : Lock ι Λ → Prop} {pc : Pc ι κ Λ} (h : pc.Holds waitLock p noff has)
    (hmono : ∀ l, has l → has' l) : pc.Holds waitLock p noff has' := by
  cases pc with
  | run => trivial
  | fork np s =>
    cases s with
    | linking => trivial
    | _ => exact hmono _ h
  | forkret => exact ⟨h.1, hmono _ h.2⟩
  | sleep q c lk s =>
    cases s with
    | release => exact ⟨h.1, h.2.1, hmono _ h.2.2.1, hmono _ h.2.2.2⟩
    | retake => exact h
    | _ => exact ⟨h.1, h.2.1, hmono _ h.2.2⟩
  | yield q s =>
    cases s with
    | lock => exact h
    | _ => exact ⟨h.1, h.2.1, hmono _ h.2.2⟩
  | exit q s =>
    cases s with
    | wait => exact h
    | test r c | drop r | state | release => exact ⟨h.1, h.2.1, hmono _ h.2.2.1, hmono _ h.2.2.2⟩
    | _ => exact ⟨h.1, h.2.1, hmono _ h.2.2⟩

theorem Pc.Runs.not_used {st : ProcState} {pc : Pc ι κ Λ} (h : pc.Runs st) : st ≠ .USED := by
  rintro rfl
  cases pc with
  | run | fork np s | forkret => cases h
  | sleep q c lk s => cases s <;> cases h
  | yield q s => cases s <;> cases h
  | exit q s => cases s <;> cases h

section Locks

variable [DecidableEq ι] [DecidableEq Λ] {l : Lock ι Λ}

theorem lock_update_other (hl : m.lock l = o) (ho : o = none ∨ o = some x)
    (ho' : o' = none ∨ o' = some x) {y : γ} (hy : y ≠ x) (l' : Lock ι Λ) :
    update m.lock l o' l' = some y ↔ m.lock l' = some y := by
  by_cases hll : l' = l
  · subst hll
    rw [update_self, hl]
    rcases ho with rfl | rfl <;> rcases ho' with rfl | rfl <;> simp [Ne.symm hy]
  · rw [update_of_ne hll]

theorem lock_acquired (l' : Lock ι Λ) :
    update m.lock l (some x) l' = some x ↔ l' = l ∨ m.lock l' = some x := by
  by_cases hll : l' = l
  · simp [hll]
  · simp [hll]

theorem lock_released (l' : Lock ι Λ) :
    update m.lock l none l' = some x ↔ l' ≠ l ∧ m.lock l' = some x := by
  by_cases hll : l' = l
  · simp [hll]
  · simp [hll]

theorem Inv.held_acquire (h : Inv waitLock m) (hl : m.lock l ≠ some x) :
    {l' | update m.lock l (some x) l' = some x}.encard = ((m.cpu x).noff + 1 : Nat) := by
  have heq : {l' | update m.lock l (some x) l' = some x} = insert l {l' | m.lock l' = some x} := by
    ext l'
    simp [lock_acquired]
  have hnot : l ∉ {l' | m.lock l' = some x} := hl
  rw [heq, Set.encard_insert_of_notMem hnot, h.held]
  push_cast
  rfl

theorem Inv.held_release (h : Inv waitLock m) (hl : m.lock l = some x) :
    {l' | update m.lock l none l' = some x}.encard = ((m.cpu x).noff - 1 : Nat) := by
  have heq : {l' | update m.lock l none l' = some x} = {l' | m.lock l' = some x} \ {l} := by
    ext l'
    simp [lock_released, and_comm]
  have hmem : l ∈ {l' | m.lock l' = some x} := hl
  rw [heq, Set.encard_sdiff_singleton_of_mem hmem, h.held]
  push_cast
  rfl

end Locks

theorem Inv.popOff_ok (h : Inv waitLock m) {l : Lock ι Λ} (hl : m.lock l = some x) :
    ∃ c, (m.cpu x).popOff = .ok c := by
  have hpos : (m.cpu x).noff ≠ 0 := fun hz => h.none_held hz l hl
  have hintr : (m.cpu x).intr = false := by
    by_contra hc
    exact hpos (h.intr x (by simpa using hc))
  simp only [Cpu.popOff, hintr, Bool.false_eq_true, if_false]
  rw [if_neg (by omega)]
  exact ⟨_, rfl⟩

theorem Cpu.popOff_eq {c c' : Cpu ι} (hok : c.popOff = .ok c') : c'.proc = c.proc ∧ c'.noff = c.noff - 1 ∧
    (c'.intr = true → c'.noff = 0) := by
  revert hok
  fun_cases Cpu.popOff c <;> intro hok <;> cases hok
  next hintr _ =>
    refine ⟨rfl, rfl, fun hc => ?_⟩
    by_contra hne
    have hif : ¬(c.noff - 1 = 0 ∧ c.intena = true) := fun ⟨h0, _⟩ => hne h0
    simp only [hif, if_false] at hc
    exact hintr hc

variable [DecidableEq ι] [DecidableEq γ]

-- The frames that p gets: those of handlers neither fork nor exit, and what they make is p's
-- already, or new.
structure Turns (m : Machine ι κ Λ γ) (p : ι) (pc' : Pc ι κ Λ) (below' : List (Pc ι κ Λ)) : Prop where
  bottom : ∀ f fs, f :: fs <:+ pc' :: below' → f.bottom = true → fs = []
  makes : ∀ f ∈ pc' :: below', ∀ q, f.makes = some q →
    Makes m p q ∨ (m.slots q).task.state = .USED ∧ ∀ r, ¬Makes m r q

theorem Inv.turns (h : Inv waitLock m) (hbottom : pc'.bottom = true → m.below p = [])
    (hmakes : ∀ q, pc'.makes = some q → (m.pc p).makes = some q ∨
      (m.slots q).task.state = .USED ∧ ∀ r, ¬Makes m r q) : Turns m p pc' (m.below p) := by
  refine ⟨fun f fs hs hb => ?_, fun f hf q hq => ?_⟩
  · rcases List.suffix_cons_iff.mp hs with heq | hs
    · obtain ⟨rfl, rfl⟩ := List.cons.inj heq
      exact hbottom hb
    · exact h.bottom p f fs (hs.trans (List.suffix_cons _ _)) hb
  · rcases List.mem_cons.mp hf with rfl | hf
    · exact (hmakes q hq).imp_left fun hm => ⟨_, List.mem_cons_self, hm⟩
    · exact .inl ⟨f, List.mem_cons_of_mem _ hf, hq⟩

theorem Inv.plain (h : Inv waitLock m) (hpc : pc'.bottom = false) : Turns m p pc' (m.below p) := by
  refine h.turns (by simp [hpc]) fun q hq => ?_
  cases pc' with
  | fork np s => cases hpc
  | _ => cases hq

-- A step that concerns one CPU x and one process p, the one that x is at then: the place of x's
-- scheduler, its locks and flags may change, and p's slot and stack.
theorem Inv.replace (h : Inv waitLock m) (hh : m.handler x = false) (pl' : Place ι) (lock' : Lock ι Λ → Option γ)
    (c' : Cpu ι) (slot' : Slot κ) (pc' : Pc ι κ Λ) (below' : List (Pc ι κ Λ))
    (hp : ∀ y, y ≠ x → (m.scheduler y).engaged ≠ some p) (hx : ∀ r, (m.scheduler x).busy = some r → r = p)
    (hpl : pl'.engaged = some p) (hproc : c'.proc = pl'.current)
    (hother : ∀ y, y ≠ x → ∀ l, lock' l = some y ↔ m.lock l = some y)
    (hheld : {l | lock' l = some x}.encard = c'.noff) (hintr : c'.intr = true → c'.noff = 0)
    (hplace : pl'.Holds c'.noff fun l => lock' l = some x)
    (hchosen : ∀ rest, pl' = .proc p rest ∨ pl' = .switch p rest →
      slot'.task.state = .RUNNING ∧ Parked p pc' below' .RUNNABLE) (hruns : ∀ rest, pl' = .away p rest →
      pc'.Holds waitLock p c'.noff (fun l => lock' l = some x) ∧ pc'.Runs slot'.task.state)
    (hparked : pl'.busy ≠ some p → Parked p pc' below' slot'.task.state)
    (hbelow : ∀ f ∈ below', f.Holds waitLock p 0 fun _ => False) (hturns : Turns m p pc' below')
    (hmade : slot'.task.state = (m.slots p).task.state ∨
      (m.slots p).task.state ≠ .USED) :
    Inv waitLock { m with
      scheduler := update m.scheduler x pl'
      thread := update m.thread x pl'.running
      lock := lock'
      cpu := update m.cpu x c'
      slots := update m.slots p slot'
      pc := update m.pc p pc'
      below := update m.below p below' } := by
  -- what p makes is as before, or new
  have hback : ∀ r q, Makes { m with pc := update m.pc p pc', below := update m.below p below' } r q →
      Makes m r q ∨ r = p ∧ (m.slots q).task.state = .USED ∧ ∀ r, ¬Makes m r q := by
    rintro r q ⟨f, hf, hq⟩
    by_cases hr : r = p
    · subst hr
      simp only [update_self] at hf
      exact (hturns.makes f hf q hq).imp_right fun hm => ⟨rfl, hm⟩
    · simp only [update_of_ne hr] at hf
      exact .inl ⟨f, hf, hq⟩
  have hengaged : ∀ y r, (update m.scheduler x pl' y).engaged = some r →
      y = x ∧ r = p ∨ y ≠ x ∧ r ≠ p ∧ (m.scheduler y).engaged = some r := by
    intro y r hy
    by_cases hyx : y = x
    · subst hyx
      rw [update_self, hpl] at hy
      exact .inl ⟨rfl, (Option.some.inj hy).symm⟩
    · rw [update_of_ne hyx] at hy
      refine .inr ⟨hyx, ?_, hy⟩
      rintro rfl
      exact hp y hyx hy
  refine ⟨fun y => ?_, fun y => ?_, fun y => ?_, fun y => ?_, fun y hy => ?_, fun y hy => ?_, fun y z r hy hz => ?_,
    fun y r rest hy => ?_, fun y r rest hy => ?_, fun r hr => ?_, fun r => ?_, fun r => ?_, fun r q hm => ?_,
    fun r r' q hr hr' => ?_⟩
  · by_cases hyx : y = x
    · subst hyx
      simpa using hheld
    · simpa [update_of_ne hyx, hother y hyx] using h.held y
  · by_cases hyx : y = x
    · subst hyx
      simpa using hintr
    · simpa [update_of_ne hyx] using h.intr y
  · by_cases hyx : y = x
    · subst hyx
      simp
    · simpa [update_of_ne hyx] using h.thread y
  · by_cases hyx : y = x
    · subst hyx
      simpa using hproc
    · simpa [update_of_ne hyx] using h.proc y
  · by_cases hyx : y = x
    · subst hyx
      simpa using hplace
    · simpa [update_of_ne hyx, hother y hyx] using h.place y hy
  · have hyx : y ≠ x := by
      rintro rfl
      exact Bool.noConfusion (hh.symm.trans hy)
    simpa [update_of_ne hyx] using h.calm y hy
  · rcases hengaged y r hy with ⟨rfl, rfl⟩ | ⟨-, hne, hy⟩ <;> rcases hengaged z r hz with ⟨rfl, h2⟩ | ⟨-, hne', hz⟩
    · rfl
    · exact absurd rfl hne'
    · exact absurd h2 hne
    · exact h.alone y z r hy hz
  · rcases hengaged y r (by rcases hy with hy | hy <;> exact congrArg Place.engaged hy) with ⟨rfl, rfl⟩ | ⟨hyx, hrp, -⟩
    · simp only [update_self] at hy ⊢
      exact hchosen rest hy
    · simp only [update_of_ne hyx, update_of_ne hrp] at hy ⊢
      exact h.chosen y r rest hy
  · rcases hengaged y r (congrArg Place.engaged hy) with ⟨rfl, rfl⟩ | ⟨hyx, hrp, -⟩
    · simp only [update_self] at hy ⊢
      exact hruns rest hy
    · simp only [update_of_ne hyx, update_of_ne hrp, hother y hyx] at hy ⊢
      exact h.runs y r rest hy
  · by_cases hrp : r = p
    · subst hrp
      have hx' := hr x
      simp only [update_self] at hx' ⊢
      exact hparked hx'
    · simp only [update_of_ne hrp]
      refine h.parked r fun y hy => ?_
      have hyx : y ≠ x := by
        rintro rfl
        exact hrp (hx r hy)
      exact hr y (by simpa [update_of_ne hyx] using hy)
  · by_cases hrp : r = p
    · subst hrp
      simpa using hbelow
    · simpa [update_of_ne hrp] using h.below r
  · by_cases hrp : r = p
    · subst hrp
      simpa using hturns.bottom
    · simpa [update_of_ne hrp] using h.bottom r
  · have hst : (m.slots q).task.state = .USED := by
      rcases hback r q hm with hm | ⟨-, hst, -⟩
      · exact h.made r q hm
      · exact hst
    by_cases hqp : q = p
    · subst hqp
      rcases hmade with heq | hne
      · simpa [heq] using hst
      · exact absurd hst hne
    · simpa [update_of_ne hqp] using hst
  · rcases hback r q hr with h1 | ⟨h1, -, hnone⟩ <;> rcases hback r' q hr' with h2 | ⟨h2, -, hnone'⟩
    · exact h.maker r r' q h1 h2
    · exact absurd h1 (hnone' r)
    · exact absurd h2 (hnone r')
    · rw [h1, h2]

theorem Inv.of_thread (h : Inv waitLock m) (hpl : m.scheduler x = .away p rest) :
    m.handler x = false ∧ (∀ y, y ≠ x → (m.scheduler y).engaged ≠ some p) ∧
      ∀ r, (m.scheduler x).busy = some r → r = p := by
  refine ⟨?_, fun y hyx hy => hyx (h.alone y x p hy (by rw [hpl]; rfl)), fun r hr => ?_⟩
  · by_contra hh
    have := h.calm x (by simpa using hh)
    simp [hpl, Place.calm] at this
  · rw [hpl] at hr
    exact (Option.some.inj hr).symm

section

variable (h : Inv waitLock m) (hx : m.thread x = some p)
include h hx

theorem Inv.local (slot' : Slot κ) (pc' : Pc ι κ Λ) (below' : List (Pc ι κ Λ)) (lock' : Lock ι Λ → Option γ)
    (c' : Cpu ι) (hproc : c'.proc = (m.cpu x).proc) (hother : ∀ y, y ≠ x → ∀ l, lock' l = some y ↔ m.lock l = some y)
    (hheld : {l | lock' l = some x}.encard = c'.noff) (hintr : c'.intr = true → c'.noff = 0)
    (hholds : pc'.Holds waitLock p c'.noff fun l => lock' l = some x) (hruns : pc'.Runs slot'.task.state)
    (hbelow : ∀ f ∈ below', f.Holds waitLock p 0 fun _ => False) (hturns : Turns m p pc' below') :
    Inv waitLock { m with
      slots := update m.slots p slot'
      pc := update m.pc p pc'
      below := update m.below p below'
      lock := lock'
      cpu := update m.cpu x c' } := by
  obtain ⟨rest, hpl⟩ := h.thread_iff.mp hx
  obtain ⟨hh, hp, hbusy⟩ := h.of_thread hpl
  have hl := h.replace hh (m.scheduler x) lock' c' slot' pc' below' hp hbusy (by rw [hpl]; rfl)
    (hproc.trans (h.proc x)) hother hheld hintr (by rw [hpl]; trivial) (fun rest' hc => ?_) (fun _ _ => ⟨hholds, hruns⟩)
    (fun hc => ?_) hbelow hturns (.inr (h.runs x p rest hpl).2.not_used)
  · rwa [← h.thread, update_eq_self, update_eq_self] at hl
  · simp [hpl] at hc
  · exact absurd (by rw [hpl]; rfl) hc

theorem Inv.move (slot' : Slot κ) (pc' : Pc ι κ Λ) (lock' : Lock ι Λ → Option γ) (c' : Cpu ι)
    (hproc : c'.proc = (m.cpu x).proc) (hother : ∀ y, y ≠ x → ∀ l, lock' l = some y ↔ m.lock l = some y)
    (hheld : {l | lock' l = some x}.encard = c'.noff) (hintr : c'.intr = true → c'.noff = 0)
    (hholds : pc'.Holds waitLock p c'.noff fun l => lock' l = some x) (hruns : pc'.Runs slot'.task.state)
    (hturns : Turns m p pc' (m.below p)) :
    Inv waitLock { m with
      slots := update m.slots p slot'
      pc := update m.pc p pc'
      lock := lock'
      cpu := update m.cpu x c' } := by
  have hl := h.local hx slot' pc' (m.below p) lock' c' hproc hother hheld hintr hholds hruns (h.below p) hturns
  rwa [update_eq_self] at hl

theorem Inv.stay (slot' : Slot κ) {pc' : Pc ι κ Λ}
    (hholds : pc'.Holds waitLock p (m.cpu x).noff fun l => m.lock l = some x) (hruns : pc'.Runs slot'.task.state)
    (hturns : Turns m p pc' (m.below p)) :
    Inv waitLock { m with
      slots := update m.slots p slot'
      pc := update m.pc p pc' } := by
  have hl := h.move hx slot' pc' m.lock (m.cpu x) rfl (fun _ _ _ => Iff.rfl) (h.held x) (h.intr x) hholds hruns
    hturns
  rwa [update_eq_self] at hl

theorem Inv.goto (pc' : Pc ι κ Λ) (hholds : pc'.Holds waitLock p (m.cpu x).noff fun l => m.lock l = some x)
    (hruns : pc'.Runs (m.slots p).task.state) (hturns : Turns m p pc' (m.below p)) :
    Inv waitLock { m with pc := update m.pc p pc' } := by
  have hl := h.stay hx (m.slots p) hholds hruns hturns
  rwa [update_eq_self] at hl

end

section Locks

variable [DecidableEq Λ] {l : Lock ι Λ} {m₁ : Machine ι κ Λ γ}

theorem acquire_eq (hok : m₁.acquire x l = .ok m') : m₁.lock l ≠ some x ∧ m' = { m₁ with
    cpu := update m₁.cpu x (m₁.cpu x).pushOff
    lock := update m₁.lock l (some x) } := by
  revert hok
  fun_cases Machine.acquire m₁ x l <;> intro hok <;> cases hok
  next hl => exact ⟨hl, rfl⟩

theorem release_eq (hok : m₁.release x l = .ok m') : m₁.lock l = some x ∧
    ∃ c, (m₁.cpu x).popOff = .ok c ∧ m' = { m₁ with
      cpu := update m₁.cpu x c
      lock := update m₁.lock l none } := by
  rw [Machine.release] at hok
  split at hok
  next hl =>
    obtain ⟨c, hc, hok⟩ := bind_return_eq_ok.mp hok
    exact ⟨hl, c, hc, hok.symm⟩
  next => simp at hok

theorem Inv.acquire (h : Inv waitLock m) (hx : m.thread x = some p) {pc' : Pc ι κ Λ}
    (hok : { m with pc := update m.pc p pc' }.acquire x l = .ok m')
    (hready : m.lock l = none ∨ m.lock l = some x)
    (hholds : pc'.Holds waitLock p ((m.cpu x).noff + 1) fun l' => l' = l ∨ m.lock l' = some x)
    (hruns : pc'.Runs (m.slots p).task.state) (hturns : Turns m p pc' (m.below p)) : Inv waitLock m' := by
  obtain ⟨hl, rfl⟩ := acquire_eq hok
  have hl' : m.lock l ≠ some x := hl
  have hmove := h.move hx (m.slots p) pc' (update m.lock l (some x)) (m.cpu x).pushOff rfl
    (fun y hy => lock_update_other rfl (.inl (hready.resolve_right hl')) (.inr rfl) hy) (h.held_acquire hl')
    (fun hc => Bool.noConfusion (show false = true from hc)) ?_ hruns hturns
  · rwa [update_eq_self] at hmove
  · simp only [lock_acquired]
    exact hholds

theorem Inv.release (h : Inv waitLock m) (hx : m.thread x = some p) {pc' : Pc ι κ Λ}
    (hok : { m with pc := update m.pc p pc' }.release x l = .ok m')
    (hholds : m.lock l = some x → pc'.Holds waitLock p ((m.cpu x).noff - 1) fun l' => l' ≠ l ∧ m.lock l' = some x)
    (hruns : pc'.Runs (m.slots p).task.state) (hturns : Turns m p pc' (m.below p)) : Inv waitLock m' := by
  obtain ⟨hl, c, hc, rfl⟩ := release_eq hok
  have hl' : m.lock l = some x := hl
  obtain ⟨hproc, hnoff, hintr⟩ := Cpu.popOff_eq hc
  have hmove := h.move hx (m.slots p) pc' (update m.lock l none) c hproc
    (fun y hy => lock_update_other rfl (.inr hl') (.inl rfl) hy) (by rw [hnoff]; exact h.held_release hl') hintr
    ?_ hruns hturns
  · rwa [update_eq_self] at hmove
  · simp only [lock_released]
    rw [hnoff]
    exact hholds hl'

end Locks

theorem Inv.flags (h : Inv waitLock m) (hx : m.thread x = some p) {pc' : Pc ι κ Λ} (c' : Cpu ι)
    (hproc : c'.proc = (m.cpu x).proc) (hnoff : c'.noff = (m.cpu x).noff) (hintr : c'.intr = true → c'.noff = 0)
    (hholds : pc'.Holds waitLock p (m.cpu x).noff fun l => m.lock l = some x)
    (hruns : pc'.Runs (m.slots p).task.state) (hturns : Turns m p pc' (m.below p)) :
    Inv waitLock { m with
      pc := update m.pc p pc'
      cpu := update m.cpu x c' } := by
  have hl := h.move hx (m.slots p) pc' m.lock c' hproc (fun _ _ _ => Iff.rfl) (by rw [hnoff]; exact h.held x) hintr
    (by rw [hnoff]; exact hholds) hruns hturns
  rwa [update_eq_self] at hl

theorem Inv.park (h : Inv waitLock m) (hq : ∀ x, (m.scheduler x).busy ≠ some q) (slot' : Slot κ) (pc' : Pc ι κ Λ)
    (below' : List (Pc ι κ Λ)) (hp : Parked q pc' below' slot'.task.state)
    (hframes : pc' = m.pc q ∧ below' = m.below q ∨ pc' = .forkret ∧ below' = [])
    (hmade : slot'.task.state = (m.slots q).task.state ∨ ∀ r, ¬Makes m r q) :
    Inv waitLock { m with
      slots := update m.slots q slot'
      pc := update m.pc q pc'
      below := update m.below q below' } := by
  have hback : ∀ r r', Makes { m with
      slots := update m.slots q slot'
      pc := update m.pc q pc'
      below := update m.below q below' } r r' → Makes m r r' := by
    rintro r r' ⟨f, hf, hr'⟩
    by_cases hr : r = q
    · subst hr
      simp only [update_self] at hf
      rcases hframes with ⟨rfl, rfl⟩ | ⟨rfl, rfl⟩
      · exact ⟨f, hf, hr'⟩
      · obtain rfl := List.mem_singleton.mp hf
        simp [Pc.makes] at hr'
    · simp only [update_of_ne hr] at hf
      exact ⟨f, hf, hr'⟩
  refine ⟨h.held, h.intr, h.thread, h.proc, h.place, h.calm, h.alone, fun y r rest hy => ?_, fun y r rest hy => ?_,
    fun r hr => ?_, fun r => ?_, fun r => ?_, fun r r' hm => ?_, fun r r' q' hr hr' =>
      h.maker r r' q' (hback r q' hr) (hback r' q' hr')⟩
  · have hy' : m.scheduler y = .proc r rest ∨ m.scheduler y = .switch r rest := hy
    have hrq : r ≠ q := by
      rintro rfl
      exact hq y (by rcases hy' with hy | hy <;> rw [hy] <;> rfl)
    simp only [update_of_ne hrq]
    exact h.chosen y r rest hy
  · have hy' : m.scheduler y = .away r rest := hy
    have hrq : r ≠ q := by
      rintro rfl
      exact hq y (by rw [hy']; rfl)
    simp only [update_of_ne hrq]
    exact h.runs y r rest hy
  · by_cases hrq : r = q
    · subst hrq
      simpa using hp
    · simp only [update_of_ne hrq]
      exact h.parked r hr
  · by_cases hrq : r = q
    · subst hrq
      simp only [update_self]
      rcases hframes with ⟨-, rfl⟩ | ⟨-, rfl⟩
      · exact h.below r
      · simp
    · simp only [update_of_ne hrq]
      exact h.below r
  · by_cases hrq : r = q
    · subst hrq
      simp only [update_self]
      rcases hframes with ⟨rfl, rfl⟩ | ⟨rfl, rfl⟩
      · exact h.bottom r
      · intro f fs hs hb
        rcases List.suffix_cons_iff.mp hs with heq | hs
        · exact (List.cons.inj heq).2
        · simp at hs
    · simp only [update_of_ne hrq]
      exact h.bottom r
  · have hst := h.made r r' (hback r r' hm)
    by_cases hr' : r' = q
    · subst hr'
      rcases hmade with heq | hnone
      · simpa [heq] using hst
      · exact absurd (hback r r' hm) (hnone r)
    · simpa [update_of_ne hr'] using hst

theorem Inv.slot (h : Inv waitLock m) (hq : ∀ x, (m.scheduler x).busy ≠ some q) (slot' : Slot κ)
    (hp : Parked q (m.pc q) (m.below q) slot'.task.state)
    (hmade : slot'.task.state = (m.slots q).task.state ∨ ∀ r, ¬Makes m r q) :
    Inv waitLock { m with slots := update m.slots q slot' } := by
  have hl := h.park hq slot' (m.pc q) (m.below q) hp (.inl ⟨rfl, rfl⟩) hmade
  rwa [update_eq_self, update_eq_self] at hl

-- wakeup(), kill() and the freeproc() of wait(): what a thread or a handler does to a slot
-- whose lock it has.
theorem Inv.foreign [DecidableEq κ] (h : Inv waitLock m) {e : Edit κ} (hlock : m.lock (.proc q) = some x)
    (hx : m.thread x = some q → (m.slots q).task.state = .RUNNING)
    (he : (∃ c, e = .wake c) ∨ e = .kill ∨ e = .table .free ∧ (m.slots q).task.state = .ZOMBIE) :
    Inv waitLock { m with slots := update m.slots q (e.run (m.slots q)) } := by
  -- the state stays, or it is one of two changes
  have hcases : (e.run (m.slots q)).task.state = (m.slots q).task.state ∨
      (m.slots q).task.state = .SLEEPING ∧ (e.run (m.slots q)).task.state = .RUNNABLE ∨
      (m.slots q).task.state = .ZOMBIE ∧ (e.run (m.slots q)).task.state = .UNUSED := by
    rcases he with ⟨c, rfl⟩ | rfl | ⟨rfl, hst⟩
    · simp only [Edit.run]
      split
      next hc => exact .inr (.inl ⟨hc.1, rfl⟩)
      next => exact .inl rfl
    · by_cases hst : (m.slots q).task.state = .SLEEPING
      · exact .inr (.inl ⟨hst, by simp [Edit.run, hst]⟩)
      · exact .inl (by simp [Edit.run, hst])
    · exact .inr (.inr ⟨hst, rfl⟩)
  have hparked : (m.slots q).task.state ≠ .RUNNING → ∀ y, (m.scheduler y).busy ≠ some q :=
    fun hst => h.not_busy hlock hst fun ht => hst (hx ht)
  have hfree : (m.slots q).task.state ≠ .USED → ∀ r, ¬Makes m r q := fun hst r hm => hst (h.made r q hm)
  rcases hcases with hsame | ⟨hst, hst'⟩ | ⟨hst, hst'⟩
  · refine h.congr_state fun r => ?_
    by_cases hr : r = q
    · rw [hr, update_self, hsame]
    · rw [update_of_ne hr]
  · have hpk := hparked (by simp [hst])
    have hp := h.parked q hpk
    rw [hst] at hp
    exact h.slot hpk _ (by rw [hst']; exact .inl hp) (.inr (hfree (by simp [hst])))
  · have hpk := hparked (by simp [hst])
    have hp := h.parked q hpk
    rw [hst] at hp
    exact h.slot hpk _ (by rw [hst']; exact ⟨hp.1, .inr hp.2⟩) (.inr (hfree (by simp [hst])))

section Leave

variable {pc' : Pc ι κ Λ}

section

variable (h : Inv waitLock m) (hx : m.thread x = some p) (hlock : m.lock (.proc p) = some x)
  (hnoff : (m.cpu x).noff = 1)
include h hx hlock hnoff

theorem Inv.sched_eq (hst : (m.slots p).task.state ≠ .RUNNING) :
    { m with pc := update m.pc p pc' }.sched x = .ok { m with
      pc := update m.pc p pc'
      thread := update m.thread x none
      scheduler := update m.scheduler x (m.scheduler x).back } := by
  obtain ⟨-, -, hproc⟩ := h.at_pc hx rfl
  have hintr : (m.cpu x).intr = false := by
    by_contra hc
    have := h.intr x (by simpa using hc)
    omega
  simp [Machine.sched, hproc, hlock, hnoff, hst, hintr, hx]

theorem Inv.leave (hp : Parked p pc' (m.below p) (m.slots p).task.state) (hturns : Turns m p pc' (m.below p)) :
    Inv waitLock { m with
      pc := update m.pc p pc'
      thread := update m.thread x none
      scheduler := update m.scheduler x (m.scheduler x).back } := by
  obtain ⟨rest, hpl⟩ := h.thread_iff.mp hx
  obtain ⟨hh, hp', hbusy⟩ := h.of_thread hpl
  have hproc := h.proc x
  have hback : (m.scheduler x).back = .clear p rest := by rw [hpl]; rfl
  rw [hpl] at hproc
  rw [hback]
  have hl := h.replace hh (.clear p rest) m.lock (m.cpu x) (m.slots p) pc' (m.below p) hp' hbusy rfl hproc
    (fun _ _ _ => Iff.rfl) (h.held x) (h.intr x) ⟨hnoff, hlock⟩ (by simp) (by simp) (fun _ => hp) (h.below p)
    hturns (.inl rfl)
  rwa [update_eq_self, update_eq_self, update_eq_self] at hl

end

end Leave

end Xv6.Smp
