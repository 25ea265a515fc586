import Xv6.Smp.Handover

set_option linter.unusedSectionVars false

namespace Xv6.Smp

open Lib
open Function (update update_comm update_eq_self update_of_ne update_self)
open Sched (Slot Edit)

variable {ι κ Λ γ : Type} {waitLock : Λ} {m m' : Machine ι κ Λ γ} {x y : γ} {p q : ι}
variable [DecidableEq ι] [DecidableEq γ]

theorem Pc.Holds.runs {pc : Pc ι κ Λ} (h : pc.Holds waitLock p 0 fun _ => False) : pc.Runs .RUNNING := by
  cases pc with
  | run | fork np s => rfl
  | forkret => exact h.2.elim
  | sleep q c lk s =>
    cases s with
    | switch => exact h.2.2.elim
    | _ => rfl
  | yield q s =>
    cases s with
    | switch => exact h.2.2.elim
    | _ => rfl
  | exit q s =>
    cases s with
    | release => exact h.2.2.2.elim
    | switch | off b => exact h.2.2.elim
    | _ => rfl

theorem Inv.interrupt (h : Inv waitLock m) (hx : m.thread x = some p) (hintr : (m.cpu x).intr = true) :
    Inv waitLock { m with
      pc := update m.pc p .run
      below := update m.below p (m.pc p :: m.below p)
      cpu := update m.cpu x { m.cpu x with intr := false } } := by
  obtain ⟨hholds, hruns, -⟩ := h.at_pc hx rfl
  have hzero := h.intr x hintr
  have hcalm : (m.pc p).Holds waitLock p 0 fun _ => False := by
    rw [hzero] at hholds
    exact hholds.mono fun l hl => h.none_held hzero l hl
  have hst : (m.slots p).task.state = .RUNNING := by
    by_contra hst
    exact h.none_held hzero _ (hruns.lock hholds hst)
  have hl := h.local hx (m.slots p) .run (m.pc p :: m.below p) m.lock { m.cpu x with intr := false } rfl
    (fun _ _ _ => Iff.rfl) (h.held x) (fun hc => Bool.noConfusion (show false = true from hc)) trivial hst
    (fun f hf => ?_) ⟨fun f fs hs hb => ?_, fun f hf q hq => ?_⟩
  · rwa [update_eq_self] at hl
  · rcases List.mem_cons.mp hf with rfl | hf
    · exact hcalm
    · exact h.below p f hf
  · rcases List.suffix_cons_iff.mp hs with heq | hs
    · obtain ⟨rfl, -⟩ := List.cons.inj heq
      simp [Pc.bottom] at hb
    · exact h.bottom p f fs hs hb
  · rcases List.mem_cons.mp hf with rfl | hf
    · simp [Pc.makes] at hq
    · exact .inl ⟨f, hf, hq⟩

theorem Inv.iret (h : Inv waitLock m) (hx : m.thread x = some p) (hpc : m.pc p = .run) {f : Pc ι κ Λ}
    {fs : List (Pc ι κ Λ)} (hbelow : m.below p = f :: fs) (hzero : (m.cpu x).noff = 0) :
    Inv waitLock { m with
      pc := update m.pc p f
      below := update m.below p fs
      cpu := update m.cpu x { m.cpu x with intr := true } } := by
  have hst : (m.slots p).task.state = .RUNNING := (h.at_pc hx hpc).2.1
  have hall := h.below p
  have hbottom := h.bottom p
  rw [hbelow] at hall hbottom
  have hf := hall f List.mem_cons_self
  have hl := h.local hx (m.slots p) f fs m.lock { m.cpu x with intr := true } rfl (fun _ _ _ => Iff.rfl) (h.held x)
    (fun _ => hzero) ?_ (by rw [hst]; exact hf.runs) (fun g hg => hall g (List.mem_cons_of_mem _ hg))
    ⟨fun g gs hs => hbottom g gs (hs.trans (List.suffix_cons _ _)), fun g hg q hq => .inl ⟨g, ?_, hq⟩⟩
  · rwa [update_eq_self] at hl
  · simp only [hzero]
    exact hf.mono fun _ hl => hl.elim
  · rw [hbelow]
    exact List.mem_cons_of_mem _ hg

-- A step keeps the invariant, unless acquire() or release() panics.
def Outcome (waitLock : Λ) : Except Panic (Machine ι κ Λ γ) → Prop
  | .ok m' => Inv waitLock m'
  | .error e => e = .acquire ∨ e = .release

variable [DecidableEq Λ] {l : Lock ι Λ} {pc' : Pc ι κ Λ} (h : Inv waitLock m) (hx : m.thread x = some p)
include h hx

theorem Inv.outcome_acquire (hready : m.lock l = none ∨ m.lock l = some x)
    (hholds : pc'.Holds waitLock p ((m.cpu x).noff + 1) fun l' => l' = l ∨ m.lock l' = some x)
    (hruns : pc'.Runs (m.slots p).task.state) (hturns : Turns m p pc' (m.below p)) :
    Outcome waitLock ({ m with pc := update m.pc p pc' }.acquire x l) := by
  cases hok : { m with pc := update m.pc p pc' }.acquire x l with
  | ok m' => exact h.acquire hx hok hready hholds hruns hturns
  | error e =>
    revert hok
    fun_cases Machine.acquire { m with pc := update m.pc p pc' } x l <;> intro hok <;> cases hok
    exact .inl rfl

theorem Inv.outcome_release
    (hholds : m.lock l = some x → pc'.Holds waitLock p ((m.cpu x).noff - 1) fun l' => l' ≠ l ∧ m.lock l' = some x)
    (hruns : pc'.Runs (m.slots p).task.state) (hturns : Turns m p pc' (m.below p)) :
    Outcome waitLock ({ m with pc := update m.pc p pc' }.release x l) := by
  cases hok : { m with pc := update m.pc p pc' }.release x l with
  | ok m' => exact h.release hx hok hholds hruns hturns
  | error e =>
    simp only [Machine.release] at hok
    split at hok
    next hl =>
      obtain ⟨c, hc⟩ := h.popOff_ok hl
      simp [hc] at hok
    next =>
      simp only [Except.error.injEq] at hok
      exact .inr hok.symm

variable [DecidableEq κ]

theorem Inv.switch (hlock : m.lock (.proc p) = some x) (hnoff : (m.cpu x).noff = 1)
    (hst : (m.slots p).task.state = st) (hne : st ≠ .RUNNING) (hp : Parked p pc' (m.below p) st)
    (hturns : Turns m p pc' (m.below p)) : Outcome waitLock ({ m with pc := update m.pc p pc' }.exec x .sched) := by
  subst hst
  rw [Machine.exec, h.sched_eq hx hlock hnoff hne]
  exact h.leave hx hlock hnoff hp hturns

theorem Inv.sleepStep (hpc : m.pc p = .sleep q c lk s) (hstep : s.step (m.cpu x).intena q c lk = (act, pc'))
    (hready : act.ready m x) : Outcome waitLock ({ m with pc := update m.pc p pc' }.exec x act) := by
  obtain ⟨hholds, hruns, -⟩ := h.at_pc hx hpc
  have hq : q = p := by cases s <;> exact hholds.1
  subst hq
  cases s <;> cases hstep
  case lock => exact h.outcome_acquire hx hready ⟨rfl, by rw [hholds.2.1], .inr hholds.2.2, .inl rfl⟩ hruns (h.plain rfl)
  case release => exact h.outcome_release hx (fun _ => ⟨rfl, by rw [hholds.2.1], by simp, hholds.2.2.2⟩) hruns (h.plain rfl)
  case chan => exact h.stay hx _ hholds hruns (h.plain rfl)
  case state => exact h.stay hx _ hholds rfl (h.plain rfl)
  case switch => exact h.switch hx hholds.2.2 hholds.2.1 hruns (by simp) ⟨c, lk, _, rfl⟩ (h.plain rfl)
  case off b => exact h.flags hx { m.cpu x with intena := b } rfl rfl (h.intr x) hholds hruns (h.plain rfl)
  case tidy => exact h.stay hx _ hholds hruns (h.plain rfl)
  case unlock => exact h.outcome_release hx (fun _ => ⟨rfl, by rw [hholds.2.1]⟩) hruns (h.plain rfl)
  case retake => exact h.outcome_acquire hx hready trivial hruns (h.plain rfl)

theorem Inv.yieldStep (hpc : m.pc p = .yield q s) (hstep : s.step (m.cpu x).intena q = (act, pc'))
    (hready : act.ready m x) : Outcome waitLock ({ m with pc := update m.pc p pc' }.exec x act) := by
  obtain ⟨hholds, hruns, -⟩ := h.at_pc hx hpc
  have hq : q = p := by cases s <;> exact hholds.1
  subst hq
  cases s <;> cases hstep
  case lock => exact h.outcome_acquire hx hready ⟨rfl, by rw [hholds.2], .inl rfl⟩ hruns (h.plain rfl)
  case state => exact h.stay hx _ hholds rfl (h.plain rfl)
  case switch => exact h.switch hx hholds.2.2 hholds.2.1 hruns (by simp) (.inr (.inl ⟨_, rfl⟩)) (h.plain rfl)
  case off b => exact h.flags hx { m.cpu x with intena := b } rfl rfl (h.intr x) hholds hruns (h.plain rfl)
  case unlock => exact h.outcome_release hx (fun _ => trivial) hruns (h.plain rfl)

theorem Inv.foreign_goto (pc' : Pc ι κ Λ) (hst : (m.slots p).task.state = .RUNNING)
    {e : Edit κ} (hlock : m.lock (.proc q) = some x)
    (he : (∃ c, e = .wake c) ∨ e = .kill ∨ e = .table .free ∧ (m.slots q).task.state = .ZOMBIE)
    (hholds : pc'.Holds waitLock p (m.cpu x).noff fun l => m.lock l = some x) (hruns : pc'.Runs .RUNNING)
    (hbottom : pc'.bottom = true → m.below p = []) (hmakes : pc'.makes = none) :
    Inv waitLock { m with
      pc := update m.pc p pc'
      slots := update m.slots q (e.run (m.slots q)) } := by
  have hself : m.thread x = some q → (m.slots q).task.state = .RUNNING := by
    intro hq
    rw [hx] at hq
    rw [← Option.some.inj hq]
    exact hst
  have hf := h.foreign hlock hself he
  refine hf.goto (p := p) hx pc' hholds ?_ (hf.turns hbottom (by simp [hmakes]))
  -- p stays RUNNING, also if it is q
  have hkeep : (update m.slots q (e.run (m.slots q)) p).task.state = .RUNNING := by
    by_cases hpq : p = q
    · subst hpq
      rw [update_self]
      rcases he with ⟨c, rfl⟩ | rfl | ⟨rfl, hz⟩
      · simp [Edit.run, hst]
      · simp [Edit.run, hst]
      · simp [hst] at hz
    · rw [update_of_ne hpq]
      exact hst
  simp only [hkeep]
  exact hruns

theorem Inv.exitStep (hpc : m.pc p = .exit q s) {act : Act ι κ Λ} {ch : Choice ι κ Λ}
    (hstep : s.step waitLock (m.cpu x).intena q ch = some (act, pc')) (hready : act.ready m x) :
    Outcome waitLock ({ m with pc := update m.pc p pc' }.exec x act) := by
  obtain ⟨hholds, hruns, -⟩ := h.at_pc hx hpc
  have hbelow : m.below p = [] := h.bottom_at hpc rfl
  have hq : q = p := by cases s <;> exact hholds.1
  subst hq
  have hturns : ∀ s', Turns m q (.exit q s') (m.below q) := fun s' => h.turns (fun _ => hbelow) (by simp [Pc.makes])
  cases s with
  | wait =>
    cases ch <;> cases hstep
    exact h.outcome_acquire hx hready ⟨rfl, by rw [hholds.2], .inl rfl⟩ hruns (hturns _)
  | scan =>
    cases ch <;> simp only [ExitStage.step, Option.some.injEq, reduceCtorEq] at hstep
    case wakeup r c =>
      split at hstep
      next =>
        cases hstep
        exact h.outcome_acquire hx hready ⟨rfl, by rw [hholds.2.1], .inr hholds.2.2, .inl rfl⟩ hruns
          (hturns _)
      next =>
        cases hstep
        exact h.goto hx _ hholds hruns (hturns _)
    case go =>
      cases hstep
      exact h.outcome_acquire hx hready ⟨rfl, by rw [hholds.2.1], .inr hholds.2.2, .inl rfl⟩ hruns
        (hturns _)
  | test r c =>
    cases ch <;> cases hstep
    have hst : (m.slots q).task.state = .RUNNING := hruns
    exact h.foreign_goto hx _ hst hholds.2.2.2 (.inl ⟨c, rfl⟩) hholds rfl (fun _ => hbelow) rfl
  | drop r =>
    cases ch <;> cases hstep
    exact h.outcome_release hx (fun _ => ⟨rfl, by rw [hholds.2.1], by simp, hholds.2.2.1⟩) hruns
      (hturns _)
  | state =>
    cases ch <;> cases hstep
    exact h.stay hx _ hholds rfl (hturns _)
  | release =>
    cases ch <;> cases hstep
    exact h.outcome_release hx (fun _ => ⟨rfl, by rw [hholds.2.1], by simp, hholds.2.2.2⟩) hruns
      (hturns _)
  | switch =>
    cases ch <;> cases hstep
    exact h.switch hx hholds.2.2 hholds.2.1 hruns (by simp) ⟨hbelow, _, rfl⟩ (hturns _)
  | off b => exact hruns.elim

-- The end of a fork(): np is no longer made by p, and becomes RUNNABLE or free.
theorem Inv.unmake (hpc : m.pc p = .fork np s) (slot' : Slot κ)
    (hst' : slot'.task.state = .RUNNABLE ∨ slot'.task.state = .UNUSED) (hlock : m.lock (.proc np) = some x) :
    Inv waitLock { m with
      pc := update m.pc p .run
      slots := update m.slots np slot' } := by
  have hst : (m.slots p).task.state = .RUNNING := (h.at_pc hx hpc).2.1
  have hbelow : m.below p = [] := h.bottom_at hpc rfl
  have hmine : Makes m p np := ⟨_, List.mem_cons_self, by rw [hpc]; rfl⟩
  have hused := h.made p np hmine
  have hne : np ≠ p := by
    rintro rfl
    simp [hst] at hused
  have hg := h.goto hx .run trivial hst (h.plain rfl)
  have hpark := hg.not_busy (q := np) hlock (by simp [hused]) (by
    rw [hx]
    simpa using Ne.symm hne)
  have hp := hg.parked np hpark
  simp only [hused, update_of_ne hne] at hp
  refine hg.slot hpark slot' ?_ (.inr fun r hm => ?_)
  · simp only [update_of_ne hne]
    rcases hst' with hst' | hst' <;> rw [hst']
    · exact .inr (.inr hp.2)
    · exact ⟨hp.1, .inl hp.2⟩
  · -- nobody else makes np
    obtain ⟨f, hf, hq⟩ := hm
    by_cases hr : r = p
    · subst hr
      simp only [update_self, hbelow, List.mem_singleton] at hf
      subst hf
      simp [Pc.makes] at hq
    · simp only [update_of_ne hr] at hf
      exact hr (h.maker r p np ⟨f, hf, hq⟩ hmine)

theorem Inv.make (hpc : m.pc p = .run) (hbelow : m.below p = []) (hq : (m.slots q).task.state = .UNUSED)
    (hlock : m.lock (.proc q) = some x) (slot' : Slot κ) (hst' : slot'.task.state = .USED) :
    Inv waitLock { m with
      slots := update m.slots q slot'
      pc := update (update m.pc p (.fork q .making)) q .forkret
      below := update m.below q [] } := by
  have hst : (m.slots p).task.state = .RUNNING := (h.at_pc hx hpc).2.1
  have hne : p ≠ q := by
    rintro rfl
    simp [hst] at hq
  have hpark := h.not_busy hlock (by simp [hq]) (by rw [hx]; simpa using hne)
  have hnone : ∀ r, ¬Makes m r q := by
    intro r hm
    have := h.made r q hm
    simp [hq] at this
  have hp := h.park hpark slot' .forkret [] (by rw [hst']; exact ⟨rfl, rfl⟩) (.inr ⟨rfl, rfl⟩) (.inr hnone)
  have hg := hp.goto (p := p) hx (.fork q .making) hlock (by simp only [update_of_ne hne]; exact hst)
    (hp.turns (fun _ => by simpa [update_of_ne hne] using hbelow) ?_)
  · rwa [update_comm hne]
  · intro r hr
    obtain rfl := Option.some.inj hr
    refine .inr ⟨by simpa using hst', fun r' hm => ?_⟩
    obtain ⟨f, hf, hmk⟩ := hm
    by_cases hrq : r' = q
    · subst hrq
      simp only [update_self, List.mem_singleton] at hf
      subst hf
      simp [Pc.makes] at hmk
    · simp only [update_of_ne hrq] at hf
      exact hnone r' ⟨f, hf, hmk⟩

theorem Inv.forkStep (hpc : m.pc p = .fork np s) (hstep : s.step np ch = some (act, pc')) (hready : act.ready m x) :
    Outcome waitLock ({ m with pc := update m.pc p pc' }.exec x act) := by
  obtain ⟨hholds, hruns, -⟩ := h.at_pc hx hpc
  have hbelow : m.below p = [] := h.bottom_at hpc rfl
  have hturns : ∀ s', Turns m p (.fork np s') (m.below p) :=
    fun s' => h.turns (fun _ => hbelow) fun q hq => .inl (by rw [hpc]; exact hq)
  have hne : ∀ l, (Lock.proc np : Lock ι Λ) ≠ .other l := by simp
  cases s with
  | making =>
    cases ch with
    | acquire l =>
      cases l <;> cases hstep
      exact h.outcome_acquire hx hready (.inr hholds) hruns (hturns _)
    | release l =>
      cases l <;> cases hstep
      exact h.outcome_release hx (fun _ => ⟨hne _, hholds⟩) hruns (hturns _)
    | fail =>
      cases hstep
      exact h.unmake hx hpc _ (.inr rfl) hholds
    | go =>
      cases hstep
      exact h.outcome_release hx (fun _ => trivial) hruns (hturns _)
    | _ => simp [ForkStage.step] at hstep
  | linking =>
    cases ch with
    | acquire l =>
      cases l <;> cases hstep
      exact h.outcome_acquire hx hready trivial hruns (hturns _)
    | release l =>
      cases l <;> cases hstep
      exact h.outcome_release hx (fun _ => trivial) hruns (hturns _)
    | go =>
      cases hstep
      exact h.outcome_acquire hx hready (.inl rfl) hruns (hturns _)
    | _ => simp [ForkStage.step] at hstep
  | ready =>
    cases ch <;> cases hstep
    exact h.unmake hx hpc _ (.inl rfl) hholds

theorem Inv.runStep (hpc : m.pc p = .run) {act : Act ι κ Λ} {ch : Choice ι κ Λ}
    (hstep : (Pc.run : Pc ι κ Λ).step waitLock (m.cpu x) m.slots ch = some (act, pc')) (hready : act.ready m x)
    (ho : Orderly m ⟨x, ch⟩) : Outcome waitLock ({ m with pc := update m.pc p pc' }.exec x act) := by
  obtain ⟨-, hruns, hproc⟩ := h.at_pc hx hpc
  have hst : (m.slots p).task.state = .RUNNING := hruns
  -- one lemma for what it does to other slots
  have hedit : ∀ q e, m.lock (.proc q) = some x →
      (∃ c, e = .wake c) ∨ e = .kill ∨ e = .table .free ∧ (m.slots q).task.state = .ZOMBIE →
      Outcome waitLock ({ m with pc := update m.pc p .run }.exec x (.edit q e)) := by
    intro q e hlock he
    have hf := h.foreign_goto hx .run hst hlock he trivial rfl (by simp [Pc.bottom]) rfl
    rcases he with ⟨c, rfl⟩ | rfl | ⟨rfl, -⟩ <;> exact hf
  have hskip : Outcome waitLock ({ m with pc := update m.pc p .run }.exec x .skip) :=
    h.goto hx _ trivial hruns (h.plain rfl)
  cases ch with
  | acquire l =>
    cases hstep
    exact h.outcome_acquire hx hready trivial hruns (h.plain rfl)
  | release l =>
    cases hstep
    exact h.outcome_release hx (fun _ => trivial) hruns (h.plain rfl)
  | intr b =>
    cases hstep
    exact h.flags hx { m.cpu x with intr := b } rfl rfl (fun _ => ho) trivial hruns (h.plain rfl)
  | wakeup q c =>
    cases hstep
    refine hedit q _ (ho.resolve_right ?_) (.inl ⟨c, rfl⟩)
    rintro ⟨r, hr, hscan⟩
    obtain rfl : r = p := Option.some.inj (hr.symm.trans hx)
    simp [hpc] at hscan
  | kill q n =>
    cases hstep
    split
    next => exact hedit q _ ho (.inr (.inl rfl))
    next => exact hskip
  | reap q =>
    cases hstep
    split
    next hz => exact hedit q _ ho (.inr (.inr ⟨rfl, hz⟩))
    next => exact hskip
  | alloc q pid =>
    simp only [Pc.step] at hstep
    split at hstep
    next hq =>
      cases hstep
      exact h.make hx hpc (ho.2 p hx) hq ho.1 _ rfl
    next =>
      cases hstep
      exact hskip
  | sleep c lk =>
    simp only [Pc.step, hproc, Option.map_some, Option.some.injEq] at hstep
    cases hstep
    exact h.goto hx _ ⟨rfl, ho.1, ho.2⟩ hruns (h.plain rfl)
  | yield =>
    simp only [Pc.step, hproc, Option.map_some, Option.some.injEq] at hstep
    cases hstep
    exact h.goto hx _ ⟨rfl, ho⟩ hruns (h.plain rfl)
  | exit =>
    simp only [Pc.step, hproc, Option.map_some, Option.some.injEq] at hstep
    cases hstep
    exact h.goto hx _ ⟨rfl, ho.1⟩ hruns (h.turns (fun _ => ho.2 p hx) (by simp [Pc.makes]))
  | fail | go | interrupt | iret => simp [Pc.step] at hstep

theorem Inv.threadStep
    (hstep : (m.pc p).step waitLock (m.cpu x) m.slots ch = some (act, pc')) (hready : act.ready m x)
    (ho : Orderly m ⟨x, ch⟩) : Outcome waitLock ({ m with pc := update m.pc p pc' }.exec x act) := by
  cases hpc : m.pc p with
  | run => exact h.runStep hx hpc (hpc ▸ hstep) hready ho
  | sleep q c lk s =>
    rw [hpc] at hstep
    cases ch <;> simp only [Pc.step, Option.some.injEq, reduceCtorEq] at hstep
    exact h.sleepStep hx hpc hstep hready
  | yield q s =>
    rw [hpc] at hstep
    cases ch <;> simp only [Pc.step, Option.some.injEq, reduceCtorEq] at hstep
    exact h.yieldStep hx hpc hstep hready
  | exit q s =>
    rw [hpc] at hstep
    exact h.exitStep hx hpc hstep hready
  | fork np s =>
    rw [hpc] at hstep
    exact h.forkStep hx hpc hstep hready
  | forkret =>
    obtain ⟨-, hruns, hproc⟩ := h.at_pc hx hpc
    rw [hpc] at hstep
    cases ch <;> simp only [Pc.step, hproc, Option.map_some, Option.some.injEq, reduceCtorEq] at hstep
    cases hstep
    exact h.outcome_release hx (fun _ => trivial) hruns (h.plain rfl)

end Xv6.Smp
