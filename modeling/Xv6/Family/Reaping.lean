import Xv6.Family.Kinship

namespace Xv6.Family

open Lib Function

variable {m m' : State} {p q c z np : Fin NPROC}

section Wakeful

theorem Wakeful.quiet (h : Wakeful m) (hfits : ∀ q, (m'.place q).Fits q (m'.tasks q))
    (hparent : m'.parent = m.parent) (hinit : m'.initproc = m.initproc)
    (hzombie : ∀ q, m'.state q = .ZOMBIE → m.state q = .ZOMBIE) (hwaits : ∀ q, m'.Waits q → m.Waits q)
    (hplace : ∀ q, (m.place q).locked = true ∨ (m'.place q).locked = true → m'.place q = m.place q) :
    Wakeful m' := by
  refine ⟨hfits, fun q z hq hz hst => ?_, fun p status chan slots hp => ?_, fun p status hp q hq hw => ?_⟩
  · rw [hparent] at hz
    obtain ⟨hi, p, status, rest, slots, hp, hmem⟩ := h.woken q z (hwaits q hq) hz (hzombie z hst)
    exact ⟨hi.trans hinit.symm, p, status, rest, slots, by rw [hplace p (.inl (by rw [hp, Place.locked])), hp], hmem⟩
  · rw [hplace p (.inr (by rw [hp, Place.locked]))] at hp
    obtain ⟨hchan, hmem⟩ := h.exitWakeup p status chan slots hp
    rw [hparent]
    exact ⟨hchan, fun q hq hw => hmem q hq (hwaits q hw)⟩
  · rw [hplace p (.inr (by rw [hp, Place.locked]))] at hp
    rw [hparent] at hq
    exact h.exitLast p status hp q hq (hwaits q hw)

theorem Wakeful.own (hfits : ∀ q, (m'.place q).Fits q (m'.tasks q))
    (hunlocked : ∀ q, q ≠ p → (m'.place q).locked = false)
    (hwoken : ∀ q z, m'.Waits q → m'.parent z = some q → m'.state z = .ZOMBIE → q = m'.initproc ∧
      ∃ status rest slots, m'.place p = .reparentWakeup status rest slots ∧ q ∈ slots)
    (hexit : ∀ status chan slots, m'.place p = .exitWakeup status chan slots →
      chan = m'.parent p ∧ ∀ q, m'.parent p = some q → m'.Waits q → q ∈ slots)
    (hlast : ∀ status, m'.place p = .exitLast status → ∀ q, m'.parent p = some q → ¬m'.Waits q) :
    Wakeful m' := by
  have hp : ∀ q pl, m'.place q = pl → pl.locked = true → q = p := by
    intro q pl hq hl
    by_contra hne
    simp [hunlocked q hne, ← hq] at hl
  refine ⟨hfits, fun q z hq hz hst => ?_, fun q status chan slots hq => ?_, fun q status hq => ?_⟩
  · obtain ⟨hi, status, rest, slots, hpl, hmem⟩ := hwoken q z hq hz hst
    exact ⟨hi, p, status, rest, slots, hpl, hmem⟩
  · obtain rfl := hp q _ hq rfl
    exact hexit status chan slots hq
  · obtain rfl := hp q _ hq rfl
    exact hlast status hq

-- If only p may hold wait_lock and is not in the midst of waking initproc up, then
-- nobody sleeps in wait() with an exited child.
theorem Wakeful.calm (h : Wakeful m) (hkin : Kinship m) (halone : ∀ q, q ≠ p → m.waitLock ≠ some q)
    (hpl : ∀ status rest slots, m.place p ≠ .reparentWakeup status rest slots) (hq : m.Waits q)
    (hz : m.parent z = some q) : m.state z ≠ .ZOMBIE := by
  intro hst
  obtain ⟨-, p', status, rest, slots, hp', -⟩ := h.woken q z hq hz hst
  by_cases hne : p' = p
  · exact hpl status rest slots (hne ▸ hp')
  · simpa [hp', Place.locked] using hkin.alone halone hne

variable {l : Option (Fin NPROC)} {pl : Place} {r : Fin NPROC → Option Int}

theorem Wakeful.fits_goto {t : Fin NPROC → Task Chan} (h : Wakeful m) (htasks : ∀ q, q ≠ p → t q = m.tasks q)
    (hpl : pl.Fits p (t p)) (q : Fin NPROC) : (update m.place p pl q).Fits q (t q) := by
  by_cases hq : q = p
  · rw [hq, update_self]
    exact hpl
  · rw [update_of_ne hq, htasks q hq]
    exact h.fits q

theorem Kinship.alone_goto (h : Kinship m) (halone : ∀ q, q ≠ p → m.waitLock ≠ some q) (hq : q ≠ p) :
    (update m.place p pl q).locked = false := by
  rw [update_of_ne hq]
  exact h.alone halone hq

theorem Wakeful.goto (h : Wakeful m) (hkin : Kinship m) (halone : ∀ q, q ≠ p → m.waitLock ≠ some q)
    (hfrom : ∀ status rest slots, m.place p ≠ .reparentWakeup status rest slots) (hpl : pl.Fits p (m.tasks p))
    (hexit : ∀ status chan slots, pl = .exitWakeup status chan slots →
      chan = m.parent p ∧ ∀ q, m.parent p = some q → m.Waits q → q ∈ slots)
    (hlast : ∀ status, pl = .exitLast status → ∀ q, m.parent p = some q → ¬m.Waits q) :
    Wakeful ({ m with waitLock := l, result := r }.goto p pl) := by
  refine Wakeful.own (p := p) (h.fits_goto (fun _ _ => rfl) hpl) (fun q hq => hkin.alone_goto halone hq)
    (fun q z hq hz hst => absurd hst (h.calm hkin halone hfrom hq hz)) ?_ ?_
  all_goals simp only [State.goto, update_self]
  · exact hexit
  · exact hlast

theorem Wakeful.fits_at (h : Wakeful m) (hpl : m.place p = pl) : pl.Fits p (m.tasks p) := hpl ▸ h.fits p

theorem Kinship.lock_at (h : Kinship m) (hpl : m.place p = pl) (hl : pl.locked = true) : m.waitLock = some p :=
  h.lock p (hpl ▸ hl)

theorem Kinship.alone_at (h : Kinship m) (hpl : m.place p = pl) (hl : pl.locked = true) :
    ∀ q, q ≠ p → m.waitLock ≠ some q :=
  alone_of_some (h.lock_at hpl hl)

theorem Wakeful.reparentWakeup_done (h : Wakeful m) (hkin : Kinship m)
    (hpl : m.place p = .reparentWakeup status rest []) : Wakeful (m.goto p (.reparent status rest)) := by
  have halone := hkin.alone_at hpl rfl
  have hfits := h.fits_at hpl
  refine Wakeful.own (p := p) (h.fits_goto (fun _ _ => rfl) hfits) (fun q hq => hkin.alone_goto halone hq)
    (fun q z hq hz hst => ?_) (by simp [State.goto]) (by simp [State.goto])
  obtain ⟨-, p', status', rest', slots, hp', hmem⟩ := h.woken q z hq hz hst
  by_cases hne : p' = p
  · rw [hne, hpl, Place.reparentWakeup.injEq] at hp'
    simp [← hp'.2.2] at hmem
  · simpa [hp', Place.locked] using hkin.alone halone hne

theorem Wakeful.adopt (h : Wakeful m) (hkin : Kinship m) (hpl : m.place p = .reparent status (c :: rest)) :
    Wakeful (m.adopt p status c rest) := by
  have halone := hkin.alone_at hpl rfl
  have hfits := h.fits_at hpl
  refine Wakeful.own (p := p) (h.fits_goto (fun _ _ => rfl) hfits) (fun q hq => hkin.alone_goto halone hq)
    (fun q z hq hz hst => ?_) (by simp [State.adopt, State.goto]) (by simp [State.adopt, State.goto])
  by_cases hzc : z = c
  · subst hzc
    have hinit : m.initproc = q := by simpa [State.adopt, State.goto] using hz
    exact ⟨hinit.symm, status, rest, table, update_self .., mem_table q⟩
  · have hold : m.parent z = some q := by simpa [State.adopt, State.goto, hzc] using hz
    exact absurd hst (h.calm hkin halone (by simp [hpl]) hq hold)

theorem Place.Fits.wake (h : pl.Fits q task) (hs : task.state = .SLEEPING) :
    pl.Fits q { task with state := .RUNNABLE } := by
  cases pl <;> simp_all [Place.Fits]

theorem Place.Fits.congr (h : pl.Fits q task)
    (hstate : task'.state = task.state) (hchan : task'.chan = task.chan) : pl.Fits q task' := by
  unfold Place.Fits at h ⊢
  rwa [hstate, hchan]

-- Some sleepers, but not p, are made RUNNABLE.
def Rouses (p : Fin NPROC) (tasks t : Fin NPROC → Task Chan) : Prop :=
  t p = tasks p ∧
  ∀ q, t q = tasks q ∨ (tasks q).state = .SLEEPING ∧ t q = { tasks q with state := .RUNNABLE }

section

variable {t : Fin NPROC → Task Chan} (h : Rouses p m.tasks t)
include h

theorem Rouses.kind (q : Fin NPROC) : SameKind (m.state q) (t q).state := by
  rcases h.2 q with hq | ⟨hs, hq⟩
  · exact .inl (by rw [hq, State.state])
  · exact .inr ⟨.inl hs, by simp [hq, Alive]⟩

theorem Rouses.sleeps (hq : SleepsOn t q ch) : SleepsOn m.tasks q ch := by
  rcases h.2 q with heq | ⟨-, heq⟩
  · rwa [SleepsOn, heq] at hq
  · simp [SleepsOn, heq] at hq

theorem Rouses.fits (hw : Wakeful m) (q : Fin NPROC) : (m.place q).Fits q (t q) := by
  rcases h.2 q with heq | ⟨hs, heq⟩
  · rw [heq]
    exact hw.fits q
  · rw [heq]
    exact (hw.fits q).wake hs

end

theorem wakeupAt_spec (m : State) (p : Fin NPROC) (chan : Option (Fin NPROC)) (q₀ : Fin NPROC) :
    ∃ t, m.wakeupAt p chan q₀ = { m with tasks := t } ∧ Rouses p m.tasks t ∧
      ∀ q, chan = some q → q ≠ p → SleepsOn t q (.proc q) → q ≠ q₀ := by
  cases chan with
  | none => exact ⟨m.tasks, rfl, ⟨rfl, fun _ => .inl rfl⟩, by simp⟩
  | some c =>
    simp only [State.wakeupAt]
    split
    next hq =>
      refine ⟨_, rfl, ⟨update_of_ne (Ne.symm hq.1) .., fun q => ?_⟩, ?_⟩
      · by_cases heq : q = q₀
        · subst heq
          exact .inr ⟨hq.2.1, update_self ..⟩
        · exact .inl (update_of_ne heq ..)
      · rintro q - - hs rfl
        simp [SleepsOn, setState] at hs
    next hn =>
      refine ⟨m.tasks, rfl, ⟨rfl, fun _ => .inl rfl⟩, ?_⟩
      rintro q hc hne hs rfl
      rw [Option.some.injEq] at hc
      exact hn ⟨hne, hc ▸ hs⟩

section

variable (h : Wakeful m) (hkin : Kinship m)
include h hkin

theorem Wakeful.rouse (hfrom : (m.place p).locked = true) (ht : Rouses p m.tasks t)
    (hpl : pl.Fits p (m.tasks p)) (hfork : pl.forking = (m.place p).forking)
    (hleaving : pl.leaving = (m.place p).leaving) (hscanning : pl.scanning = none)
    (hwoken : ∀ q z, SleepsOn t q (.proc q) → m.parent z = some q → m.state z = .ZOMBIE → q = m.initproc ∧ ∃ status rest slots, pl = .reparentWakeup status rest slots ∧ q ∈ slots)
    (hexit : ∀ status chan slots, pl = .exitWakeup status chan slots → chan = m.parent p ∧ ∀ q, m.parent p = some q → SleepsOn t q (.proc q) → q ∈ slots)
    (hlast : ∀ status, pl ≠ .exitLast status) :
    Kinship ({ m with tasks := t }.goto p pl) ∧ Wakeful ({ m with tasks := t }.goto p pl) := by
  have hlock := hkin.lock p hfrom
  have halone := alone_of_some hlock
  refine ⟨hkin.goto ht.kind (fun _ _ hq => hq) (fun _ => hlock) hfork (fun rest hr => ?_) (by simp [hscanning]), ?_⟩
  · exact hkin.leaving p rest (hleaving ▸ hr)
  · refine Wakeful.own (p := p) (fun q => ?_) (fun q hq => hkin.alone_goto halone hq) (fun q z hq hz hst => ?_) ?_ ?_
    · by_cases hq : q = p
      · simp only [State.goto, hq, update_self]
        rw [ht.1]
        exact hpl
      · simp only [State.goto, update_of_ne hq]
        exact ht.fits h q
    · have hzombie : m.state z = .ZOMBIE := ((ht.kind z).eq_iff (by simp [Alive])).mp hst
      obtain ⟨hi, status, rest, slots, hpl', hmem⟩ := hwoken q z hq hz hzombie
      exact ⟨hi, status, rest, slots, by simp [State.goto, hpl'], hmem⟩
    · simp only [State.goto, update_self]
      exact hexit
    · simp only [State.goto, update_self]
      exact fun status hl => absurd hl (hlast status)

theorem Wakeful.reparentWakeup_next (hpl : m.place p = .reparentWakeup status rest (q₀ :: slots)) :
    Kinship ((m.wakeupAt p (some m.initproc) q₀).goto p (.reparentWakeup status rest slots)) ∧
    Wakeful ((m.wakeupAt p (some m.initproc) q₀).goto p (.reparentWakeup status rest slots)) := by
  have halone := hkin.alone_at hpl rfl
  obtain ⟨hne, -⟩ := hkin.leaving p rest (hpl ▸ rfl)
  have hfits := h.fits_at hpl
  obtain ⟨t, heq, ht, hwake⟩ := wakeupAt_spec m p (some m.initproc) q₀
  rw [heq]
  refine h.rouse hkin (hpl ▸ rfl) ht hfits (by simp [hpl, Place.forking])
    (by simp [hpl, Place.leaving]) rfl (fun q z hq hz hst => ?_) (by simp) (by simp)
  -- what is left to do is to see initproc's slot, if it sleeps
  obtain ⟨rfl, p', status', rest', slots', hp', hmem⟩ := h.woken q z (ht.sleeps hq) hz hst
  obtain rfl : p' = p := by
    by_contra hn
    simpa [hp', Place.locked] using hkin.alone halone hn
  rw [hpl, Place.reparentWakeup.injEq] at hp'
  rw [← hp'.2.2, List.mem_cons] at hmem
  exact ⟨rfl, status, rest, slots, rfl, hmem.resolve_left (hwake _ rfl (Ne.symm hne) hq)⟩

theorem Wakeful.exitWakeup_next (hpl : m.place p = .exitWakeup status chan (q₀ :: slots)) :
    Kinship ((m.wakeupAt p chan q₀).goto p (.exitWakeup status chan slots)) ∧
    Wakeful ((m.wakeupAt p chan q₀).goto p (.exitWakeup status chan slots)) := by
  have halone := hkin.alone_at hpl rfl
  obtain ⟨hchan, hmem⟩ := h.exitWakeup p status chan (q₀ :: slots) hpl
  obtain ⟨-, hchildren⟩ := hkin.leaving p [] (hpl ▸ rfl)
  have hfits := h.fits_at hpl
  obtain ⟨t, heq, ht, hwake⟩ := wakeupAt_spec m p chan q₀
  rw [heq]
  refine h.rouse hkin (hpl ▸ rfl) ht hfits (by simp [hpl, Place.forking])
    (by simp [hpl, Place.leaving]) rfl (fun q z hq hz hst => ?_) (fun status' chan' slots' heq' => ?_) (by simp)
  · exact absurd hst (h.calm hkin halone (by simp [hpl]) (ht.sleeps hq) hz)
  · rw [Place.exitWakeup.injEq] at heq'
    refine ⟨heq'.2.1 ▸ hchan, fun q hq hs => ?_⟩
    have hqp : q ≠ p := by
      rintro rfl
      simpa using hchildren q hq
    rw [← heq'.2.2]
    exact (List.mem_cons.mp (hmem q hq (ht.sleeps hs))).resolve_left (hwake q (hchan.trans hq) hqp hs)

theorem Wakeful.exitLast_step (hpl : m.place p = .exitLast status) : Wakeful (m.exitLast p status) := by
  have halone := hkin.alone_at hpl rfl
  refine Wakeful.own (p := p) (h.fits_goto (fun q hq => update_of_ne hq ..) ?_)
    (fun q hq => hkin.alone_goto halone hq) (fun q z hq hz hst => ?_) (by simp [State.exitLast, State.goto])
    (by simp [State.exitLast, State.goto])
  · simp [State.exitLast, State.goto, setState, Place.Fits]
  · have hold : m.Waits q := SleepsOn.of_setState hq (by simp)
    by_cases hzp : z = p
    · exact absurd hold (h.exitLast p status hpl q (hzp ▸ hz))
    · have hzombie : m.state z = .ZOMBIE := by
        simpa [State.exitLast, State.goto, State.state, setState, hzp] using hst
      exact absurd hzombie (h.calm hkin halone (by simp [hpl]) hold hz)

theorem Wakeful.reap_step (hpl : m.place p = .waitScan (c :: rest) havekids) (hz : m.state c = .ZOMBIE) :
    Wakeful (m.reap p c) := by
  have halone := hkin.alone_at hpl rfl
  have hrun := h.fits_at hpl
  have hne : p ≠ c := by
    rintro rfl
    simp [State.state, show (m.tasks p).state = .RUNNING from hrun] at hz
  have htasks : ∀ q, q ≠ c → (m.reap p c).tasks q = m.tasks q := fun q hq => update_of_ne hq ..
  have hplace : ∀ q, q ≠ p → q ≠ c → (m.reap p c).place q = m.place q := by
    intro q hq hqc
    simp [State.reap, State.waitReturn, State.freeproc, State.goto, hq, hqc]
  have hself : (m.reap p c).place p = .other := update_self ..
  have hchild : (m.reap p c).place c = .other := by
    simp [State.reap, State.waitReturn, State.freeproc, State.goto, Ne.symm hne]
  refine Wakeful.own (p := p) (fun q => ?_) (fun q hq => ?_) (fun q z hq hpar hst => ?_) (by simp [hself])
    (by simp [hself])
  · by_cases hq : q = p
    · rw [hq, hself, htasks p hne]
      simp [Place.Fits, show (m.tasks p).state = .RUNNING from hrun]
    · by_cases hqc : q = c
      · rw [hqc, hchild]
        simp [Place.Fits, State.reap, State.waitReturn, State.freeproc, State.goto]
      · rw [hplace q hq hqc, htasks q hqc]
        exact h.fits q
  · by_cases hqc : q = c
    · simp [hqc, hchild, Place.locked]
    · rw [hplace q hq hqc]
      exact hkin.alone halone hq
  · have hzc : z ≠ c := by
      rintro rfl
      simp [State.reap, State.waitReturn, State.freeproc, State.goto] at hpar
    have hqc : q ≠ c := by
      rintro rfl
      simp [State.Waits, SleepsOn, State.reap, State.waitReturn, State.freeproc, State.goto] at hq
    rw [State.Waits, SleepsOn, htasks q hqc] at hq
    rw [State.state, htasks z hzc] at hst
    have hold : m.parent z = some q := by
      simpa [State.reap, State.waitReturn, State.freeproc, State.goto, hzc] using hpar
    exact absurd hst (h.calm hkin halone (by simp [hpl]) hq hold)

theorem Wakeful.waitSleep_step (hpl : m.place p = .waitSleep) :
    Wakeful ({ m with tasks := sleep m.tasks p (.proc p), waitLock := none }.goto p .asleep) := by
  have halone := hkin.alone_at hpl rfl
  refine Wakeful.own (p := p) (h.fits_goto (fun q hq => update_of_ne hq ..) ?_)
    (fun q hq => hkin.alone_goto halone hq) (fun q z hq hz hst => ?_) (by simp [State.goto]) (by simp [State.goto])
  · simp [State.goto, sleep, Place.Fits]
  · have hzp : z ≠ p := by
      rintro rfl
      simp [State.goto, State.state, sleep] at hst
    have hzombie : m.state z = .ZOMBIE := by simpa [State.goto, State.state, sleep, hzp] using hst
    rcases sleepsOn_sleep.mp hq with ⟨rfl, -⟩ | ⟨-, hold⟩
    · simpa using hkin.scanning q [] (hpl ▸ rfl) z hz hzombie
    · exact absurd hzombie (h.calm hkin halone (by simp [hpl]) hold hz)

theorem Wakeful.setParent_step (hpl : m.place p = .forkParent np) (hlock : m.waitLock = none) :
    Wakeful (m.setParent p np) := by
  have hfits := h.fits_at hpl
  refine Wakeful.own (p := p) (h.fits_goto (fun _ _ => rfl) hfits)
    (fun q hq => hkin.alone_goto (alone_of_none hlock) hq) (fun q z hq hz hst => ?_)
    (by simp [State.setParent, State.goto]) (by simp [State.setParent, State.goto])
  obtain ⟨hused, -⟩ := hkin.fork p np false (hpl ▸ rfl)
  have hznp : z ≠ np := by
    rintro rfl
    simp [show m.state z = .ZOMBIE from hst] at hused
  have hold : m.parent z = some q := by simpa [State.setParent, State.goto, hznp] using hz
  exact absurd hst (h.calm (p := p) hkin (alone_of_none hlock) (by simp [hpl]) hq hold)

end

theorem Wakeful.setTask (h : Wakeful m) (hfits : (m.place q).Fits q task)
    (hzombie : task.state = .ZOMBIE → m.state q = .ZOMBIE)
    (hwaits : task.state = .SLEEPING → task.chan = some (.proc q) → m.Waits q) :
    Wakeful { m with tasks := update m.tasks q task } := by
  refine h.quiet (fun r => ?_) rfl rfl (fun r hr => ?_) (fun r hr => ?_) fun _ _ => rfl
  · by_cases hrq : r = q
    · subst hrq
      simpa using hfits
    · simpa [update_of_ne hrq] using h.fits r
  · by_cases hrq : r = q
    · subst hrq
      exact hzombie (by simpa [State.state] using hr)
    · simpa [State.state, update_of_ne hrq] using hr
  · by_cases hrq : r = q
    · subst hrq
      simp only [State.Waits, SleepsOn, update_self] at hr
      exact hwaits hr.1 hr.2
    · simpa [State.Waits, SleepsOn, update_of_ne hrq] using hr

theorem Wakeful.forkAlloc_step (h : Wakeful m) (hcalls : m.Calls p) (hnp : m.state np = .UNUSED) :
    Wakeful (m.forkAlloc p np true) := by
  have hother := h.place_eq (.inl hnp)
  obtain ⟨hrun, hpl⟩ := hcalls
  have hne : p ≠ np := by
    rintro rfl
    simp [State.state, hrun] at hnp
  have hused : Wakeful { m with tasks := setState m.tasks np .USED } :=
    h.setTask (by simp [hother, Place.Fits]) (by simp) (by simp)
  refine hused.quiet (fun q => ?_) rfl rfl (fun _ hq => hq) (fun _ hq => hq) fun q hq => ?_
  · refine hused.fits_goto (fun _ _ => rfl) ?_ q
    simp [Place.Fits, setState, hne, hrun]
  · by_cases hqp : q = p
    · subst hqp
      simp [State.forkAlloc, State.goto, hpl, Place.locked] at hq
    · exact update_of_ne hqp ..

theorem Wakeful.forkFail_step (h : Wakeful m) (hkin : Kinship m) (hnp : m.state np = .UNUSED) :
    Wakeful (m.forkAlloc p np false) := by
  have hother := h.place_eq (.inl hnp)
  have hfreed : Wakeful { m with
      tasks := update m.tasks np { state := .UNUSED, chan := none, killed := false } } :=
    h.setTask (by simp [hother, Place.Fits]) (by simp) (by simp)
  have hplace : (m.forkAlloc p np false).place = m.place := by
    simp [State.forkAlloc, State.freeproc, ← hother]
  refine hfreed.quiet (fun q => ?_) ?_ rfl (fun _ hq => hq) (fun _ hq => hq) fun q _ => by rw [hplace]
  · rw [hplace]
    exact hfreed.fits q
  · simp [State.forkAlloc, State.freeproc, ← hkin.parent_unused hnp]

theorem Wakeful.setReady_step (h : Wakeful m) (hkin : Kinship m) (hpl : m.place p = .forkReady np)
    (hrun : (m.tasks p).state = .RUNNING) : Wakeful (m.setReady p np) := by
  obtain ⟨hused, -⟩ := hkin.fork p np true (hpl ▸ rfl)
  have hother := h.place_eq (.inr hused)
  have hne : p ≠ np := by
    rintro rfl
    simp [State.state, hrun] at hused
  have hready : Wakeful { m with tasks := setState m.tasks np .RUNNABLE } :=
    h.setTask (by simp [hother, Place.Fits]) (by simp) (by simp)
  refine hready.quiet (fun q => ?_) rfl rfl (fun _ hq => hq) (fun _ hq => hq) fun q hq => ?_
  · refine hready.fits_goto (fun _ _ => rfl) ?_ q
    simp [Place.Fits, setState, hne, hrun]
  · by_cases hqp : q = p
    · subst hqp
      simp [State.setReady, State.goto, hpl, Place.locked] at hq
    · exact update_of_ne hqp ..

end Wakeful

section Steps

section

variable (hkin : Kinship m) (hw : Wakeful m)
include hkin hw

theorem step_goto
    (halone : ∀ q, q ≠ p → m.waitLock ≠ some q)
    (hfrom : ∀ status rest slots, m.place p ≠ .reparentWakeup status rest slots) (hpl : pl.Fits p (m.tasks p))
    (hheld : pl.locked = true → l = some p) (hfork : pl.forking = (m.place p).forking)
    (hleaving : ∀ rest, pl.leaving = some rest → p ≠ m.initproc ∧ ∀ c, m.parent c = some p → c ∈ rest)
    (hscanning : ∀ rest, pl.scanning = some rest → ∀ z, m.parent z = some p → m.state z = .ZOMBIE → z ∈ rest)
    (hexit : ∀ status chan slots, pl = .exitWakeup status chan slots → chan = m.parent p ∧ ∀ q, m.parent p = some q → m.Waits q → q ∈ slots)
    (hlast : ∀ status, pl = .exitLast status → ∀ q, m.parent p = some q → ¬m.Waits q) :
    Kinship ({ m with waitLock := l, result := r }.goto p pl) ∧
    Wakeful ({ m with waitLock := l, result := r }.goto p pl) :=
  ⟨hkin.goto (fun _ => .inl rfl) (fun q hq hl => absurd hl (halone q hq)) hheld hfork hleaving hscanning,
    hw.goto hkin halone hfrom hpl hexit hlast⟩

theorem step_return (hlock : m.waitLock = some p)
    (hfrom : ∀ status rest slots, m.place p ≠ .reparentWakeup status rest slots)
    (hfork : (m.place p).forking = none) (hrun : (m.tasks p).state = .RUNNING) :
    Kinship (m.waitReturn p n) ∧ Wakeful (m.waitReturn p n) :=
  step_goto hkin hw (alone_of_some hlock) hfrom (by simp [Place.Fits, hrun]) (by simp [Place.locked])
    (by rw [hfork]; rfl) (by simp [Place.leaving]) (by simp [Place.scanning]) (by simp) (by simp)

theorem step_wait (hpl : m.place p = .other ∨ m.place p = .waitAgain) (hlock : m.waitLock = none)
    (hrun : (m.tasks p).state = .RUNNING) :
    Kinship ({ m with waitLock := some p }.goto p (.waitScan table false)) ∧
    Wakeful ({ m with waitLock := some p }.goto p (.waitScan table false)) :=
  step_goto hkin hw (alone_of_none hlock) (by rcases hpl with hpl | hpl <;> simp [hpl]) hrun (fun _ => rfl)
    (by rcases hpl with hpl | hpl <;> simp [hpl, Place.forking]) (by simp [Place.leaving])
    (fun rest hr z _ _ => by cases hr; exact mem_table z) (by simp) (by simp)

-- wait() stays in its scan, with no exited child behind it.
theorem step_scan (hpl : m.place p = pl₀) (hfrom : pl₀.scanning = some rest) (hto : pl.scanning = some rest')
    (hrun : (m.tasks p).state = .RUNNING) (hrest : ∀ z ∈ rest, m.parent z = some p → m.state z = .ZOMBIE → z ∈ rest') :
    Kinship (m.goto p pl) ∧ Wakeful (m.goto p pl) := by
  have hlock := hkin.lock_at hpl (Place.locked_of_scanning hfrom)
  have hscan := hkin.scanning p rest (hpl ▸ hfrom)
  refine step_goto hkin hw (alone_of_some hlock) ?_ ?_ (fun _ => hlock) ?_ ?_ (fun l hl z hz hst => ?_) ?_ ?_
  · cases pl₀ <;> simp_all [Place.scanning]
  · cases pl <;> simp_all [Place.scanning, Place.Fits]
  · rw [hpl]
    cases pl₀ <;> cases pl <;> simp_all [Place.scanning, Place.forking]
  · cases pl <;> simp_all [Place.scanning, Place.leaving]
  · cases hto.symm.trans hl
    exact hrest z (hscan z hz hst) hz hst
  · cases pl <;> simp_all [Place.scanning]
  · cases pl <;> simp_all [Place.scanning]

theorem step_go (hrun : (m.tasks p).state = .RUNNING) (hgo : m.go p copied = some m') : Kinship m' ∧ Wakeful m' := by
  revert hgo
  fun_cases State.go m p copied <;> intro hgo <;> cases hgo
  next np hpl hlock => exact ⟨hkin.setParent hpl hrun hlock, hw.setParent_step hkin hpl hlock⟩
  next np hpl => exact ⟨hkin.setReady hpl, hw.setReady_step hkin hpl hrun⟩
  next status hpl =>
    have hlock := hkin.lock_at hpl rfl
    refine step_goto hkin hw (alone_of_some hlock) (by simp [hpl]) hrun (fun _ => hlock) (by simp [hpl, Place.forking])
      (fun rest hr => ?_) (by simp [Place.scanning]) (fun status chan slots heq => ?_) (by simp)
    · cases hr
      exact hkin.leaving p [] (hpl ▸ rfl)
    · cases heq
      exact ⟨rfl, fun q _ _ => mem_table q⟩
  next status c rest hpl =>
    have hlock := hkin.lock_at hpl rfl
    rw [State.reparentOne]
    split
    next hc => exact ⟨hkin.adopt hpl hc, hw.adopt hkin hpl⟩
    next hc =>
      refine step_goto hkin hw (alone_of_some hlock) (by simp [hpl]) hrun (fun _ => hlock)
        (by simp [hpl, Place.forking]) (fun rest' hr => ?_) (by simp [Place.scanning]) (by simp) (by simp)
      cases hr
      obtain ⟨hne, hchildren⟩ := hkin.leaving p (c :: rest) (hpl ▸ rfl)
      refine ⟨hne, fun q hq => (List.mem_cons.mp (hchildren q hq)).resolve_left ?_⟩
      rintro rfl
      exact hc hq
  next status rest hpl =>
    refine ⟨hkin.goto (fun _ => .inl rfl) (fun _ _ hq => hq) (fun _ => hkin.lock_at hpl rfl)
      (by simp [hpl, Place.forking]) (fun rest' hr => ?_) (by simp [Place.scanning]), hw.reparentWakeup_done hkin hpl⟩
    cases hr
    exact hkin.leaving p rest (hpl ▸ rfl)
  next status rest q slots hpl => exact hw.reparentWakeup_next hkin hpl
  next status chan hpl =>
    have hlock := hkin.lock_at hpl rfl
    refine step_goto hkin hw (alone_of_some hlock) (by simp [hpl]) hrun (fun _ => hlock)
      (by simp [hpl, Place.forking]) (fun rest hr => ?_) (by simp [Place.scanning]) (by simp) (fun _ _ q hq hs => ?_)
    · cases hr
      exact hkin.leaving p [] (hpl ▸ rfl)
    · simpa using (hw.exitWakeup p status chan [] hpl).2 q hq hs
  next status chan q slots hpl => exact hw.exitWakeup_next hkin hpl
  next status hpl => exact ⟨hkin.exitLast hpl hrun, hw.exitLast_step hkin hpl⟩
  next havekids hpl =>
    split
    · exact step_scan hkin hw hpl rfl rfl hrun fun _ hz _ _ => hz
    · exact step_return hkin hw (hkin.lock_at hpl rfl) (by simp [hpl]) (by simp [hpl, Place.forking]) hrun
  next c rest havekids hpl =>
    rw [State.waitOne]
    split_ifs with hc hz
    · exact ⟨hkin.reap hpl hc hz, hw.reap_step hkin hpl hz⟩
    · exact step_return hkin hw (hkin.lock_at hpl rfl) (by simp [hpl]) (by simp [hpl, Place.forking]) hrun
    · refine step_scan hkin hw hpl rfl rfl hrun fun z hmem _ hst => (List.mem_cons.mp hmem).resolve_left ?_
      rintro rfl
      exact hz hst
    · refine step_scan hkin hw hpl rfl rfl hrun fun z hmem hzp _ => (List.mem_cons.mp hmem).resolve_left ?_
      rintro rfl
      exact hc hzp
  next hpl =>
    split
    · exact step_return hkin hw (hkin.lock_at hpl rfl) (by simp [hpl]) (by simp [hpl, Place.forking]) hrun
    · exact step_scan hkin hw hpl rfl rfl hrun fun _ hz _ _ => hz
  next hpl =>
    refine ⟨hkin.goto (fun q => ?_) (fun q hq hl => absurd hl (hkin.alone_at hpl rfl q hq)) (by simp [Place.locked])
      (by simp [hpl, Place.forking]) (by simp [Place.leaving]) (by simp [Place.scanning]),
      hw.waitSleep_step hkin hpl⟩
    by_cases hq : q = p
    · subst hq
      exact .inr ⟨.inr (.inr hrun), by simp [sleep, Alive]⟩
    · exact .inl (by simp [State.state, sleep, hq])
  next hpl hlock => exact step_wait hkin hw (.inr hpl) hlock hrun

theorem step_task (hkind : SameKind (m.state q) task.state) (hfits : (m.place q).Fits q task)
    (hwaits : task.state = .SLEEPING → task.chan ≠ some (.proc q)) :
    Kinship { m with tasks := update m.tasks q task } ∧
    Wakeful { m with tasks := update m.tasks q task } := by
  refine ⟨hkin.setTasks fun r => ?_, hw.setTask hfits (fun hz => ?_) fun hs hc => absurd hc (hwaits hs)⟩
  · by_cases hr : r = q
    · subst hr
      simpa using hkind
    · exact .inl (by simp [State.state, hr])
  · exact (hkind.eq_iff (by simp [Alive])).mp hz

theorem step_schedule (hready : (m.tasks p).state = .RUNNABLE) :
    Kinship ({ m with tasks := awaken (setState m.tasks p .RUNNING) p }.goto p
      (if m.place p = Place.asleep then .waitAgain else m.place p)) ∧
    Wakeful ({ m with tasks := awaken (setState m.tasks p .RUNNING) p }.goto p
      (if m.place p = Place.asleep then .waitAgain else m.place p)) := by
  have hrun : awaken (setState m.tasks p .RUNNING) p p = { m.tasks p with state := .RUNNING, chan := none } := by
    simp [awaken, setState]
  have hother : ∀ q, q ≠ p → awaken (setState m.tasks p .RUNNING) p q = m.tasks q := by
    intro q hq
    simp [awaken, setState, hq]
  have hfits := hw.fits p
  -- a process that is RUNNABLE is in none of the sections that hold wait_lock
  have hunlocked : (m.place p).locked = false := by
    cases hpl : m.place p <;> rw [hpl] at hfits <;> simp_all [Place.Fits, Place.locked]
  have hnew : (if m.place p = Place.asleep then Place.waitAgain else m.place p).locked = false := by
    split
    · rfl
    · exact hunlocked
  refine ⟨hkin.goto (fun q => ?_) (fun _ _ hq => hq) (by simp [hnew]) ?_ (fun rest hr => ?_) (fun rest hr => ?_), ?_⟩
  · by_cases hq : q = p
    · subst hq
      exact .inr ⟨.inr (.inl hready), by simp [hrun, Alive]⟩
    · exact .inl (by rw [hother q hq, State.state])
  · split
    next hpl => simp [hpl, Place.forking]
    next => rfl
  · simp [Place.locked_of_leaving hr] at hnew
  · simp [Place.locked_of_scanning hr] at hnew
  · refine hw.quiet (fun q => ?_) rfl rfl (fun q hq => ?_) (fun q hq => ?_) fun q hq => ?_
    · refine hw.fits_goto hother ?_ q
      rw [hrun]
      split
      · simp [Place.Fits]
      · cases hpl : m.place p <;> rw [hpl] at hfits <;> simp_all [Place.Fits]
    · by_cases hqp : q = p
      · simp [State.goto, State.state, hqp, hrun] at hq
      · simpa [State.goto, State.state, hother q hqp] using hq
    · by_cases hqp : q = p
      · simp [State.goto, State.Waits, SleepsOn, hqp, hrun] at hq
      · simpa [State.goto, State.Waits, SleepsOn, hother q hqp] using hq
    · by_cases hqp : q = p
      · subst hqp
        simp [State.goto, hunlocked, hnew] at hq
      · exact update_of_ne hqp ..

theorem step_next (hnext : m.next e = some m') : Kinship m' ∧ Wakeful m' := by
  revert hnext
  fun_cases State.next m e <;> intro hnext
  case case7 => exact step_go hkin hw ‹_› hnext
  all_goals cases hnext
  next p np ok hg =>
    cases ok with
    | true => exact ⟨hkin.forkAlloc hg.2, hw.forkAlloc_step hg.1 hg.2⟩
    | false => exact ⟨hkin.forkFail hw hg.2, hw.forkFail_step hkin hg.2⟩
  next p status hg =>
    obtain ⟨⟨hrun, hpl⟩, hne, hlock⟩ := hg
    exact step_goto hkin hw (alone_of_none hlock) (by simp [hpl]) hrun (fun _ => rfl)
      (by simp [hpl, Place.forking]) (fun rest hr => ⟨hne, fun c _ => by cases hr; exact mem_table c⟩)
      (by simp [Place.scanning]) (by simp) (by simp)
  next p hg => exact step_wait hkin hw (.inl hg.1.2) hg.2 hg.1.1
  next p n q hg =>
    by_cases hs : (m.tasks q).state = .SLEEPING
    · refine step_task hkin hw (.inr ⟨.inl hs, by simp [hs, Alive]⟩) ?_ (by simp [hs])
      exact ((hw.fits q).wake hs).congr (by simp [hs]) rfl
    · refine step_task hkin hw (.inl (by simp [State.state, hs])) ?_ (by simp [hs])
      exact (hw.fits q).congr (by simp [hs]) rfl
  next p hready => exact step_schedule hkin hw hready
  next p hg =>
    refine step_task hkin hw (.inr ⟨.inr (.inr hg.1), by simp [Alive]⟩) ?_ (by simp)
    have hfits := hw.fits p
    have hunlocked : (m.place p).locked ≠ true := fun hl => hg.2 (hkin.lock p hl)
    cases hpl : m.place p <;> simp_all [Place.Fits, Place.locked]
  next p addr hg =>
    exact step_task hkin hw (.inr ⟨.inr (.inr hg.1), by simp [Alive]⟩) (by simp [hg.2, Place.Fits]) (by simp)
  next q addr hs =>
    exact step_task hkin hw (.inr ⟨.inl hs.1, by simp [Alive]⟩) ((hw.fits q).wake hs.1) (by simp)

end

theorem start_inv (h : m.Start) : Kinship m ∧ Wakeful m := by
  obtain ⟨hstate, hslots, hlock, hlog⟩ := h
  have hplace : ∀ p, m.place p = .other := fun p => (hslots p).2
  have hparent : ∀ p, m.parent p = none := fun p => (hslots p).1
  refine ⟨⟨?_, ?_, ?_, ?_, ?_, fun c _ hc => ?_, ?_, ?_, ?_⟩, fun p => ?_, ?_, ?_, ?_⟩
  · simp [hplace, Place.locked]
  · simp [State.state, hstate, Alive]
  · simp [hplace, Place.forking]
  · simp [hplace, Place.forking]
  · simp [hparent]
  · simp [State.state, hstate, hc]
  · simp [hplace, Place.leaving]
  · simp [hplace, Place.scanning]
  · rw [hlog, history, List.foldlM_nil]
    exact congrArg some (funext fun c => by rw [State.life, hparent])
  · rw [hplace]
    refine ⟨?_, fun q hs => ?_⟩
    · rw [hstate]
      split <;> simp
    · rw [hstate] at hs
      split at hs <;> simp at hs
  · simp [hparent]
  · simp [hplace]
  · simp [hplace]

theorem family_inv (h : Reach State.Start State.Step m) : Kinship m ∧ Wakeful m :=
  h.invariant (I := fun m => Kinship m ∧ Wakeful m) (fun _ => start_inv) fun _ _ _ hinv ⟨_, he⟩ =>
    step_next hinv.1 hinv.2 he

theorem wakeupAt_log (m : State) (p : Fin NPROC) (chan : Option (Fin NPROC)) (q : Fin NPROC) :
    (m.wakeupAt p chan q).log = m.log := by
  obtain ⟨t, heq, -⟩ := wakeupAt_spec m p chan q
  rw [heq]

theorem go_log (hgo : m.go p copied = some m') :
    (∃ c, m' = m.reap p c ∧ m.parent c = some p) ∨ ∀ c q pid status, m'.log ≠ m.log ++ [.reaped c q pid status] := by
  have hsame : ∀ {l}, l = m.log → ∀ c q pid status, l ≠ m.log ++ [.reaped c q pid status] := by
    rintro l rfl
    simp
  revert hgo
  fun_cases State.go m p copied <;> intro hgo <;> cases hgo
  all_goals try exact .inr (hsame rfl)
  · exact .inr (by simp [State.setParent, State.goto])
  · rw [State.reparentOne]
    split
    · exact .inr (by simp [State.adopt, State.goto])
    · exact .inr (hsame rfl)
  · exact .inr (hsame (wakeupAt_log ..))
  · exact .inr (hsame (wakeupAt_log ..))
  · exact .inr (by simp [State.exitLast, State.goto])
  · exact .inr (hsame (by split <;> rfl))
  · rw [State.waitOne]
    split_ifs with hc
    · exact .inl ⟨_, rfl, hc⟩
    all_goals exact .inr (hsame rfl)
  · exact .inr (hsame (by split <;> rfl))

theorem reaped_step (hnext : m.next e = some m') (hlog : m'.log = m.log ++ [.reaped c q pid status]) :
    m' = m.reap q c ∧ m.parent c = some q ∧ m.pid c = pid ∧ m.xstate c = status := by
  have hsame : m'.log ≠ m.log := by simp [hlog]
  revert hnext
  fun_cases State.next m e <;> intro hnext
  case case7 =>
    rcases go_log hnext with ⟨c', rfl, hc⟩ | hnot
    · simp only [State.reap, List.append_cancel_left_eq, List.cons.injEq, Record.reaped.injEq, and_true] at hlog
      obtain ⟨rfl, rfl, hpid, hstatus⟩ := hlog
      exact ⟨rfl, hc, hpid, hstatus⟩
    · exact absurd hlog (hnot c q pid status)
  all_goals cases hnext
  next p np ok hg => cases ok <;> exact absurd rfl hsame
  all_goals exact absurd rfl hsame

end Steps

-- The records are a legal history, in which a child that exits is reaped once, by its parent of
-- then, and no wait() misses an exited child.
theorem children_reaped (m : State) (h : Reach State.Start State.Step m) :
    history m.log = some m.life ∧
    (∀ z, m.state z = .ZOMBIE → ∃ q, m.life z = .exited q (m.pid z) (m.xstate z) ∧ Alive (m.state q)) ∧
    (m.waitLock = none → ∀ c q, m.state c ≠ .UNUSED → c ≠ m.initproc → m.parent c = some q →
      m.state q ≠ .UNUSED ∧ m.state q ≠ .ZOMBIE) ∧
    (m.waitLock = none → ∀ q z, m.place q = .asleep → m.state q = .SLEEPING → m.parent z = some q →
      m.state z ≠ .ZOMBIE) ∧
    (∀ q z, (∃ havekids, m.place q = .waitScan [] havekids) ∨ m.place q = .waitKilled ∨ m.place q = .waitSleep →
      m.parent z = some q → m.state z ≠ .ZOMBIE) ∧
    (∀ q z rest havekids, m.place q = .waitScan (z :: rest) havekids → m.parent z = some q → m.state z = .ZOMBIE →
      (∃ m', m.next (.go q true) = some m' ∧ m'.log = m.log ++ [.reaped z q (m.pid z) (m.xstate z)]) ∧
      ∃ m', m.next (.go q false) = some m' ∧ m'.log = m.log ∧ m'.result q = some (-1) ∧ m'.waitLock = none ∧
        m'.life = m.life) ∧
    ∀ e m' c q pid status, m.next e = some m' → m'.log = m.log ++ [.reaped c q pid status] →
      m.parent c = some q ∧ m.pid c = pid ∧ m.xstate c = status ∧ m'.result q = some pid := by
  obtain ⟨hkin, hw⟩ := family_inv h
  refine ⟨hkin.history, fun z hz => ?_, fun hlock c q _ _ hc => ?_, fun hlock q z hpl hs hz => ?_,
    fun q z hpl hz hst => ?_, fun q z rest havekids hpl hz hst => ?_,
    fun e m' c q pid status hnext hlog => ?_⟩
  · cases hp : m.parent z with
    | none =>
      have hne : z ≠ m.initproc := by
        rintro rfl
        simpa [hz, Alive] using hkin.init
      simpa [hz] using hkin.orphan z hp hne
    | some q => exact ⟨q, by simp [State.life, hp, hz], (hkin.parents z q hp).2⟩
  · have halive := (hkin.parents c q hc).2
    constructor <;> intro heq <;> simp [heq, Alive] at halive
  · have hfits := hw.fits q
    rw [hpl] at hfits
    have hwaits : m.Waits q := hfits.resolve_right fun hn => by simp [State.state, hn] at hs
    exact hw.calm (p := q) hkin (alone_of_none hlock) (by simp [hpl]) hwaits hz
  · have hscan : (m.place q).scanning = some [] := by
      rcases hpl with ⟨_, hpl⟩ | hpl | hpl <;> rw [hpl, Place.scanning]
    simpa using hkin.scanning q [] hscan z hz hst
  · have hrun := hw.fits q
    rw [hpl] at hrun
    have hgo : ∀ copied, m.next (.go q copied) = some (if copied then m.reap q z else m.waitReturn q (-1)) := by
      intro copied
      rw [State.next, if_pos (by exact hrun), State.go, hpl]
      simp only [State.waitOne, if_pos hz]
      rw [if_pos (by exact hst)]
    exact ⟨⟨_, hgo true, rfl⟩, _, hgo false, rfl, update_self .., rfl, rfl⟩
  · obtain ⟨rfl, hc, hpid, hstatus⟩ := reaped_step hnext hlog
    exact ⟨hc, hpid, hstatus, hpid ▸ update_self ..⟩

def sampleParent : Fin NPROC := ⟨0, NPROC_pos⟩

def sampleChild : Fin NPROC := ⟨1, one_lt_NPROC⟩

def sampleFamily : List Event → Option State :=
  List.foldlM State.next {
    tasks := fun p => { state := if p = sampleParent then .RUNNABLE else .UNUSED, chan := none, killed := false }
    pid := fun p => if p = sampleParent then 1 else 0
    parent := fun _ => none
    xstate := fun _ => 0
    nextpid := 2
    initproc := sampleParent
    waitLock := none
    place := fun _ => .other
    result := fun _ => none
    log := [] }

def sampleExit : List Event :=
  [.schedule sampleParent, .fork sampleParent sampleChild true, .go sampleParent true, .go sampleParent true,
    .schedule sampleChild, .exit sampleChild 7] ++
  List.replicate (2 * (NPROC + 1) + 1) (.go sampleChild true) ++ [.wait sampleParent, .go sampleParent true]

theorem children_reaped_sample : ∃ m : State,
    (m.place sampleParent = .waitScan (sampleChild :: table.drop 2) false ∧
      m.parent sampleChild = some sampleParent ∧ m.state sampleChild = .ZOMBIE ∧ m.pid sampleChild = 2 ∧
      m.xstate sampleChild = 7) ∧
    ∃ m', m.next (.go sampleParent true) = some m' ∧ m'.log = m.log ++ [.reaped sampleChild sampleParent 2 7] := by
  obtain ⟨m, hm, hres⟩ : ∃ m, sampleFamily sampleExit = some m ∧ m.place sampleParent =
      .waitScan (sampleChild :: table.drop 2) false ∧ m.parent sampleChild = some sampleParent ∧ m.state sampleChild =
      .ZOMBIE ∧ m.pid sampleChild = 2 ∧ m.xstate sampleChild = 7 :=
    exists_of_any (by decide +kernel)
  obtain ⟨hpl, hparent, hst, hpid, hstatus⟩ := hres
  have hreach : Reach State.Start State.Step m :=
    Reach.foldlM (fun s e t hn => ⟨e, hn⟩) (.start (by simp [State.Start])) hm
  obtain ⟨-, -, -, -, -, hscan, -⟩ := children_reaped m hreach
  have hreap := (hscan sampleParent _ _ _ hpl hparent hst).1
  rw [hpid, hstatus] at hreap
  exact ⟨m, ⟨hpl, hparent, hst, hpid, hstatus⟩, hreap⟩

end Xv6.Family
