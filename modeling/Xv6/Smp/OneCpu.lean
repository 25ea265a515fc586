import Xv6.Smp.Threads

set_option linter.unusedSectionVars false

namespace Xv6.Smp

open Lib
open Function (update update_eq_self update_of_ne update_self)
open Sched (Slot Edit)

variable {ι κ Λ γ : Type} {waitLock : Λ} {m m' : Machine ι κ Λ γ} {x y : γ} {p q : ι}
variable [DecidableEq ι] [DecidableEq γ] [DecidableEq Λ] [DecidableEq κ] {pc' : Pc ι κ Λ} {l : Lock ι Λ}

theorem Inv.placed (h : Inv waitLock m) (hx : m.thread x = none) (pl' : Place ι) (lock' : Lock ι Λ → Option γ)
    (c' : Cpu ι) (b' : Bool) (hrun : pl'.running = none) (hproc : c'.proc = pl'.current)
    (hother : ∀ y, y ≠ x → ∀ l, lock' l = some y ↔ m.lock l = some y)
    (hheld : {l | lock' l = some x}.encard = c'.noff) (hintr : c'.intr = true → c'.noff = 0)
    (hplace : b' = false → pl'.Holds c'.noff fun l => lock' l = some x) (hcalm : b' = true → pl'.calm = true)
    (hbusy : pl'.busy = (m.scheduler x).busy)
    (hengaged : pl'.engaged = none ∨ pl'.engaged = (m.scheduler x).engaged) :
    Inv waitLock { m with
      scheduler := update m.scheduler x pl'
      lock := lock'
      cpu := update m.cpu x c'
      handler := update m.handler x b' } := by
  have haway : ∀ r rest, m.scheduler x ≠ .away r rest := by
    intro r rest hpl
    rw [h.thread, hpl] at hx
    simp [Place.running] at hx
  have hback : ∀ y r, (update m.scheduler x pl' y).engaged = some r → (m.scheduler y).engaged = some r := by
    intro y r hy
    by_cases hyx : y = x
    · subst hyx
      rw [update_self] at hy
      rcases hengaged with he | he
      · simp [he] at hy
      · rwa [← he]
    · rwa [update_of_ne hyx] at hy
  refine ⟨fun y => ?_, fun y => ?_, fun y => ?_, fun y => ?_, fun y hy => ?_, fun y hy => ?_,
    fun y z r hy hz => h.alone y z r (hback y r hy) (hback z r hz), fun y r rest hy => ?_, fun y r rest hy => ?_,
    fun r hr => ?_, h.below, h.bottom, h.made, h.maker⟩
  · by_cases hyx : y = x
    · subst hyx
      simpa using hheld
    · simpa [update_of_ne hyx, hother y hyx] using h.held y
  · by_cases hyx : y = x
    · subst hyx
      simpa using hintr
    · simpa [update_of_ne hyx] using h.intr y
  · by_cases hyx : y = x
    · subst hyx
      simp [hx, hrun]
    · simpa [update_of_ne hyx] using h.thread y
  · by_cases hyx : y = x
    · subst hyx
      simpa using hproc
    · simpa [update_of_ne hyx] using h.proc y
  · by_cases hyx : y = x
    · subst hyx
      simp only [update_self] at hy ⊢
      exact hplace hy
    · simp only [update_of_ne hyx, hother y hyx] at hy ⊢
      exact h.place y hy
  · by_cases hyx : y = x
    · subst hyx
      simp only [update_self] at hy ⊢
      exact hcalm hy
    · simp only [update_of_ne hyx] at hy ⊢
      exact h.calm y hy
  · by_cases hyx : y = x
    · subst hyx
      simp only [update_self] at hy
      have hb : (m.scheduler y).busy = some r := by
        rw [← hbusy]
        rcases hy with hy | hy <;> rw [hy] <;> rfl
      cases hpl : m.scheduler y with
      | proc r' rest' =>
        obtain rfl : r' = r := by simpa [hpl, Place.busy] using hb
        exact h.chosen y r' rest' (.inl hpl)
      | switch r' rest' =>
        obtain rfl : r' = r := by simpa [hpl, Place.busy] using hb
        exact h.chosen y r' rest' (.inr hpl)
      | away r' rest' => exact absurd hpl (haway r' rest')
      | on | off | scan rest' | test r' rest' | clear r' rest' | drop r' rest' => simp [hpl, Place.busy] at hb
    · simp only [update_of_ne hyx] at hy
      exact h.chosen y r rest hy
  · have hyx : y ≠ x := by
      rintro rfl
      simp only [update_self] at hy
      simp [hy, Place.running] at hrun
    simp only [update_of_ne hyx, hother y hyx] at hy ⊢
    exact h.runs y r rest hy
  · refine h.parked r fun y => ?_
    by_cases hyx : y = x
    · subst hyx
      have := hr y
      simp only [update_self] at this
      rwa [← hbusy]
    · simpa [update_of_ne hyx] using hr y

theorem Inv.places (h : Inv waitLock m) (hx : m.thread x = none) (hh : m.handler x = false) (pl' : Place ι)
    (c' : Cpu ι) (hrun : pl'.running = none) (hproc : c'.proc = pl'.current) (hnoff : c'.noff = (m.cpu x).noff)
    (hintr : c'.intr = true → c'.noff = 0) (hplace : pl'.Holds (m.cpu x).noff fun l => m.lock l = some x)
    (hbusy : pl'.busy = (m.scheduler x).busy)
    (hengaged : pl'.engaged = none ∨ pl'.engaged = (m.scheduler x).engaged) :
    Inv waitLock { m with
      scheduler := update m.scheduler x pl'
      cpu := update m.cpu x c' } := by
  have hl := h.placed hx pl' m.lock c' false hrun hproc (fun _ _ _ => Iff.rfl) (by rw [hnoff]; exact h.held x) hintr
    (fun _ => by rw [hnoff]; exact hplace) (by simp) hbusy hengaged
  rwa [← hh, update_eq_self] at hl

theorem Inv.choose (h : Inv waitLock m) (hh : m.handler x = false)
    (hpl : m.scheduler x = .test p rest) (hst : (m.slots p).task.state = .RUNNABLE) (slot' : Slot κ)
    (hst' : slot'.task.state = .RUNNING) :
    Inv waitLock { m with
      scheduler := update m.scheduler x (.proc p rest)
      slots := update m.slots p slot' } := by
  have hholds := h.place x hh
  rw [hpl] at hholds
  obtain ⟨hnoff, hlock⟩ := hholds
  have hx : m.thread x = none := by rw [h.thread, hpl]; rfl
  have hidle := h.not_busy hlock (by simp [hst]) (by simp [hx])
  have hfree : ∀ y, (m.scheduler y).engaged ≠ some p := by
    intro y hy
    cases hy' : m.scheduler y with
    | clear r rest' =>
      obtain rfl : r = p := by simpa [hy', Place.engaged] using hy
      have hcalm : m.handler y = false := by
        by_contra hc
        have := h.calm y (by simpa using hc)
        simp [hy', Place.calm] at this
      have hp := h.place y hcalm
      rw [hy'] at hp
      obtain rfl : x = y := Option.some.inj (hlock.symm.trans hp.2)
      simp [hpl] at hy'
    | proc r rest' | switch r rest' | away r rest' =>
      refine hidle y ?_
      rw [hy'] at hy ⊢
      exact hy
    | on | off | scan rest' | test r rest' | drop r rest' => simp [hy', Place.engaged] at hy
  have hparked := h.parked p hidle
  rw [hst] at hparked
  have hproc := h.proc x
  rw [hpl] at hproc
  have hl := h.replace hh (.proc p rest) m.lock (m.cpu x) slot' (m.pc p) (m.below p) (fun y _ => hfree y)
    (fun r hr => by simp [hpl, Place.busy] at hr) rfl hproc (fun _ _ _ => Iff.rfl) (h.held x) (h.intr x)
    ⟨hnoff, hlock⟩ (fun _ _ => ⟨hst', hparked⟩) (by simp) (fun hc => absurd rfl hc) (h.below p)
    ⟨h.bottom p, fun f hf q hq => .inl ⟨f, hf, hq⟩⟩ (.inr (by simp [hst]))
  rwa [show (Place.proc p rest).running = m.thread x from hx.symm, update_eq_self, update_eq_self,
    update_eq_self, update_eq_self] at hl

theorem Parked.resume (h : Parked p pc below .RUNNABLE)
    {has : Lock ι Λ → Prop} (hlock : has (.proc p)) : pc.Holds waitLock p 1 has ∧ pc.Runs .RUNNING := by
  rcases h with ⟨c, lk, b, rfl⟩ | ⟨b, rfl⟩ | rfl
  · exact ⟨⟨rfl, rfl, hlock⟩, rfl⟩
  · exact ⟨⟨rfl, rfl, hlock⟩, rfl⟩
  · exact ⟨⟨rfl, hlock⟩, rfl⟩

theorem Parked.saved (h : Parked p pc below .RUNNABLE) : pc.saved = true := by
  rcases h with ⟨c, lk, b, rfl⟩ | ⟨b, rfl⟩ | rfl <;> rfl

theorem Inv.enter (h : Inv waitLock m) (hh : m.handler x = false) (hpl : m.scheduler x = .switch p rest) :
    Inv waitLock { m with
      scheduler := update m.scheduler x (.away p rest)
      thread := update m.thread x (some p) } := by
  have hholds := h.place x hh
  rw [hpl] at hholds
  obtain ⟨hnoff, hlock⟩ := hholds
  obtain ⟨hst, hparked⟩ := h.chosen x p rest (.inr hpl)
  have hproc := h.proc x
  rw [hpl] at hproc
  have hl := h.replace hh (.away p rest) m.lock (m.cpu x) (m.slots p) (m.pc p) (m.below p)
    (fun y hyx hy => hyx (h.alone y x p hy (by rw [hpl]; rfl)))
    (fun r hr => by rw [hpl] at hr; exact (Option.some.inj hr).symm) rfl hproc (fun _ _ _ => Iff.rfl) (h.held x)
    (h.intr x) trivial (by simp) (fun _ _ => by rw [hst, hnoff]; exact hparked.resume hlock)
    (fun hc => absurd rfl hc) (h.below p) ⟨h.bottom p, fun f hf q hq => .inl ⟨f, hf, hq⟩⟩ (.inl rfl)
  rwa [update_eq_self, update_eq_self, update_eq_self, update_eq_self] at hl

section

variable (h : Inv waitLock m) (hx : m.thread x = none)
include h hx

theorem Inv.schedulerStep (hh : m.handler x = false)
    (hstep : (m.scheduler x).step table m.slots = some (act, pl')) (hready : act.ready m x) :
    Outcome waitLock ({ m with scheduler := update m.scheduler x pl' }.exec x act) := by
  have hholds := h.place x hh
  have hproc := h.proc x
  generalize hpl : m.scheduler x = pl at hstep hholds hproc
  revert hstep
  fun_cases Place.step (κ := κ) (Λ := Λ) table m.slots pl <;> intro hstep <;> cases hstep
  next =>
    exact h.places hx hh .off { m.cpu x with intr := true } rfl hproc rfl (fun _ => hholds) hholds (hpl ▸ rfl) (.inl rfl)
  next =>
    exact h.places hx hh (.scan table) { m.cpu x with intr := false } rfl hproc rfl (fun _ => hholds) hholds
      (hpl ▸ rfl) (.inl rfl)
  next =>
    have hl := h.places hx hh .on (m.cpu x) rfl hproc rfl (h.intr x) hholds (hpl ▸ rfl) (.inl rfl)
    rwa [update_eq_self] at hl
  next p rest =>
    have hfree := h.none_held hholds (.proc p)
    simp only [Machine.exec, Machine.acquire, hfree, if_false, Outcome]
    have hl := h.placed hx (.test p rest) (update m.lock (.proc p) (some x)) (m.cpu x).pushOff false rfl
      hproc (fun y hy => lock_update_other rfl (.inl (hready.resolve_right hfree)) (.inr rfl) hy)
      (h.held_acquire hfree) (fun hc => Bool.noConfusion (show false = true from hc)) (fun _ => ?_) (by simp)
      (hpl ▸ rfl) (.inl rfl)
    · rwa [← hh, update_eq_self] at hl
    · exact ⟨by simp [Cpu.pushOff, show (m.cpu x).noff = 0 from hholds], by simp⟩
  next p rest hst => exact h.choose hh hpl hst _ rfl
  next p rest _ =>
    have hl := h.places hx hh (.drop p rest) (m.cpu x) rfl hproc rfl (h.intr x) hholds (hpl ▸ rfl) (.inl rfl)
    rwa [update_eq_self] at hl
  next p rest =>
    exact h.places hx hh (.switch p rest) { m.cpu x with proc := some p } rfl rfl rfl (h.intr x) hholds
      (hpl ▸ rfl) (.inr (hpl ▸ rfl))
  next p rest =>
    have hsaved := (h.chosen x p rest (.inr hpl)).2.saved
    simp only [Machine.exec, hsaved, if_true]
    exact h.enter hh hpl
  next p rest =>
    exact h.places hx hh (.drop p rest) { m.cpu x with proc := none } rfl rfl rfl (h.intr x) hholds
      (hpl ▸ rfl) (.inl rfl)
  next p rest =>
    obtain ⟨hnoff, hlock⟩ := hholds
    obtain ⟨c, hc⟩ := h.popOff_ok hlock
    obtain ⟨hproc', hnoff', hintr⟩ := Cpu.popOff_eq hc
    have hl := h.placed hx (.scan rest) (update m.lock (.proc p) none) c false rfl (hproc'.trans hproc)
      (fun y hy => lock_update_other rfl (.inr hlock) (.inl rfl) hy) (by rw [hnoff']; exact h.held_release hlock) hintr
      (fun _ => by rw [hnoff', hnoff]; rfl) (by simp) (hpl ▸ rfl) (.inl rfl)
    simp only [Machine.exec, Machine.release, hlock, if_true, hc, ok_bind, pure_eq_ok]
    rwa [← hh, update_eq_self] at hl

theorem Inv.handlerStep (hh : m.handler x = true)
    (hstep : Smp.handlerStep ch = some act) (hready : act.ready m x) (ho : Orderly m ⟨x, ch⟩) :
    Outcome waitLock (m.exec x act) := by
  have hcalm := h.calm x hh
  have hproc := h.proc x
  have hidle : (m.scheduler x).running = none := by rw [← h.thread, hx]
  cases ch with
  | acquire l =>
    obtain rfl := Option.some.inj hstep
    simp only [Machine.exec, Machine.acquire]
    split
    next => exact .inl rfl
    next hl =>
      have hp := h.placed hx (m.scheduler x) (update m.lock l (some x)) (m.cpu x).pushOff true hidle hproc
        (fun y hy => lock_update_other rfl (.inl (hready.resolve_right hl)) (.inr rfl) hy) (h.held_acquire hl)
        (fun hc => Bool.noConfusion (show false = true from hc)) (by simp) (fun _ => hcalm) rfl (.inr rfl)
      rwa [← hh, update_eq_self, update_eq_self] at hp
  | release l =>
    obtain rfl := Option.some.inj hstep
    simp only [Machine.exec, Machine.release]
    split
    next hl =>
      obtain ⟨c, hc⟩ := h.popOff_ok hl
      obtain ⟨hproc', hnoff', hintr⟩ := Cpu.popOff_eq hc
      simp only [hc, ok_bind, pure_eq_ok]
      have hp := h.placed hx (m.scheduler x) (update m.lock l none) c true hidle (hproc'.trans hproc)
        (fun y hy => lock_update_other rfl (.inr hl) (.inl rfl) hy) (by rw [hnoff']; exact h.held_release hl) hintr
        (by simp) (fun _ => hcalm) rfl (.inr rfl)
      rwa [← hh, update_eq_self, update_eq_self] at hp
    next => exact .inr rfl
  | wakeup q c =>
    obtain rfl := Option.some.inj hstep
    refine h.foreign (e := .wake c) (ho.resolve_right ?_) (by simp [hx]) (.inl ⟨c, rfl⟩)
    rintro ⟨p, hp, -⟩
    simp [hx] at hp
  | intr b | kill q n | reap q | alloc q pid | fail | sleep c lk | yield | exit | go | interrupt | iret =>
    simp [Smp.handlerStep] at hstep

theorem Inv.interruptScheduler (hh : m.handler x = false) (hintr : (m.cpu x).intr = true) : Inv waitLock { m with
      handler := update m.handler x true
      cpu := update m.cpu x { m.cpu x with intr := false } } := by
  have hzero := h.intr x hintr
  have hidle : (m.scheduler x).running = none := by rw [← h.thread, hx]
  have hholds := h.place x hh
  have hcalm : (m.scheduler x).calm = true := by
    cases hpl : m.scheduler x with
    | on | off | scan rest => rfl
    | away p rest => simp [hpl, Place.running] at hidle
    | test p rest | proc p rest | switch p rest | clear p rest | drop p rest =>
      rw [hpl] at hholds
      have hone : (m.cpu x).noff = 1 := hholds.1
      omega
  have hp := h.placed hx (m.scheduler x) m.lock { m.cpu x with intr := false } true hidle (h.proc x)
    (fun _ _ _ => Iff.rfl) (h.held x) (fun _ => hzero) (by simp) (fun _ => hcalm) rfl (.inr rfl)
  rwa [update_eq_self] at hp

theorem Inv.iretScheduler (hh : m.handler x = true) (hzero : (m.cpu x).noff = 0) : Inv waitLock { m with
      handler := update m.handler x false
      cpu := update m.cpu x { m.cpu x with intr := true } } := by
  have hidle : (m.scheduler x).running = none := by rw [← h.thread, hx]
  have hcalm := h.calm x hh
  have hholds : (m.scheduler x).Holds 0 fun l => m.lock l = some x := by
    cases hpl : m.scheduler x with
    | on | off | scan rest => rfl
    | test p rest | proc p rest | switch p rest | away p rest | clear p rest | drop p rest =>
      simp [hpl, Place.calm] at hcalm
  have hp := h.placed hx (m.scheduler x) m.lock { m.cpu x with intr := true } false hidle (h.proc x)
    (fun _ _ _ => Iff.rfl) (h.held x) (fun _ => hzero) (fun _ => by simpa [hzero] using hholds) (by simp) rfl (.inr rfl)
  rwa [update_eq_self] at hp

end

-- Each step that is allowed keeps the invariant, or panics in acquire() or release().
theorem Inv.next (h : Inv waitLock m) (he : e.enabled waitLock table m)
    (ho : Orderly m e) : Outcome waitLock (Smp.next waitLock table m e) := by
  obtain ⟨x, ch⟩ := e
  obtain ⟨⟨act, m₁⟩, hplan, hready⟩ := he
  rw [Option.mem_def] at hplan
  simp only [Smp.next, hplan]
  revert hplan
  fun_cases Machine.plan waitLock table m x ch <;> intro hplan <;> try cases hplan
  next p hx hintr => exact h.interrupt hx hintr
  next p hx pc below hbelow hpc => exact h.iret hx hpc hbelow ho
  next p hx _ _ =>
    obtain ⟨⟨act', pc'⟩, hstep, heq⟩ := Option.map_eq_some_iff.mp hplan
    cases heq
    exact h.threadStep hx hstep hready ho
  next hx hh hintr => exact h.interruptScheduler hx hh hintr
  next hx hh => exact h.iretScheduler hx hh ho
  next hx hh _ =>
    obtain ⟨act', hstep, heq⟩ := Option.map_eq_some_iff.mp hplan
    cases heq
    exact h.handlerStep hx hh hstep hready ho
  next hx hh =>
    obtain ⟨⟨act', pl'⟩, hstep, heq⟩ := Option.map_eq_some_iff.mp hplan
    cases heq
    exact h.schedulerStep hx hh hstep hready

theorem Start.inv (h : Start m) : Inv waitLock m := by
  obtain ⟨hslots, hlock, hcpu⟩ := h
  have hmakes : ∀ p q, ¬Makes m p q := by
    rintro p q ⟨f, hf, hq⟩
    simp only [(hslots p).2.1, (hslots p).2.2, List.mem_singleton] at hf
    subst hf
    simp [Pc.makes] at hq
  refine ⟨fun x => ?_, fun x _ => (hcpu x).2.2.2.2, fun x => ?_, fun x => ?_, fun x _ => ?_, fun x hx => ?_,
    fun x y p hp => ?_, fun x p rest hx => ?_, fun x p rest hx => ?_, fun p _ => ?_, fun p f hf => ?_,
    fun p f fs hs _ => ?_, fun p q hm => absurd hm (hmakes p q), fun p _ q hm => absurd hm (hmakes p q)⟩
  · simp [hlock, (hcpu x).2.2.2.2]
  · rw [(hcpu x).2.2.1, (hcpu x).1]
    rfl
  · rw [(hcpu x).2.2.2.1, (hcpu x).1]
    rfl
  · rw [(hcpu x).1]
    exact (hcpu x).2.2.2.2
  · simp [(hcpu x).2.1] at hx
  · simp [(hcpu x).1, Place.engaged] at hp
  · simp [(hcpu x).1] at hx
  · simp [(hcpu x).1] at hx
  · obtain ⟨hst, hpc, hbelow⟩ := hslots p
    rcases hst with hst | hst <;> rw [hst, hpc]
    · exact ⟨hbelow, .inl rfl⟩
    · exact .inr (.inr rfl)
  · simp [(hslots p).2.2] at hf
  · rw [(hslots p).2.1, (hslots p).2.2] at hs
    rcases List.suffix_cons_iff.mp hs with heq | hs
    · exact (List.cons.inj heq).2
    · simp at hs

theorem inv_reach (h : Reach Start (Step waitLock table Orderly) m) : Inv waitLock m := by
  induction h with
  | start h => exact h.inv
  | step _ hs ih =>
    obtain ⟨e, he, ho, hn⟩ := hs
    have hout := ih.next he ho
    rw [hn] at hout
    exact hout

theorem Inv.away_of_free (h : Inv waitLock m) (hlock : m.lock (.proc p) = none)
    (hx : (m.scheduler x).engaged = some p) : ∃ rest, m.scheduler x = .away p rest := by
  have hplace : (m.scheduler x).calm = false → (m.scheduler x).Holds (m.cpu x).noff fun l => m.lock l = some x := by
    intro hc
    refine h.place x ?_
    by_contra hh
    have := h.calm x (by simpa using hh)
    simp [hc] at this
  cases hpl : m.scheduler x with
  | away r rest =>
    obtain rfl : r = p := by simpa [hpl, Place.engaged] using hx
    exact ⟨rest, rfl⟩
  | proc r rest | switch r rest | clear r rest =>
    rw [hpl] at hx hplace
    obtain rfl := Option.some.inj hx
    have hheld := (hplace rfl).2
    simp [hlock] at hheld
  | on | off | scan rest | test r rest | drop r rest => simp [hpl, Place.engaged] at hx

theorem Place.engaged_of_current {pl : Place ι} (h : pl.current = some p) : pl.engaged = some p := by
  cases pl with
  | switch r rest | away r rest | clear r rest => exact h
  | on | off | scan rest | test r rest | proc r rest | drop r rest => simp [Place.current] at h

theorem Pc.step_sched {pc : Pc ι κ Λ} {c : Cpu ι} {slots : ι → Slot κ} {ch : Choice ι κ Λ} {noff : Nat}
    {has : Lock ι Λ → Prop} {st : ProcState} (hstep : pc.step waitLock c slots ch = some (.sched, pc'))
    (hholds : pc.Holds waitLock p noff has) (hruns : pc.Runs st) : noff = 1 ∧ has (.proc p) ∧ st ≠ .RUNNING := by
  revert hstep
  fun_cases Pc.step waitLock c slots pc ch <;> intro hstep <;> try cases hstep
  case case5 | case6 => split at hstep <;> cases hstep
  case case12 q d lk s =>
    cases s <;> cases hstep
    exact ⟨hholds.2.1, hholds.2.2, by rw [show st = .SLEEPING from hruns]; simp⟩
  case case13 q s =>
    cases s <;> cases hstep
    exact ⟨hholds.2.1, hholds.2.2, by rw [show st = .RUNNABLE from hruns]; simp⟩
  case case14 q s =>
    revert hstep
    fun_cases ExitStage.step waitLock c.intena q s ch <;> intro hstep <;> cases hstep
    exact ⟨hholds.2.1, hholds.2.2, by rw [show st = .ZOMBIE from hruns]; simp⟩
  case case15 np s =>
    revert hstep
    fun_cases ForkStage.step np s ch <;> intro hstep <;> cases hstep
  all_goals simp at hstep

theorem Place.engaged_of_busy {pl : Place ι} (h : pl.busy = some p) : pl.engaged = some p := by
  cases pl with
  | proc r rest | switch r rest | away r rest => exact h
  | on | off | scan rest | test r rest | clear r rest | drop r rest => simp [Place.busy] at h

theorem handlerStep_ne_sched (ch : Choice ι κ Λ) : Smp.handlerStep ch ≠ some .sched := by
  cases ch <;> simp [Smp.handlerStep]

theorem Inv.plan_sched (h : Inv waitLock m) {table : List ι} {ch : Choice ι κ Λ} {m₁ : Machine ι κ Λ γ}
    (hplan : m.plan waitLock table x ch = some (.sched, m₁)) :
    ∃ p, (m.cpu x).proc = some p ∧ m.thread x = some p ∧ (∀ l, m.lock l = some x ↔ l = .proc p) ∧
      (m.cpu x).noff = 1 ∧ (m.slots p).task.state ≠ .RUNNING := by
  revert hplan
  fun_cases Machine.plan waitLock table m x ch <;> intro hplan <;> try cases hplan
  next p hx _ _ =>
    obtain ⟨⟨act, pc'⟩, hstep, heq⟩ := Option.map_eq_some_iff.mp hplan
    cases heq
    obtain ⟨hholds, hruns, hproc⟩ := h.at_pc hx rfl
    obtain ⟨hnoff, hlock, hst⟩ := Pc.step_sched hstep hholds hruns
    refine ⟨p, hproc, hx, fun l => ⟨fun hl => h.only_held hnoff hl hlock, ?_⟩, hnoff, hst⟩
    rintro rfl
    exact hlock
  next hx hh _ =>
    obtain ⟨act, hstep, heq⟩ := Option.map_eq_some_iff.mp hplan
    cases heq
    exact absurd hstep (handlerStep_ne_sched _)
  next hx hh =>
    obtain ⟨⟨act, pl'⟩, hstep, heq⟩ := Option.map_eq_some_iff.mp hplan
    cases heq
    revert hstep
    fun_cases Place.step (κ := κ) (Λ := Λ) table m.slots (m.scheduler x) <;> simp

-- One CPU per process.
theorem one_cpu_per_process {table : List ι} (h : Reach Start (Step waitLock table Orderly) m) :
    (∀ p, m.lock (.proc p) = none →
      ((m.slots p).task.state = .RUNNING ↔ ∃! x, (m.cpu x).proc = some p)) ∧
    (∀ p x y, (m.cpu x).proc = some p → (m.cpu y).proc = some p → x = y) ∧
    (∀ x ch m₁, m.plan waitLock table x ch = some (.sched, m₁) → ∃ p, (m.cpu x).proc = some p ∧
      m.thread x = some p ∧ (∀ l, m.lock l = some x ↔ l = .proc p) ∧ (m.cpu x).noff = 1 ∧
      (m.slots p).task.state ≠ .RUNNING) ∧
    ∀ e : Event ι κ Λ γ, e.enabled waitLock table m → Orderly m e → ∀ err, next waitLock table m e = .error err →
      err ∉ [.schedLock, .schedLocks, .schedRunning, .schedInterruptible, .zombieExit, .nullProc, .context] := by
  have hinv := inv_reach h
  have hunique : ∀ p x y, (m.cpu x).proc = some p → (m.cpu y).proc = some p → x = y := by
    intro p x y hx hy
    rw [hinv.proc] at hx hy
    exact hinv.alone x y p (Place.engaged_of_current hx) (Place.engaged_of_current hy)
  refine ⟨fun p hlock => ⟨fun hst => ?_, fun hx => ?_⟩, hunique, fun x ch m₁ hplan => hinv.plan_sched hplan,
    fun e he ho err hn => ?_⟩
  · -- its thread is not parked, so some CPU is at it
    have hbusy : ∃ x, (m.scheduler x).busy = some p := by
      by_contra hc
      have hp := hinv.parked p fun x hx => hc ⟨x, hx⟩
      rw [hst] at hp
      exact hp
    obtain ⟨x, hx⟩ := hbusy
    obtain ⟨rest, hpl⟩ := hinv.away_of_free hlock (Place.engaged_of_busy hx)
    have hproc : (m.cpu x).proc = some p := by rw [hinv.proc, hpl]; rfl
    exact ⟨x, hproc, fun y hy => hunique p y x hy hproc⟩
  · obtain ⟨x, hx, -⟩ := hx
    have hx' : (m.cpu x).proc = some p := hx
    rw [hinv.proc] at hx'
    obtain ⟨rest, hpl⟩ := hinv.away_of_free hlock (Place.engaged_of_current hx')
    obtain ⟨hholds, hruns⟩ := hinv.runs x p rest hpl
    by_contra hst
    have hheld : m.lock (.proc p) = some x := hruns.lock hholds hst
    simp [hlock] at hheld
  · have hout := hinv.next he ho
    rw [hn] at hout
    rcases hout with rfl | rfl <;> simp

instance Act.decidableReady (m : Machine ι κ Λ γ) (x : γ) : ∀ a : Act ι κ Λ, Decidable (a.ready m x)
  | .acquire _ => inferInstanceAs (Decidable (_ ∨ _))
  | .skip | .release _ | .edit _ _ | .sched | .intena _ | .intr _ | .proc _ | .enter _ | .zombie =>
    inferInstanceAs (Decidable True)

instance Event.decidableEnabled (table : List ι) (m : Machine ι κ Λ γ) (e : Event ι κ Λ γ) :
    Decidable (e.enabled waitLock table m) :=
  inferInstanceAs (Decidable (∃ a ∈ _, _))

-- Two CPUs enter a process each, which leaves forkret().
def samplePair : Option (Machine (Fin 2) Unit Unit (Fin 2)) :=
  runs (fun m e => e.enabled () [0, 1] m) (next () [0, 1])
    { slots := fun _ => { task := { state := .RUNNABLE, chan := none, killed := false }, pid := 1 }
      lock := fun _ => none
      cpu := fun _ => { proc := none, noff := 0, intena := false, intr := true }
      scheduler := fun _ => .on
      handler := fun _ => false
      thread := fun _ => none
      pc := fun _ => .forkret
      below := fun _ => [] }
    (List.replicate 7 { cpu := 0, choice := .go } ++ List.replicate 10 { cpu := 1, choice := .go })

theorem one_cpu_per_process_two : ∃ m : Machine (Fin 2) Unit Unit (Fin 2),
    (m.cpu 0).proc = some 0 ∧ (m.cpu 1).proc = some 1 ∧
    ((m.slots 0).task.state = .RUNNING ↔ ∃! x, (m.cpu x).proc = some 0) := by
  obtain ⟨m, hm, h0, h1, hlock⟩ : ∃ m, samplePair = some m ∧ (m.cpu 0).proc = some 0 ∧ (m.cpu 1).proc = some 1 ∧
      m.lock (.proc 0) = none :=
    exists_of_any (by decide +kernel)
  have hreach : Reach Start (Step () [0, 1] Orderly) m := by
    refine Reach.runs (fun e he s t hen hn => ⟨e, hen, ?_, hn⟩) (.start ?_) hm
    · have hgo : e.choice = .go := by
        simp only [List.mem_append, List.mem_replicate] at he
        rcases he with ⟨-, rfl⟩ | ⟨-, rfl⟩ <;> rfl
      simp [Orderly, hgo]
    · simp [Start]
  exact ⟨m, h0, h1, (one_cpu_per_process hreach).1 0 hlock⟩

end Xv6.Smp
