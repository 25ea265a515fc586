import Xv6.Family

namespace Xv6.Family

open Lib Function

variable {m m' : State} {p q c z np : Fin NPROC}

section Invariant

def Place.locked : Place → Bool
  | .reparent _ _ | .reparentWakeup _ _ _ | .exitWakeup _ _ _ | .exitLast _ => true
  | .waitScan _ _ | .waitKilled | .waitSleep => true
  | _ => false

-- The slot that a fork() is about, and whether it has its parent yet.
def Place.forking : Place → Option (Fin NPROC × Bool)
  | .forkParent np => some (np, false)
  | .forkReady np => some (np, true)
  | _ => none

-- The slots that may still have the process as their parent, in exit().
def Place.leaving : Place → Option (List (Fin NPROC))
  | .reparent _ rest | .reparentWakeup _ rest _ => some rest
  | .exitWakeup _ _ _ | .exitLast _ => some []
  | _ => none

-- The slots that may still be an exited child, in wait().
def Place.scanning : Place → Option (List (Fin NPROC))
  | .waitScan rest _ => some rest
  | .waitKilled | .waitSleep => some []
  | _ => none

def Alive (st : ProcState) : Prop := st = .SLEEPING ∨ st = .RUNNABLE ∨ st = .RUNNING

def Place.Fits (p : Fin NPROC) (task : Task Chan) : Place → Prop
  | .other => task.state ≠ .ZOMBIE ∧ ∀ q, task.state = .SLEEPING → task.chan ≠ some (.proc q)
  | .forkParent _ | .forkReady _ | .waitAgain => task.state = .RUNNABLE ∨ task.state = .RUNNING
  | .zombie => task.state = .ZOMBIE
  | .asleep => task.state = .SLEEPING ∧ task.chan = some (.proc p) ∨ task.state = .RUNNABLE
  | _ => task.state = .RUNNING

def State.state (m : State) (p : Fin NPROC) : ProcState := (m.tasks p).state

def State.life (m : State) (c : Fin NPROC) : Life :=
  match m.parent c with
  | none => .absent
  | some p => if m.state c = .ZOMBIE then .exited p (m.pid c) (m.xstate c) else .alive p

structure Kinship (m : State) : Prop where
  lock : ∀ p, (m.place p).locked = true → m.waitLock = some p
  init : Alive (m.state m.initproc)
  fork : ∀ p np ready, (m.place p).forking = some (np, ready) →
    m.state np = .USED ∧ m.parent np = if ready then some p else none
  forkInj : ∀ p p' np ready ready', (m.place p).forking = some (np, ready) →
    (m.place p').forking = some (np, ready') → p = p'
  parents : ∀ c p, m.parent c = some p → m.state c ≠ .UNUSED ∧ Alive (m.state p)
  orphan : ∀ c, m.parent c = none → c ≠ m.initproc → m.state c = .UNUSED ∨ m.state c = .USED
  leaving : ∀ p rest, (m.place p).leaving = some rest →
    p ≠ m.initproc ∧ ∀ c, m.parent c = some p → c ∈ rest
  scanning : ∀ p rest, (m.place p).scanning = some rest →
    ∀ z, m.parent z = some p → m.state z = .ZOMBIE → z ∈ rest
  history : history m.log = some m.life

def State.Waits (m : State) (q : Fin NPROC) : Prop := SleepsOn m.tasks q (.proc q)

-- Nobody sleeps in wait() with an exited child, but for initproc when it has been given
-- one and is about to be woken up.
structure Wakeful (m : State) : Prop where
  fits : ∀ p, (m.place p).Fits p (m.tasks p)
  woken : ∀ q z, m.Waits q → m.parent z = some q → m.state z = .ZOMBIE →
    q = m.initproc ∧ ∃ p status rest slots, m.place p = .reparentWakeup status rest slots ∧ q ∈ slots
  exitWakeup : ∀ p status chan slots, m.place p = .exitWakeup status chan slots →
    chan = m.parent p ∧ ∀ q, m.parent p = some q → m.Waits q → q ∈ slots
  exitLast : ∀ p status, m.place p = .exitLast status → ∀ q, m.parent p = some q → ¬m.Waits q

end Invariant

section Moves

def SameKind (a b : ProcState) : Prop := a = b ∨ Alive a ∧ Alive b

theorem SameKind.alive (h : SameKind a b) : Alive b ↔ Alive a := by
  rcases h with rfl | ⟨ha, hb⟩
  · rfl
  · exact iff_of_true hb ha

theorem SameKind.eq_iff (h : SameKind a b) (hst : ¬Alive st) : b = st ↔ a = st := by
  rcases h with rfl | ⟨ha, hb⟩
  · rfl
  · exact iff_of_false (fun heq => hst (heq ▸ hb)) fun heq => hst (heq ▸ ha)

theorem Kinship.move (h : Kinship m) (hparent : m'.parent = m.parent) (hinit : m'.initproc = m.initproc)
    (hlog : m'.log = m.log) (hlife : m'.life = m.life) (hkind : ∀ q, SameKind (m.state q) (m'.state q))
    (hplace : ∀ q, q ≠ p → m'.place q = m.place q) (hlock : ∀ q, q ≠ p → m.waitLock = some q → m'.waitLock = some q)
    (hheld : (m'.place p).locked = true → m'.waitLock = some p) (hfork : (m'.place p).forking = (m.place p).forking)
    (hleaving : ∀ rest, (m'.place p).leaving = some rest →
      p ≠ m.initproc ∧ ∀ c, m.parent c = some p → c ∈ rest) (hscanning : ∀ rest, (m'.place p).scanning = some rest →
      ∀ z, m.parent z = some p → m.state z = .ZOMBIE → z ∈ rest) : Kinship m' := by
  have hforking : ∀ q, (m'.place q).forking = (m.place q).forking := by
    intro q
    by_cases hq : q = p
    · rw [hq, hfork]
    · rw [hplace q hq]
  have hused : ∀ q, m'.state q = .USED ↔ m.state q = .USED := fun q => (hkind q).eq_iff (by simp [Alive])
  have hunused : ∀ q, m'.state q = .UNUSED ↔ m.state q = .UNUSED := fun q => (hkind q).eq_iff (by simp [Alive])
  have hzombie : ∀ q, m'.state q = .ZOMBIE ↔ m.state q = .ZOMBIE := fun q => (hkind q).eq_iff (by simp [Alive])
  refine ⟨fun q hq => ?_, ?_, ?_, ?_, ?_, ?_, fun q rest hq => ?_, fun q rest hq => ?_, ?_⟩
  · by_cases hqp : q = p
    · exact hqp ▸ hheld (hqp ▸ hq)
    · rw [hplace q hqp] at hq
      exact hlock q hqp (h.lock q hq)
  · rw [hinit]
    exact (hkind _).alive.mpr h.init
  · intro q np ready hq
    rw [hused, hparent]
    exact h.fork q np ready (hforking q ▸ hq)
  · intro q q' np ready ready' hq hq'
    exact h.forkInj q q' np ready ready' (hforking q ▸ hq) (hforking q' ▸ hq')
  · intro c q hc
    rw [hparent] at hc
    obtain ⟨hc, hq⟩ := h.parents c q hc
    exact ⟨fun hn => hc ((hunused c).mp hn), (hkind q).alive.mpr hq⟩
  · intro c hc hne
    rw [hparent] at hc
    rw [hinit] at hne
    rw [hunused, hused]
    exact h.orphan c hc hne
  · rw [hinit, hparent]
    by_cases hqp : q = p
    · exact hqp ▸ hleaving rest (hqp ▸ hq)
    · exact h.leaving q rest (hplace q hqp ▸ hq)
  · intro z hz
    rw [hzombie]
    rw [hparent] at hz
    by_cases hqp : q = p
    · exact hscanning rest (hqp ▸ hq) z (hqp ▸ hz)
    · exact h.scanning q rest (hplace q hqp ▸ hq) z hz
  · rw [hlog, hlife, h.history]

theorem life_congr (hparent : m'.parent c = m.parent c) (hstate : m'.state c = m.state c)
    (hpid : m'.pid c = m.pid c) (hxstate : m'.xstate c = m.xstate c) : m'.life c = m.life c := by
  rw [State.life, State.life, hparent, hstate, hpid, hxstate]

theorem life_update (life : Life) (hother : ∀ q, q ≠ c → m'.life q = m.life q) (hc : m'.life c = life) :
    m'.life = update m.life c life := by
  funext q
  by_cases hq : q = c
  · rw [hq, hc, update_self]
  · rw [hother q hq, update_of_ne hq]

theorem life_eq (hparent : m'.parent = m.parent) (hpid : m'.pid = m.pid) (hxstate : m'.xstate = m.xstate)
    (hkind : ∀ q, SameKind (m.state q) (m'.state q)) : m'.life = m.life := by
  funext c
  have hzombie : m'.state c = .ZOMBIE ↔ m.state c = .ZOMBIE := (hkind c).eq_iff (by simp [Alive])
  simp only [State.life, hparent, hpid, hxstate, hzombie]

variable {t : Fin NPROC → Task Chan} {l : Option (Fin NPROC)} {pl : Place} {r : Fin NPROC → Option Int}

theorem Kinship.goto (h : Kinship m) (hkind : ∀ q, SameKind (m.state q) (t q).state)
    (hlock : ∀ q, q ≠ p → m.waitLock = some q → l = some q) (hheld : pl.locked = true → l = some p)
    (hfork : pl.forking = (m.place p).forking)
    (hleaving : ∀ rest, pl.leaving = some rest → p ≠ m.initproc ∧ ∀ c, m.parent c = some p → c ∈ rest)
    (hscanning : ∀ rest, pl.scanning = some rest →
      ∀ z, m.parent z = some p → m.state z = .ZOMBIE → z ∈ rest) :
    Kinship ({ m with tasks := t, waitLock := l, result := r }.goto p pl) := by
  refine h.move (p := p) rfl rfl rfl (life_eq rfl rfl rfl hkind) hkind
    (fun q hq => update_of_ne hq ..) hlock ?_ ?_ ?_ ?_
  all_goals simp only [State.goto, update_self]
  · exact hheld
  · exact hfork
  · exact hleaving
  · exact hscanning

theorem Kinship.setTasks (h : Kinship m) (hkind : ∀ q, SameKind (m.state q) (t q).state) :
    Kinship { m with tasks := t } :=
  h.move (p := m.initproc) rfl rfl rfl (life_eq rfl rfl rfl hkind) hkind (fun _ _ => rfl) (fun _ _ hq => hq)
    (h.lock _) rfl (h.leaving _) (h.scanning _)

end Moves

section Kinship

theorem Place.locked_of_leaving {pl : Place} (h : pl.leaving = some rest) : pl.locked = true := by
  cases pl <;> simp_all [Place.leaving, Place.locked]

theorem Place.locked_of_scanning {pl : Place} (h : pl.scanning = some rest) : pl.locked = true := by
  cases pl <;> simp_all [Place.scanning, Place.locked]

theorem mem_table (q : Fin NPROC) : q ∈ table := List.mem_finRange q

theorem history_concat (log : List Record) (r : Record) :
    history (log ++ [r]) = (history log).bind fun lives => r.next lives := by
  simp [history, List.foldlM_append]

theorem Wakeful.place_eq (h : Wakeful m) (hst : m.state q = .UNUSED ∨ m.state q = .USED) : m.place q = .other := by
  have hfits := h.fits q
  have hnot : ¬((m.tasks q).state = .RUNNABLE ∨ (m.tasks q).state = .RUNNING) ∧ (m.tasks q).state ≠ .SLEEPING ∧
      (m.tasks q).state ≠ .ZOMBIE := by
    rcases hst with hst | hst <;> rw [State.state] at hst <;> simp [hst]
  cases hpl : m.place q <;> rw [hpl] at hfits <;> simp_all [Place.Fits]

theorem Kinship.parent_unused (h : Kinship m) (hq : m.state q = .UNUSED) : m.parent q = none := by
  cases hp : m.parent q with
  | none => rfl
  | some p => exact absurd hq (h.parents q p hp).1

theorem Kinship.alone (h : Kinship m) (hlock : ∀ q, q ≠ p → m.waitLock ≠ some q) (hq : q ≠ p) :
    (m.place q).locked = false := by
  by_contra hn
  exact hlock q hq (h.lock q (by simpa using hn))

theorem alone_of_none (hlock : m.waitLock = none) : ∀ q, q ≠ p → m.waitLock ≠ some q := by
  simp [hlock]

theorem alone_of_some (hlock : m.waitLock = some p) : ∀ q, q ≠ p → m.waitLock ≠ some q := by
  intro q hq heq
  rw [hlock, Option.some.injEq] at heq
  exact hq heq.symm

section

variable (h : Kinship m)
include h

theorem Kinship.forkAlloc (hnp : m.state np = .UNUSED) : Kinship (m.forkAlloc p np true) := by
  have hnone := h.parent_unused hnp
  have hplace : ∀ q, (m.forkAlloc p np true).place q = if q = p then .forkParent np else m.place q :=
    fun q => update_apply ..
  have hstate : ∀ q, (m.forkAlloc p np true).state q = if q = np then .USED else m.state q := by
    intro q
    simp only [State.forkAlloc, State.goto, State.state, setState, update_apply, if_true]
    split <;> rfl
  have hparent : ∀ q, (m.forkAlloc p np true).parent q = m.parent q := fun _ => rfl
  have hlife : (m.forkAlloc p np true).life = m.life := by
    funext c
    simp only [State.life, hparent, hstate]
    by_cases hc : c = np
    · simp [hc, hnone]
    · simp [hc, State.forkAlloc, State.goto]
  obtain ⟨lock, init, fork, forkInj, parents, orphan, leaving, scanning, hist⟩ := h
  constructor
  case history => exact hlife ▸ hist
  case lock => grind [Place.locked, State.forkAlloc, State.goto]
  case init => grind [Alive, State.forkAlloc, State.goto]
  case fork | forkInj => grind [Place.forking]
  case parents =>
    intro c q hc
    have hold := parents c q hc
    grind [Alive]
  case orphan => grind [State.forkAlloc, State.goto]
  case leaving => grind [Place.leaving, State.forkAlloc, State.goto]
  case scanning => grind [Place.scanning]

theorem Kinship.forkFail (hw : Wakeful m) (hnp : m.state np = .UNUSED) : Kinship (m.forkAlloc p np false) := by
  have hnone := h.parent_unused hnp
  have hother := hw.place_eq (.inl hnp)
  have hkind : ∀ q, SameKind (m.state q) ((m.forkAlloc p np false).state q) := by
    intro q
    by_cases hq : q = np
    · exact .inl (by simp [State.forkAlloc, State.freeproc, State.state, hq] at hnp ⊢; exact hnp)
    · exact .inl (by simp [State.forkAlloc, State.freeproc, State.state, hq])
  have hparent : (m.forkAlloc p np false).parent = m.parent := by
    simp [State.forkAlloc, State.freeproc, ← hnone]
  have hlife : (m.forkAlloc p np false).life = m.life := by
    funext c
    by_cases hc : c = np
    · simp [State.life, hparent, hc, hnone]
    · exact life_congr (by rw [hparent]) (by simp [State.forkAlloc, State.freeproc, State.state, hc])
        (by simp [State.forkAlloc, State.freeproc, hc]) (by simp [State.forkAlloc, State.freeproc, hc])
  have hplace : (m.forkAlloc p np false).place = m.place := by
    simp [State.forkAlloc, State.freeproc, ← hother]
  refine h.move (p := np) hparent rfl rfl hlife hkind (fun q _ => by rw [hplace]) (fun _ _ hq => hq) ?_ ?_ ?_ ?_
  all_goals rw [hplace]
  · exact h.lock np
  · exact h.leaving np
  · exact h.scanning np

theorem Kinship.setParent (hpl : m.place p = .forkParent np) (hrun : m.state p = .RUNNING)
    (hlock : m.waitLock = none) : Kinship (m.setParent p np) := by
  obtain ⟨hused, hnone⟩ := h.fork p np false (hpl ▸ rfl)
  have hfree : ∀ q, (m.place q).locked = false := by
    intro q
    by_contra hn
    simp [h.lock q (by simpa using hn)] at hlock
  have hplace : ∀ q, (m.setParent p np).place q = if q = p then .forkReady np else m.place q :=
    fun q => update_apply ..
  have hparent : ∀ q, (m.setParent p np).parent q = if q = np then some p else m.parent q :=
    fun q => update_apply ..
  have hstate : ∀ q, (m.setParent p np).state q = m.state q := fun _ => rfl
  have hlife : (m.setParent p np).life = update m.life np (.alive p) :=
    life_update (.alive p) (fun q hq => life_congr (by rw [hparent, if_neg hq]) rfl rfl rfl)
      (by simp [State.life, hparent, hstate, hused])
  obtain ⟨lock, init, fork, forkInj, parents, orphan, leaving, scanning, hist⟩ := h
  constructor
  case history =>
    have habsent : m.life np = .absent := by simp [State.life, hnone]
    rw [hlife]
    simp [State.setParent, State.goto, history_concat, hist, Record.next, habsent]
  case lock => grind [Place.locked]
  case init => exact init
  case fork | forkInj => grind [Place.forking]
  case parents => grind [Alive]
  case orphan => grind [State.setParent, State.goto]
  case leaving =>
    intro q rest hq
    have hl := Place.locked_of_leaving hq
    grind [Place.locked]
  case scanning =>
    intro q rest hq
    have hl := Place.locked_of_scanning hq
    grind [Place.locked]

theorem Kinship.setReady (hpl : m.place p = .forkReady np) : Kinship (m.setReady p np) := by
  obtain ⟨hused, hsome⟩ := h.fork p np true (hpl ▸ rfl)
  have hplace : ∀ q, (m.setReady p np).place q = if q = p then .other else m.place q :=
    fun q => update_apply ..
  have hstate : ∀ q, (m.setReady p np).state q = if q = np then .RUNNABLE else m.state q := by
    intro q
    simp only [State.setReady, State.goto, State.state, setState, update_apply]
    split <;> rfl
  have hparent : ∀ q, (m.setReady p np).parent q = m.parent q := fun _ => rfl
  have hlife : (m.setReady p np).life = m.life := by
    funext c
    by_cases hc : c = np
    · simp [State.life, hparent, hstate, hc, hused, hsome]
    · exact life_congr rfl (by rw [hstate, if_neg hc]) rfl rfl
  obtain ⟨lock, init, fork, forkInj, parents, orphan, leaving, scanning, hist⟩ := h
  constructor
  case history => exact hlife ▸ hist
  case lock => grind [Place.locked, State.setReady, State.goto]
  case init => grind [Alive, State.setReady, State.goto]
  case fork | forkInj => grind [Place.forking]
  case parents =>
    intro c q hc
    have hold := parents c q hc
    grind [Alive]
  case orphan => grind [State.setReady, State.goto]
  case leaving => grind [Place.leaving, State.setReady, State.goto]
  case scanning => grind [Place.scanning]

theorem Kinship.adopt (hpl : m.place p = .reparent status (c :: rest)) (hc : m.parent c = some p) :
    Kinship (m.adopt p status c rest) := by
  have hlock := h.lock p (hpl ▸ rfl)
  obtain ⟨hne, hchildren⟩ := h.leaving p (c :: rest) (hpl ▸ rfl)
  have hfree : ∀ q, q ≠ p → (m.place q).locked = false := fun q hq => h.alone (alone_of_some hlock) hq
  have hplace : ∀ q, (m.adopt p status c rest).place q =
      if q = p then .reparentWakeup status rest table else m.place q := fun q => update_apply ..
  have hparent : ∀ q, (m.adopt p status c rest).parent q =
      if q = c then some m.initproc else m.parent q := fun q => update_apply ..
  have hstate : ∀ q, (m.adopt p status c rest).state q = m.state q := fun _ => rfl
  obtain ⟨lock, init, fork, forkInj, parents, orphan, leaving, scanning, hist⟩ := h
  constructor
  case history =>
    have hother : ∀ q, q ≠ c → (m.adopt p status c rest).life q = m.life q :=
      fun q hq => life_congr (by rw [hparent, if_neg hq]) rfl rfl rfl
    show Family.history (m.log ++ [.adopted c m.initproc]) = _
    rw [history_concat, hist, Option.bind_some]
    by_cases hz : m.state c = .ZOMBIE
    · rw [life_update (.exited m.initproc (m.pid c) (m.xstate c)) hother
        (by simp only [State.life, hparent, hstate, hz, if_true]; rfl)]
      simp [Record.next, State.life, hc, hz]
    · rw [life_update (.alive m.initproc) hother (by simp [State.life, hparent, hstate, hz])]
      simp [Record.next, State.life, hc, hz]
  case lock => grind [Place.locked, State.adopt, State.goto]
  case init => exact init
  case fork | forkInj => grind [Place.forking]
  case parents => grind [Alive]
  case orphan => grind [State.adopt, State.goto]
  case leaving =>
    intro q rest' hq
    have hl := Place.locked_of_leaving hq
    grind [Place.leaving, State.adopt, State.goto]
  case scanning =>
    intro q rest' hq
    have hl := Place.locked_of_scanning hq
    grind [Place.scanning]

theorem Kinship.exitLast (hpl : m.place p = .exitLast status) (hrun : m.state p = .RUNNING) :
    Kinship (m.exitLast p status) := by
  have hlock := h.lock p (hpl ▸ rfl)
  obtain ⟨hne, hchildren⟩ := h.leaving p [] (hpl ▸ rfl)
  have hfree : ∀ q, q ≠ p → (m.place q).locked = false := fun q hq => h.alone (alone_of_some hlock) hq
  have hplace : ∀ q, (m.exitLast p status).place q = if q = p then .zombie else m.place q :=
    fun q => update_apply ..
  have hparent : ∀ q, (m.exitLast p status).parent q = m.parent q := fun _ => rfl
  have hstate : ∀ q, (m.exitLast p status).state q = if q = p then .ZOMBIE else m.state q := by
    intro q
    simp only [State.exitLast, State.goto, State.state, setState, update_apply]
    split <;> rfl
  obtain ⟨lock, init, fork, forkInj, parents, orphan, leaving, scanning, hist⟩ := h
  constructor
  case history =>
    obtain ⟨q, hq⟩ : ∃ q, m.parent p = some q := by
      cases hpp : m.parent p with
      | none => simpa [hrun] using orphan p hpp hne
      | some q => exact ⟨q, rfl⟩
    have hother : ∀ c, c ≠ p → (m.exitLast p status).life c = m.life c := fun c hc =>
      life_congr rfl (by rw [hstate, if_neg hc]) rfl (update_of_ne hc ..)
    have hxstate : (m.exitLast p status).xstate p = status := update_self ..
    show Family.history (m.log ++ [.exited p (m.pid p) status]) = _
    rw [history_concat, hist, Option.bind_some, life_update (.exited q (m.pid p) status) hother
      (by simp [State.life, hparent, hstate, hq, hxstate]; rfl)]
    simp [Record.next, State.life, hq, hrun]
  case lock => grind [Place.locked]
  case init => grind [State.exitLast, State.goto]
  case fork | forkInj => grind [Place.forking]
  case parents => grind
  case orphan => grind [State.exitLast, State.goto]
  case leaving =>
    intro q rest' hq
    have hl := Place.locked_of_leaving hq
    grind [Place.leaving]
  case scanning =>
    intro q rest' hq
    have hl := Place.locked_of_scanning hq
    grind [Place.scanning]

theorem Kinship.reap (hpl : m.place p = .waitScan (c :: rest) havekids) (hc : m.parent c = some p)
    (hz : m.state c = .ZOMBIE) : Kinship (m.reap p c) := by
  have hlock := h.lock p (hpl ▸ rfl)
  have hfree : ∀ q, q ≠ p → (m.place q).locked = false := fun q hq => h.alone (alone_of_some hlock) hq
  have hplace : ∀ q, (m.reap p c).place q = if q = p ∨ q = c then .other else m.place q := by
    intro q
    simp only [State.reap, State.waitReturn, State.freeproc, State.goto, update_apply]
    grind
  have hparent : ∀ q, (m.reap p c).parent q = if q = c then none else m.parent q :=
    fun q => update_apply ..
  have hstate : ∀ q, (m.reap p c).state q = if q = c then .UNUSED else m.state q := by
    intro q
    simp only [State.reap, State.waitReturn, State.freeproc, State.goto, State.state, update_apply]
    split <;> rfl
  have halive := h.parents c p hc
  obtain ⟨lock, init, fork, forkInj, parents, orphan, leaving, scanning, hist⟩ := h
  constructor
  case history =>
    have hother : ∀ q, q ≠ c → (m.reap p c).life q = m.life q := fun q hq =>
      life_congr (by rw [hparent, if_neg hq]) (by rw [hstate, if_neg hq]) (update_of_ne hq ..)
        (update_of_ne hq ..)
    show Family.history (m.log ++ [.reaped c p (m.pid c) (m.xstate c)]) = _
    rw [history_concat, hist, Option.bind_some, life_update .absent hother (by simp [State.life, hparent])]
    simp [Record.next, State.life, hc, hz]
  case lock => grind [Place.locked]
  case init => grind [Alive, State.reap, State.waitReturn, State.freeproc, State.goto]
  case fork | forkInj => grind [Place.forking]
  case parents =>
    intro q q' hq
    have hold := parents q q'
    grind [Alive]
  case orphan => grind [State.reap, State.waitReturn, State.freeproc, State.goto]
  case leaving =>
    intro q rest' hq
    have hl := Place.locked_of_leaving hq
    grind [Place.leaving, Place.locked]
  case scanning =>
    intro q rest' hq
    have hl := Place.locked_of_scanning hq
    grind [Place.scanning, Place.locked]

end

end Kinship

end Xv6.Family
