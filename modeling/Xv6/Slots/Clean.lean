import Xv6.Proc.Effects
import Xv6.System.Ordinary

namespace Xv6

open Lib Function

variable {L : Layout} {used : List Nat} {k k' : Kernel} {c c' : Slots} {p q : Fin NPROC} {e : SlotEvent}

section Slot

theorem fork_slots (h : fork L p k = .ok (r, k')) :
    (unusedSlot k = none ∧ k' = k) ∨
    ∃ np, unusedSlot k = some np ∧ (∀ q, q ≠ np → SameSlot k k' q) ∧
      (Cleared k' np ∨ k'.tasks np = { k.tasks np with state := .RUNNABLE }) := by
  rcases fork_effect h with ⟨hnone, -, hk⟩ | ⟨np, hslot, ⟨-, s, rfl⟩ | ⟨-, s, proc, -, -, rfl⟩⟩
  · exact .inl ⟨hnone, hk⟩
  · exact .inr ⟨np, hslot, fun q hq => k.freed_of_ne s hq, .inl (k.cleared_freed np s)⟩
  · exact .inr ⟨np, hslot, fun q hq => k.taken_of_ne s _ proc hq, .inr (update_self ..)⟩

theorem wakeupProc_of_not_sleeping (tasks : Fin NPROC → Task Chan) (me : Fin NPROC) (chan : Option (Fin NPROC))
    (h : (tasks q).state ≠ .SLEEPING) : wakeupProc tasks me chan q = tasks q := by
  cases chan with
  | none => rfl
  | some r =>
    refine if_neg ?_
    rintro ⟨-, hs, -⟩
    exact h hs

theorem state_wakeupProc (tasks : Fin NPROC → Task Chan) (me : Fin NPROC) (chan : Option (Fin NPROC))
    (q : Fin NPROC) : wakeupProc tasks me chan q = tasks q ∨
      (tasks q).state = .SLEEPING ∧ (wakeupProc tasks me chan q).state = .RUNNABLE := by
  by_cases hs : (tasks q).state = .SLEEPING
  · cases chan with
    | none => exact .inl rfl
    | some r =>
      simp only [wakeupProc, wakeup]
      split
      · exact .inr ⟨hs, rfl⟩
      · exact .inl rfl
  · exact .inl (wakeupProc_of_not_sleeping tasks me chan hs)

theorem reparent_slots (p : Fin NPROC) (k : Kernel) (q : Fin NPROC) :
    ((k.procs q).parent = none → (reparent p k).procs q = k.procs q) ∧
    ((reparent p k).tasks q = k.tasks q ∨
      (k.tasks q).state = .SLEEPING ∧ ((reparent p k).tasks q).state = .RUNNABLE) := by
  rw [reparent]
  generalize List.finRange NPROC = slots
  induction slots generalizing k with
  | nil => exact ⟨fun _ => rfl, .inl rfl⟩
  | cons pp slots ih =>
    rw [List.foldl_cons]
    have hone : ((k.procs q).parent = none → (reparentOne p k pp).procs q = k.procs q) ∧
        ((reparentOne p k pp).tasks q = k.tasks q ∨
          (k.tasks q).state = .SLEEPING ∧ ((reparentOne p k pp).tasks q).state = .RUNNABLE) := by
      rw [reparentOne]
      split
      next hp =>
        refine ⟨fun hnone => k.setProc_of_ne _ ?_, state_wakeupProc ..⟩
        rintro rfl
        simp [hnone] at hp
      next => exact ⟨fun _ => rfl, .inl rfl⟩
    obtain ⟨hprocs, htasks⟩ := ih (reparentOne p k pp)
    refine ⟨fun hnone => ?_, ?_⟩
    · have heq := hone.1 hnone
      rw [hprocs (by rw [heq, hnone]), heq]
    · rcases hone.2 with heq | ⟨hs, hr⟩
      · rwa [heq] at htasks
      · rcases htasks with heq | ⟨hs', -⟩
        · exact .inr ⟨hs, by rw [heq, hr]⟩
        · simp [hr] at hs'

theorem exit_slots (h : exit p status k = .ok k') :
    (k'.tasks p).state = .ZOMBIE ∧ ∀ q, q ≠ p →
      ((k.procs q).parent = none → k'.procs q = k.procs q) ∧
      (k'.tasks q = k.tasks q ∨ (k.tasks q).state = .SLEEPING ∧ (k'.tasks q).state = .RUNNABLE) := by
  simp only [exit] at h
  split at h
  · simp at h
  · simp only [Except.ok.injEq] at h
    subst h
    refine ⟨by simp, fun q hq => ?_⟩
    obtain ⟨hprocs, htasks⟩ := reparent_slots p k q
    simp only [update_of_ne hq, Kernel.setProc_of_ne _ _ hq]
    refine ⟨hprocs, ?_⟩
    rcases state_wakeupProc (reparent p k).tasks p ((reparent p k).procs p).parent q with heq | ⟨hs, hr⟩
    · rwa [heq]
    · rcases htasks with heq | ⟨-, hr'⟩
      · exact .inr ⟨heq ▸ hs, hr⟩
      · simp [hr'] at hs

end Slot

-- The slot that kill() finds belongs to a process.
def Aimed (c : Slots) : SlotEvent → Prop
  | .call _ (.kill n) => ∀ q, pidSlot (wrap32 n) c.kernel = some q → c.kernel.Live q
  | _ => True

structure SlotsInv (c : Slots) : Prop where
  clean : ∀ q, ¬c.kernel.Live q → c.Clean q
  zombie : ∀ q, (c.kernel.tasks q).state = .ZOMBIE → c.files q = .none

theorem SlotsInv.of_slots (h : SlotsInv c) (hslot : ∀ q, SameSlot c.kernel c'.kernel q ∧ c'.files q = c.files q ∨
      (c'.kernel.Live q ∧ ((c'.kernel.tasks q).state = .ZOMBIE → c'.files q = .none)) ∨
      c'.Clean q) : SlotsInv c' := by
  refine ⟨fun q hq => ?_, fun q hq => ?_⟩
  · rcases hslot q with ⟨⟨ht, hp⟩, hf⟩ | ⟨hl, -⟩ | hclean
    · have hdead : ¬c.kernel.Live q := by rwa [Kernel.Live, ht] at hq
      obtain ⟨h1, h2, h3⟩ := h.clean q hdead
      exact ⟨ht.trans h1, hp.trans h2, hf.trans h3⟩
    · exact absurd hl hq
    · exact hclean
  · rcases hslot q with ⟨⟨ht, -⟩, hf⟩ | ⟨-, hz⟩ | ⟨hclean, -⟩
    · rw [hf]
      exact h.zombie q (by rwa [ht] at hq)
    · exact hz hq
    · simp [hclean] at hq

theorem SlotsInv.fork (h : SlotsInv c) (hn : SlotCall.run L p c .fork = .ok c') : SlotsInv c' := by
  simp only [SlotCall.run] at hn
  obtain ⟨⟨r, j⟩, hfork, hn⟩ := bind_eq_ok.mp hn
  cases hn
  rcases fork_slots hfork with ⟨hnone, rfl⟩ | ⟨np, hslot, hsame, hnp⟩
  · refine h.of_slots fun q => .inl ⟨⟨rfl, rfl⟩, ?_⟩
    simp only [forkFiles, hnone]
  · have hclean := h.clean np fun hl => hl (unusedSlot_spec hslot)
    refine h.of_slots fun q => ?_
    by_cases hq : q = np
    · subst hq
      rcases hnp with ⟨ht, hp⟩ | ht
      · refine .inr (.inr ⟨ht, hp, ?_⟩)
        simp only [forkFiles, hslot, ht, if_true]
        exact hclean.2.2
      · exact .inr (.inl ⟨by simp [Kernel.Live, ht], by simp [ht]⟩)
    · refine .inl ⟨hsame q hq, ?_⟩
      simp only [forkFiles, hslot]
      split
      · rfl
      · exact update_of_ne hq ..

theorem SlotsInv.wait (h : SlotsInv c) (hn : SlotCall.run L p c (.wait addr) = .ok c') : SlotsInv c' := by
  simp only [SlotCall.run] at hn
  obtain ⟨⟨r, j⟩, hwait, hn⟩ := bind_eq_ok.mp hn
  cases hn
  refine h.of_slots fun q => ?_
  rcases wait_effect hwait with ⟨pp, s, hz, rfl⟩ | ⟨s, rfl⟩ | ⟨-, rfl⟩
  · by_cases hq : q = pp
    · subst hq
      obtain ⟨ht, hp⟩ := c.kernel.cleared_freed q s
      exact .inr (.inr ⟨ht, hp, h.zombie q hz⟩)
    · exact .inl ⟨c.kernel.freed_of_ne s hq, rfl⟩
  · exact .inl ⟨⟨rfl, rfl⟩, rfl⟩
  · by_cases hq : q = p
    · subst hq
      exact .inr (.inl ⟨by simp [Kernel.Live, sleep], by simp [sleep]⟩)
    · exact .inl ⟨⟨update_of_ne hq .., rfl⟩, rfl⟩

theorem SlotsInv.exit (h : SlotsInv c) (hn : SlotCall.run L p c (.exit status) = .ok c') :
    SlotsInv c' := by
  simp only [SlotCall.run] at hn
  obtain ⟨j, hexit, rfl⟩ := bind_return_eq_ok.mp hn
  obtain ⟨hz, hothers⟩ := exit_slots hexit
  refine h.of_slots fun q => ?_
  by_cases hq : q = p
  · subst hq
    exact .inr (.inl ⟨by simp [Kernel.Live, hz], fun _ => update_self ..⟩)
  · obtain ⟨hprocs, htasks⟩ := hothers q hq
    have hfiles : update c.files p .none q = c.files q := update_of_ne hq ..
    rcases htasks with heq | ⟨-, hr⟩
    · by_cases hl : c.kernel.Live q
      · refine .inr (.inl ⟨by rwa [Kernel.Live, heq], fun hzq => ?_⟩)
        rw [heq] at hzq
        exact hfiles.trans (h.zombie q hzq)
      · exact .inl ⟨⟨heq, hprocs (by rw [(h.clean q hl).2.1])⟩, hfiles⟩
    · exact .inr (.inl ⟨by simp [Kernel.Live, hr], by simp [hr]⟩)

theorem pidSlot_spec (h : pidSlot pid k = some q) : (k.procs q).pid = pid := by
  have hfound := List.find?_some h
  simpa using hfound

theorem kill_live (h : c.kernel.Live q) : Kernel.Live { c.kernel with tasks := kill c.kernel.tasks q } q ∧
    ((kill c.kernel.tasks q q).state = .ZOMBIE → (c.kernel.tasks q).state = .ZOMBIE) := by
  simp only [Kernel.Live, kill, update_self]
  split
  · simp
  · exact ⟨h, id⟩

theorem SlotsInv.kill (h : SlotsInv c) (ha : Aimed c (.call p (.kill n)))
    (hn : SlotCall.run L p c (.kill n) = .ok c') : SlotsInv c' := by
  simp only [SlotCall.run, killPid] at hn
  cases hn
  split
  next q' hq' =>
    refine h.of_slots fun q => ?_
    by_cases hq : q = q'
    · subst hq
      obtain ⟨hl, hz⟩ := kill_live (ha q hq')
      exact .inr (.inl ⟨hl, fun hzq => h.zombie q (hz hzq)⟩)
    · exact .inl ⟨⟨update_of_ne hq .., rfl⟩, rfl⟩
  next => exact h.of_slots fun q => .inl ⟨⟨rfl, rfl⟩, rfl⟩

theorem SlotsInv.setTask (h : SlotsInv c) (hp : (tasks p).state ≠ .UNUSED ∧ (tasks p).state ≠ .ZOMBIE)
    (hsame : ∀ q, q ≠ p → tasks q = c.kernel.tasks q) :
    SlotsInv { c with kernel := { c.kernel with tasks := tasks } } := by
  refine h.of_slots fun q => ?_
  by_cases hq : q = p
  · subst hq
    exact .inr (.inl ⟨hp.1, fun hz => absurd hz hp.2⟩)
  · exact .inl ⟨⟨hsame q hq, rfl⟩, rfl⟩

theorem SlotsInv.step (h : SlotsInv c) (hs : Slots.Step L Aimed c c') : SlotsInv c' := by
  obtain ⟨e, he, ha, hn⟩ := hs
  cases e with
  | schedule p =>
    cases hn
    refine h.setTask (p := p) (by simp [awaken, setState]) fun q hq => ?_
    simp [awaken, setState, hq]
  | yield p =>
    cases hn
    refine h.setTask (p := p) (by simp [setState]) fun q hq => ?_
    simp [setState, hq]
  | call p op =>
    have hp : (c.kernel.tasks p).state = .RUNNING := he
    cases op with
    | fork => exact h.fork hn
    | wait addr => exact h.wait hn
    | exit status => exact h.exit (L := L) hn
    | kill n => exact h.kill (L := L) ha hn
    | exec file args =>
      simp only [SlotEvent.next, SlotCall.run] at hn
      obtain ⟨⟨r, j⟩, hexec, hn⟩ := bind_eq_ok.mp hn
      cases hn
      obtain ⟨s, proc, -, rfl⟩ := exec_effect hexec
      refine h.of_slots fun q => ?_
      by_cases hq : q = p
      · subst hq
        exact .inr (.inl ⟨by simp [Kernel.Live, Kernel.setProc, hp], by simp [Kernel.setProc, hp]⟩)
      · exact .inl ⟨⟨rfl, update_of_ne hq ..⟩, rfl⟩
    | sleep chan =>
      cases hn
      refine h.setTask (p := p) (by simp [sleep]) fun q hq => ?_
      simp [sleep, hq]
    | wakeup chan =>
      cases hn
      refine h.of_slots fun q => ?_
      by_cases hs : q ≠ p ∧ SleepsOn c.kernel.tasks q chan
      · have hw : wakeup c.kernel.tasks p chan q = { c.kernel.tasks q with state := .RUNNABLE } := if_pos hs
        exact .inr (.inl ⟨by simp [Kernel.Live, hw], by simp [hw]⟩)
      · exact .inl ⟨⟨if_neg hs, rfl⟩, rfl⟩
    | setFiles f =>
      cases hn
      refine h.of_slots fun q => ?_
      by_cases hq : q = p
      · subst hq
        exact .inr (.inl ⟨by simp [Kernel.Live, hp], by simp [hp]⟩)
      · exact .inl ⟨⟨rfl, rfl⟩, update_of_ne hq ..⟩

theorem Slots.Start.inv (h : Slots.Start L used c) : SlotsInv c := by
  obtain ⟨⟨s, -, hinit⟩, hfiles⟩ := h
  obtain ⟨slot, t, proc, -, -, hk⟩ := userinit_effect hinit
  have hother : ∀ q, q ≠ slot → c.Clean q := by
    intro q hq
    obtain ⟨ht, hp⟩ := (bootKernel s).taken_of_ne t .RUNNABLE proc hq
    refine ⟨?_, ?_, hfiles q ?_⟩
    · rw [hk]
      exact ht
    · rw [hk]
      exact hp
    · rw [hk]
      simpa using hq
  have hslot' : (c.kernel.tasks slot).state = .RUNNABLE := by simp [hk, Kernel.taken]
  refine ⟨fun q hq => hother q ?_, fun q hq => ?_⟩
  · rintro rfl
    simp [Kernel.Live, hslot'] at hq
  · by_cases hqs : q = slot
    · subst hqs
      simp [hslot'] at hq
    · simp [(hother q hqs).1] at hq

theorem slots_inv (h : Reach (Slots.Start L used) (Slots.Step L Aimed) c) : SlotsInv c := by
  induction h with
  | start h => exact h.inv
  | step _ hs ih => exact ih.step hs

theorem fork_killed (hn : SlotCall.run L p c .fork = .ok c') (hq' : c'.kernel.Live q) :
    (c'.kernel.tasks q).killed = (c.kernel.tasks q).killed := by
  simp only [SlotCall.run] at hn
  obtain ⟨⟨r, j⟩, hfork, hn⟩ := bind_eq_ok.mp hn
  cases hn
  rcases fork_slots hfork with ⟨-, rfl⟩ | ⟨np, hslot, hsame, hnp⟩
  · rfl
  · by_cases hqn : q = np
    · subst hqn
      rcases hnp with ⟨ht, -⟩ | ht
      · simp [Kernel.Live, ht] at hq'
      · simp [ht]
    · rw [(hsame q hqn).1]

-- As long as kill() is not given the pid of a free slot, free slots are clean: a new
-- process is not killed, and kill() changes no other process than the one it names.
theorem slots_clean (h : Reach (Slots.Start L used) (Slots.Step L Aimed) c) :
    (∀ q, ¬c.kernel.Live q → c.Clean q) ∧
    (∀ p c' q, SlotCall.run L p c .fork = .ok c' → ¬c.kernel.Live q → c'.kernel.Live q →
      (c'.kernel.tasks q).killed = false) ∧
    ∀ p n c', SlotCall.run L p c (.kill n) = .ok c' →
      (Aimed c (.call p (.kill n)) → ∀ q, ¬(SameSlot c.kernel c'.kernel q ∧ c'.files q = c.files q) →
        c.kernel.Live q ∧ (c.kernel.procs q).pid = wrap32 n) ∧
      ((∀ q, ¬c'.kernel.Live q → c'.Clean q) ↔ Aimed c (.call p (.kill n))) := by
  have hinv := slots_inv h
  refine ⟨hinv.clean, fun p c' q hn hq hq' => ?_, fun p n c' hn => ⟨fun ha q hne => ?_, ?_, fun ha => ?_⟩⟩
  · rw [fork_killed hn hq', (hinv.clean q hq).1]
  · simp only [SlotCall.run, killPid] at hn
    cases hn
    split at hne
    next q' hq' =>
      by_cases hqq : q = q'
      · subst hqq
        exact ⟨ha q hq', pidSlot_spec hq'⟩
      · exact absurd ⟨⟨update_of_ne hqq .., rfl⟩, rfl⟩ hne
    next => exact absurd ⟨⟨rfl, rfl⟩, rfl⟩ hne
  · -- a free slot that is hit keeps its state, but is marked
    intro hclean q hq hdead
    have hstate : (c.kernel.tasks q).state = .UNUSED := hdead
    simp only [SlotCall.run, killPid, hq] at hn
    cases hn
    have hdead' : ¬Kernel.Live { c.kernel with tasks := Xv6.kill c.kernel.tasks q } q := by
      simp [Kernel.Live, Xv6.kill, hstate]
    have htask := (hclean q hdead').1
    simp [Xv6.kill] at htask
  · exact (hinv.kill ha hn).clean

def sampleSlots (events : List SlotEvent) : Option Slots :=
  (sampleRun []).bind fun k =>
    runs (fun c e => e.enabled c) (fun c e => e.next sampleLayout c)
      { kernel := k, files := update (fun _ => Files.none) initSlot
          { ofile := fun _ => none, cwd := some 1 } } events

theorem sampleSlots_reach
    (hall : ∀ e ∈ events, ∀ c, allowed c e) (h : sampleSlots events = some c) :
    Reach (Slots.Start sampleLayout []) (Slots.Step sampleLayout allowed) c := by
  obtain ⟨k, hk, hruns⟩ := Option.bind_eq_some_iff.mp h
  have hinit : (sampleRun []).all (fun k => decide (k.initproc = some initSlot)) = true := by decide +kernel
  rw [hk, Option.all_some, decide_eq_true_eq] at hinit
  refine Reach.runs (fun e he s t hen hn => ⟨e, hen, hall e he s, hn⟩)
    (.start ⟨sampleRun_start hk, fun p hp => ?_⟩) hruns
  rw [hinit, ne_eq, Option.some.injEq] at hp
  simp [hp]

theorem slots_clean_forked : ∃ c : Slots, c.kernel.Live ⟨1, by decide⟩ ∧
    ∀ q, ¬c.kernel.Live q → c.Clean q := by
  obtain ⟨c, hc, hres⟩ : ∃ c, sampleSlots [.schedule initSlot, .call initSlot .fork] = some c ∧
      c.kernel.Live ⟨1, by decide⟩ := by
    apply exists_of_any
    decide +kernel
  refine ⟨c, hres, (slots_clean (sampleSlots_reach (fun e he _ => ?_) hc)).1⟩
  simp only [List.mem_cons, List.not_mem_nil, or_false] at he
  rcases he with rfl | rfl <;> trivial

-- init calls kill(0) and then fork(): the child is killed from the start.
theorem kill_zero_poisons : ∃ c c' : Slots,
    Reach (Slots.Start sampleLayout []) (Slots.Step sampleLayout fun _ _ => True) c ∧
    (¬c.kernel.Live ⟨1, by decide⟩ ∧ (c.kernel.tasks ⟨1, by decide⟩).killed = true) ∧
    SlotEvent.next sampleLayout c (.call initSlot .fork) = .ok c' ∧
    c'.kernel.Live ⟨1, by decide⟩ ∧ (c'.kernel.tasks ⟨1, by decide⟩).killed = true := by
  have hrun : (sampleSlots [.schedule initSlot, .call initSlot (.kill 0)]).any (fun c =>
      decide ((¬c.kernel.Live ⟨1, by decide⟩ ∧ (c.kernel.tasks ⟨1, by decide⟩).killed = true) ∧
        (SlotEvent.next sampleLayout c (.call initSlot .fork)).toOption.any (fun c' =>
          decide (c'.kernel.Live ⟨1, by decide⟩ ∧ (c'.kernel.tasks ⟨1, by decide⟩).killed = true)) =
          true)) = true := by
    decide +kernel
  obtain ⟨c, hc, hres⟩ := (Option.any_eq_true ..).mp hrun
  obtain ⟨hpoison, hfork⟩ := of_decide_eq_true hres
  obtain ⟨c', hc', hchild⟩ := (Option.any_eq_true ..).mp hfork
  refine ⟨c, c', sampleSlots_reach (fun _ _ _ => trivial) hc, hpoison, ?_, of_decide_eq_true hchild⟩
  cases hn : SlotEvent.next sampleLayout c (.call initSlot .fork) with
  | error err => simp [hn, Except.toOption] at hc'
  | ok c'' =>
    simp only [hn, Except.toOption, Option.some.injEq] at hc'
    rw [hc']

end Xv6
