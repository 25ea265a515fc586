import Xv6.User
import Xv6.System.Ordinary

namespace Xv6

open Lib

variable {L : Layout} {used : List Nat} {sized : Bool} {k k' : Kernel} {s t : Phys}
  {role role' : Nat → Role} {p q : Fin NPROC} {e : UserEvent} {c c' : Tracked}

section Record

theorem Tracked.next_eq_ok (h : c.next L e = .ok c') : e.next L c.kernel = .ok c'.kernel ∧
    (∀ q, c'.given q = true ↔ c.given q = true ∧ c.kernel.Live q ∨ e.grants c.kernel q = true) ∧
    ∀ q, c'.member q = true ↔ (c.member q = true ∧ c.kernel.Live q ∨ e.grants c.kernel q = true) ∨
      e.heir c c'.kernel q = true := by
  rw [Tracked.next] at h
  cases hn : e.next L c.kernel with
  | error err => simp [hn] at h
  | ok k =>
    simp only [hn, ok_bind] at h
    cases h
    simp

theorem grants_iff : e.grants k q = true ↔ e = .event (.call q .shmGet) ∧ granted k q = true := by
  fun_cases UserEvent.grants k q e
  · next p =>
    simp only [Bool.and_eq_true, decide_eq_true_eq, UserEvent.event.injEq, Event.call.injEq, and_true]
    exact ⟨fun h => ⟨h.1.symm, h.1 ▸ h.2⟩, fun h => ⟨h.1.symm, h.1 ▸ h.2⟩⟩
  · next hne => exact iff_of_false Bool.false_ne_true fun h => hne q h.1

theorem heir_iff : e.heir c k q = true ↔ ∃ p, e = .event (.call p .fork) ∧ c.member p = true ∧
    ¬c.kernel.Live q ∧ k.Live q := by
  fun_cases UserEvent.heir c k q e
  · next p => simp [and_assoc]
  · next hne => exact iff_of_false Bool.false_ne_true fun ⟨p, h⟩ => hne p h.1

theorem granted_iff : granted k p = true ↔ ∃ a k', shmGet p k = .ok (a, k') ∧ a ≠ 0 := by
  rw [granted]
  cases hg : shmGet p k with
  | error err => simp
  | ok res =>
    obtain ⟨a, k'⟩ := res
    simp

end Record

def sampleTracked (events : List UserEvent) : Option Tracked :=
  (sampleRun []).bind fun k =>
    runs (fun c e => e.enabled c.kernel) (Tracked.next sampleLayout)
      { kernel := k, given := fun _ => false, member := fun _ => false } events

theorem sampleTracked_reach
    (hall : ∀ e ∈ events, allowed e) (h : sampleTracked events = some c) :
    Reach (Tracked.Origin sampleLayout Bounded []) (Tracked.Step sampleLayout allowed) c := by
  obtain ⟨k, hk, hruns⟩ := Option.bind_eq_some_iff.mp h
  have hstart : Reach (Start sampleLayout []) (Step sampleLayout Bounded) k :=
    sampleRun_reach (by simp) hk
  exact Reach.runs (fun e he s t hen hn => ⟨e, hen, hall e he, hn⟩) (.start ⟨hstart, rfl, rfl⟩) hruns

section Get

-- Growth by sbrk(), page faults, forks and calls of shm_get().
def Growing : UserEvent → Prop
  | .event (.call _ (.sbrk n)) => 0 ≤ wrap32 n
  | .event (.call _ .fork) | .event (.call _ (.fault _)) | .event (.call _ .shmGet) => True
  | .event (.schedule _) | .event (.yield _) => True
  | _ => False

theorem KInv.forget (h : KInv L used true k role) : KInv L used false k role := by
  refine ⟨h.vm, fun p hp => ?_, h.frame, h.root_inj, h.frame_inj, h.unused, fun hf => by simp at hf,
    h.shared, h.kernel, h.whole⟩
  rw [limit_false]
  exact (h.space p hp).mono (limit_le fun _ => h.size rfl p)

-- Whoever has been given the address has the shared page there.
structure GInv (L : Layout) (used : List Nat) (c : Tracked) : Prop where
  inv : ∃ role, KInv L used false c.kernel role
  maps : ∀ q, c.given q = true → c.kernel.Live q → c.kernel.MapsShm q

theorem live_of_running (h : (k.tasks p).state = .RUNNING) : k.Live p := by
  simp [Kernel.Live, h]

theorem live_of_runnable (h : (k.tasks p).state = .RUNNABLE) : k.Live p := by
  simp [Kernel.Live, h]

theorem KInv.growing_spec (h : KInv L used false k role) (he : e.enabled k) (hg : Growing e)
    (hget : ∀ p, e ≠ .event (.call p .shmGet)) (hnext : e.next L k = .ok k') :
    (∃ role', KInv L used false k' role') ∧ Keeps k k' ∧ k'.shm = k.shm := by
  have hsteady : ∀ {j : Kernel} {ρ : Nat → Role}, KInv L used false j ρ → Steady k j →
      (∃ role', KInv L used false j role') ∧ Keeps k j ∧ j.shm = k.shm :=
    fun hinv hs => ⟨⟨_, hinv⟩, hs.keeps, hs.shm⟩
  rcases e with (⟨p, call⟩ | p | p) | ⟨p, va, n⟩ | ⟨p, va, bytes⟩
  · have hp : k.Live p := live_of_running he
    cases call with
    | sbrk n =>
      obtain ⟨j, hok, hinv, hs, -⟩ := h.sbrk_grow hp hg fun hf => by simp at hf
      simp only [UserEvent.next, Event.next, Call.run, hok, ok_bind] at hnext
      cases hnext
      exact hsteady hinv hs
    | fork =>
      have hfork := h.fork_spec hp
      simp only [UserEvent.next, Event.next, Call.run] at hnext
      generalize fork L p k = res at hfork hnext
      cases hfork with
      | stuck panic why => simp at hnext
      | failed inv same intact =>
        cases hnext
        exact hsteady inv same
      | done inv slot live untouched =>
        cases hnext
        exact ⟨⟨_, inv⟩, untouched.keeps slot, untouched.shm⟩
    | fault va =>
      simp only [UserEvent.next, Event.next, Call.run] at hnext
      rcases h.pageFault_spec hp va with ⟨pa, t, j, role', -, hok, hinv, hs, -⟩ | ⟨-, herr⟩ | ⟨-, err, -, herr⟩
      · cases hok.symm.trans hnext
        exact hsteady hinv hs
      · simp [herr] at hnext
      · simp [herr] at hnext
    | shmGet => exact absurd rfl (hget p)
    | exec _ _ | exit _ | wait _ | copyin _ _ | copyout _ _ => exact hg.elim
  · have hkin := kin_setState (show ProcState.RUNNING ≠ .UNUSED by simp) (live_of_runnable he)
    cases hnext
    exact hsteady (h.kin hkin) hkin.steady
  · have hkin := kin_setState (show ProcState.RUNNABLE ≠ .UNUSED by simp) (live_of_running he)
    cases hnext
    exact hsteady (h.kin hkin) hkin.steady
  · exact hg.elim
  · exact hg.elim

theorem Keeps.mapsShm (h : Keeps k k') (hshm : k.shm.allocated = true → k'.shm = k.shm) (hq : k.Live q)
    (hm : k.MapsShm q) : k'.MapsShm q := by
  obtain ⟨ha, hpte⟩ := hm
  refine ⟨by rw [hshm ha, ha], ?_⟩
  rw [hshm ha, h.root q hq, h.pte q SHM_VA hq shm_va_lt.2.2.1 (by simp [hpte]), hpte]

theorem GInv.keep (h : GInv L used c) (hnext : c.next L e = .ok c')
    (hinv : ∃ role, KInv L used false c'.kernel role) (hk : Keeps c.kernel c'.kernel)
    (hshm : c.kernel.shm.allocated = true → c'.kernel.shm = c.kernel.shm)
    (hget : ∀ q, e = .event (.call q .shmGet) → granted c.kernel q = true → c'.kernel.MapsShm q) :
    GInv L used c' := by
  obtain ⟨-, hgiven, -⟩ := Tracked.next_eq_ok hnext
  refine ⟨hinv, fun q hq _ => ?_⟩
  rcases (hgiven q).mp hq with ⟨hold, hl⟩ | hgr
  · exact hk.mapsShm hshm hl (h.maps q hold hl)
  · obtain ⟨heq, hret⟩ := grants_iff.mp hgr
    exact hget q heq hret

theorem GInv.step (h : GInv L used c) (hs : Tracked.Step L Growing c c') : GInv L used c' := by
  obtain ⟨e, he, hg, hnext⟩ := hs
  obtain ⟨hkernel, -⟩ := Tracked.next_eq_ok hnext
  obtain ⟨role, hinv⟩ := h.inv
  by_cases hget : ∃ p, e = .event (.call p .shmGet)
  · obtain ⟨p, rfl⟩ := hget
    have hgot := hinv.shmGet_spec (live_of_running he)
    simp only [UserEvent.next, Event.next, Call.run] at hkernel
    have hgranted := granted_iff (k := c.kernel) (p := p)
    generalize shmGet p c.kernel = res at hgot hkernel hgranted
    cases hgot with
    | stuck mapped page => simp at hkernel
    | refused inv tasks procs keeps pte shm why =>
      cases hkernel
      refine h.keep hnext ⟨_, inv⟩ keeps shm fun q heq hret => ?_
      cases heq
      simp [hgranted] at hret
    | done inv tasks procs keeps pte shm was maps =>
      cases hkernel
      refine h.keep hnext ⟨_, inv⟩ keeps shm fun q heq _ => ?_
      cases heq
      exact maps
  · have hne : ∀ p, e ≠ .event (.call p .shmGet) := fun p heq => hget ⟨p, heq⟩
    obtain ⟨hinv', hkeeps, hshm⟩ := hinv.growing_spec he hg hne hkernel
    exact h.keep hnext hinv' hkeeps (fun _ => hshm) fun q heq => absurd heq (hne q)

theorem growing_inv (h : Reach (Tracked.Origin L Bounded used) (Tracked.Step L Growing) c) :
    GInv L used c := by
  induction h with
  | @start c h =>
    obtain ⟨hreach, hgiven, -⟩ := h
    obtain ⟨⟨role, hinv⟩, -⟩ := bounded_inv hreach
    refine ⟨⟨role, hinv.forget⟩, fun q hq => ?_⟩
    simp [hgiven] at hq
  | step _ hs ih => exact ih.step hs

-- The call of shm_get() by p returns 0 or the address; the address, and with the
-- page table as it was, if p has been given it before.
def Tracked.GoodGet (c : Tracked) (p : Fin NPROC) : Prop :=
  ∃ a k', shmGet p c.kernel = .ok (a, k') ∧ (a = 0 ∨ a = SHM_VA) ∧
    (c.given p = true → a = SHM_VA ∧ ∀ va, va < MAXVA →
      leafPte k'.phys.mem 2 (k'.procs p).pagetable va =
        leafPte c.kernel.phys.mem 2 (c.kernel.procs p).pagetable va)

theorem goodGet_iff (h : Reach (Tracked.Origin L Bounded used) (Tracked.Step L Growing) c)
    (hp : (c.kernel.tasks p).state = .RUNNING) :
    c.GoodGet p ↔ leafPte c.kernel.phys.mem 2 (c.kernel.procs p).pagetable SHM_VA = none ∨
      c.kernel.shm.allocated = false ∧ c.kernel.phys.freelist = 0 := by
  obtain ⟨⟨role, hinv⟩, hmaps⟩ := growing_inv h
  have hlive := live_of_running hp
  have hgot := hinv.shmGet_spec hlive
  -- who has been given the address has something mapped there, and the page is allocated
  have hnot : leafPte c.kernel.phys.mem 2 (c.kernel.procs p).pagetable SHM_VA = none ∨
      c.kernel.shm.allocated = false ∧ c.kernel.phys.freelist = 0 → ¬c.given p = true := by
    intro hor hgiven
    obtain ⟨ha, hpte⟩ := hmaps p hgiven hlive
    rcases hor with hnone | ⟨hfalse, -⟩
    · simp [hnone] at hpte
    · simp [hfalse] at ha
  rw [Tracked.GoodGet]
  generalize shmGet p c.kernel = res at hgot
  cases hgot with
  | stuck mapped page =>
    refine iff_of_false ?_ ?_
    · rintro ⟨a, k', hres, -⟩
      simp at hres
    · rintro (hnone | ⟨ha, hfree⟩)
      · exact mapped hnone
      · rcases page with hp' | hp'
        · simp [ha] at hp'
        · exact hp' hfree
  | refused inv tasks procs keeps pte shm why =>
    exact iff_of_true ⟨_, _, rfl, .inl rfl, fun hgiven => absurd hgiven (hnot why)⟩ why
  | done inv tasks procs keeps pte shm was maps =>
    exact iff_of_true ⟨_, _, rfl, .inr rfl, fun hgiven => absurd hgiven (hnot (.inl was))⟩ (.inl was)

theorem goodGet_first : ∃ c : Tracked, (c.kernel.tasks initSlot).state = .RUNNING ∧ c.GoodGet initSlot := by
  obtain ⟨c, hc, hstate, hnone⟩ : ∃ c, sampleTracked [.event (.schedule initSlot)] = some c ∧
      (c.kernel.tasks initSlot).state = .RUNNING ∧ leafPte c.kernel.phys.mem 2 (c.kernel.procs initSlot).pagetable
      SHM_VA = none :=
    exists_of_any (by decide +kernel)
  refine ⟨c, hstate, (goodGet_iff (sampleTracked_reach (fun e he => ?_) hc) hstate).mpr (.inl hnone)⟩
  rw [List.mem_singleton.mp he]
  trivial

theorem shmGet_twice : ∃ c : Tracked,
    Reach (Tracked.Origin sampleLayout Bounded []) (Tracked.Step sampleLayout Growing) c ∧
    (c.kernel.tasks initSlot).state = .RUNNING ∧ c.given initSlot = true ∧
    shmGet initSlot c.kernel = .error .mappagesRemap ∧ ¬c.GoodGet initSlot := by
  obtain ⟨c, hc, hres⟩ : ∃ c, sampleTracked [.event (.schedule initSlot), .event (.call initSlot .shmGet)] = some c ∧
      (c.kernel.tasks initSlot).state = .RUNNING ∧ c.given initSlot = true ∧ failure (shmGet initSlot c.kernel) =
      some .mappagesRemap :=
    exists_of_any (by decide +kernel)
  simp only [failure_eq_some] at hres
  obtain ⟨hstate, hgiven, herr⟩ := hres
  refine ⟨c, sampleTracked_reach (fun e he => ?_) hc, hstate, hgiven, herr, ?_⟩
  · simp only [List.mem_cons, List.not_mem_nil, or_false] at he
    rcases he with rfl | rfl <;> trivial
  · rintro ⟨a, k', hok, -⟩
    simp [herr] at hok

end Get

section Sharing

-- Calls of shm_get(), forks, and loads and stores in the page that it returns.
def Sharing : UserEvent → Prop
  | .event (.call _ .fork) | .event (.call _ .shmGet) => True
  | .event (.schedule _) | .event (.yield _) => True
  | .load _ va _ | .store _ va _ => va / PGSIZE = SHM_VA / PGSIZE
  | _ => False

def Kernel.Barred (k : Kernel) (q : Fin NPROC) : Prop :=
  (leafPte k.phys.mem 2 (k.procs q).pagetable SHM_VA = none ∧ (k.procs q).sz ≤ SHM_VA) ∨
  ∃ pte, leafPte k.phys.mem 2 (k.procs q).pagetable SHM_VA = some pte ∧ ¬hasFlag pte PTE_R

theorem Kernel.Barred.translate (h : k.Barred q) (a : Access) (hva : va / PGSIZE = SHM_VA / PGSIZE) :
    k.translate q a va = none := by
  rw [Kernel.translate]
  split
  next hmax =>
    rw [leafPte_congr_page shm_va_lt.2.2.1 (lt_39_of_lt_MAXVA hmax) hva]
    rcases h with ⟨hnone, -⟩ | ⟨pte, hpte, hr⟩
    · rw [hnone]
    · simp [hpte, Access.permitted, hr]
  next => rfl

theorem Kernel.Barred.congr (h : k.Barred q) (hroot : (k'.procs q).pagetable = (k.procs q).pagetable)
    (hsz : (k'.procs q).sz = (k.procs q).sz) (hpte : leafPte k'.phys.mem 2 (k.procs q).pagetable SHM_VA =
      leafPte k.phys.mem 2 (k.procs q).pagetable SHM_VA) : k'.Barred q := by
  rwa [Kernel.Barred, hroot, hsz, hpte]

theorem Kernel.Barred.kin (h : k.Barred q) (hk : Kin k k') : k'.Barred q :=
  h.congr (hk.procs q).1 (hk.procs q).2.2 (by rw [hk.phys])

theorem Kernel.Barred.untouched (h : k.Barred q) (hu : Untouched p k k') (hq : q ≠ p) (hl : k.Live q) :
    k'.Barred q :=
  h.congr (by rw [hu.procs q hq]) (by rw [hu.procs q hq]) (hu.pte q SHM_VA hq hl)

theorem Kernel.MapsShm.barred (h : k.MapsShm q) : k.Barred q := by
  refine .inr ⟨_, h.2, ?_⟩
  rw [has_leaf (by decide) (by decide)]
  decide

structure SInv (L : Layout) (used : List Nat) (c : Tracked) : Prop where
  inv : ∃ role, KInv L used true c.kernel role
  barred : ∀ q, c.member q = true → c.kernel.Live q → c.kernel.Barred q

theorem SInv.keep (h : SInv L used c) (hnext : c.next L e = .ok c')
    (hinv : ∃ role, KInv L used true c'.kernel role)
    (hbarred : ∀ q, c.kernel.Live q → c.kernel.Barred q → c'.kernel.Barred q)
    (hget : ∀ q, e = .event (.call q .shmGet) → granted c.kernel q = true → c'.kernel.Barred q)
    (hfork : ∀ p q, e = .event (.call p .fork) → c.member p = true → ¬c.kernel.Live q → c'.kernel.Live q →
      c'.kernel.Barred q) : SInv L used c' := by
  obtain ⟨-, -, hmember⟩ := Tracked.next_eq_ok hnext
  refine ⟨hinv, fun q hq _ => ?_⟩
  rcases (hmember q).mp hq with (⟨hold, hl⟩ | hgr) | hheir
  · exact hbarred q hl (h.barred q hold hl)
  · obtain ⟨heq, hret⟩ := grants_iff.mp hgr
    exact hget q heq hret
  · obtain ⟨p, heq, hm, hdead, hl⟩ := heir_iff.mp hheir
    exact hfork p q heq hm hdead hl

theorem SInv.kin (h : SInv L used c) (hnext : c.next L e = .ok c') (hk : Kin c.kernel c'.kernel)
    (hget : ∀ q, e ≠ .event (.call q .shmGet)) (hfork : ∀ q, e ≠ .event (.call q .fork)) : SInv L used c' := by
  obtain ⟨role, hinv⟩ := h.inv
  exact h.keep hnext ⟨role, hinv.kin hk⟩ (fun q _ hb => hb.kin hk) (fun q heq => absurd heq (hget q))
    fun p _ heq => absurd heq (hfork p)

section

variable (h : SInv L used c) (hp : (c.kernel.tasks p).state = .RUNNING)
include h hp

theorem SInv.get (hnext : c.next L (.event (.call p .shmGet)) = .ok c') : SInv L used c' := by
  obtain ⟨hkernel, -⟩ := Tracked.next_eq_ok hnext
  obtain ⟨role, hinv⟩ := h.inv
  have hgot := hinv.shmGet_spec (live_of_running hp)
  simp only [UserEvent.next, Event.next, Call.run] at hkernel
  have hgranted := granted_iff (k := c.kernel) (p := p)
  generalize shmGet p c.kernel = res at hgot hkernel hgranted
  cases hgot with
  | stuck mapped page => simp at hkernel
  | refused inv tasks procs keeps pte shm why =>
    cases hkernel
    refine h.keep hnext ⟨_, inv⟩ (fun q hl hb => ?_) (fun q heq hret => ?_) (by simp)
    · exact hb.congr (by rw [procs]) (by rw [procs]) (pte q SHM_VA hl shm_va_lt.2.2.1)
    · cases heq
      simp [hgranted] at hret
  | done inv tasks procs keeps pte shm was maps =>
    cases hkernel
    refine h.keep hnext ⟨_, inv⟩ (fun q hl hb => ?_) (fun q heq _ => ?_) (by simp)
    · by_cases hqp : q = p
      · exact hqp ▸ maps.barred
      · exact hb.congr (by rw [procs]) (by rw [procs]) (pte q SHM_VA hl hqp)
    · cases heq
      exact maps.barred

theorem SInv.fork (hnext : c.next L (.event (.call p .fork)) = .ok c') : SInv L used c' := by
  obtain ⟨hkernel, -⟩ := Tracked.next_eq_ok hnext
  obtain ⟨role, hinv⟩ := h.inv
  have hlive := live_of_running hp
  have hfork := hinv.fork_spec hlive
  simp only [UserEvent.next, Event.next, Call.run] at hkernel
  generalize Xv6.fork L p c.kernel = res at hfork hkernel
  cases hfork with
  | stuck panic why => simp at hkernel
  | failed inv same intact =>
    cases hkernel
    refine h.keep hnext ⟨_, inv⟩ (fun q hl hb => ?_) (by simp) fun _ q _ _ hdead hl => ?_
    · exact hb.congr (by rw [intact.procs q hl]) (by rw [intact.procs q hl]) (intact.pte q SHM_VA hl)
    · exact absurd ((same.live q).mp hl) hdead
  | @done np pid j role' inv slot live untouched parent size copied holes own =>
    cases hkernel
    refine h.keep hnext ⟨_, inv⟩ (fun q hl hb => ?_) (by simp) fun p' q heq hm hdead hl => ?_
    · exact hb.untouched untouched (fun heq => slot (heq ▸ hl)) hl
    · cases heq
      have hqnp : q = np := by
        by_contra hne
        exact hdead ((untouched.live hne).mp hl)
      subst hqnp
      have hal : PGROUNDDOWN SHM_VA = SHM_VA := by decide
      rcases h.barred p hm hlive with ⟨hnone, hsz⟩ | ⟨pte, hpte, hr⟩
      · exact .inl ⟨holes SHM_VA shm_va_lt.1 (.inl hnone), size.trans_le hsz⟩
      · by_cases hsz : SHM_VA < (c.kernel.procs p).sz
        · obtain ⟨pa, hcopy, -⟩ := copied SHM_VA pte shm_va_lt.1 (by rwa [hal]) hpte
          refine .inr ⟨_, hcopy, ?_⟩
          rwa [has_leaf (by decide) (by decide), has_flags (by decide)]
        · refine .inl ⟨holes SHM_VA shm_va_lt.1 (.inr (by rw [hal]; omega)), ?_⟩
          rw [size]
          omega

theorem SInv.fault (hva : va / PGSIZE = SHM_VA / PGSIZE) (hnext : c.next L e = .ok c')
    (hget : ∀ q, e ≠ .event (.call q .shmGet)) (hfork : ∀ q, e ≠ .event (.call q .fork))
    (hfault : pageFault L p va c.kernel = .ok c'.kernel) : SInv L used c' := by
  obtain ⟨role, hinv⟩ := h.inv
  have hlive := live_of_running hp
  rcases hinv.pageFault_spec hlive va with ⟨pa, t, j, role', hvm, hok, hinv', hs, hu, hkin⟩ | ⟨-, herr⟩ |
    ⟨-, err, -, herr⟩
  · cases hok.symm.trans hfault
    refine h.keep hnext ⟨role', hinv'⟩ (fun q hl hb => ?_) (fun q heq => absurd heq (hget q))
      fun p _ heq => absurd heq (hfork p)
    by_cases hq : q = p
    · subst hq
      rcases hb with ⟨hnone, hsz⟩ | ⟨pte, hpte, hr⟩
      · have hbelow : (c.kernel.procs q).sz ≤ va := by
          simp only [SHM_VA, PGSIZE_eq] at *
          omega
        rw [vmfault, Kernel.self, if_pos hbelow, Except.ok.injEq, Prod.mk.injEq] at hvm
        rw [← hvm.2] at hkin
        exact Kernel.Barred.kin (.inl ⟨hnone, hsz⟩) hkin
      · refine .inr ⟨pte, ?_, hr⟩
        rw [hs.keeps.root q hl, hs.keeps.pte q SHM_VA hl shm_va_lt.2.2.1 (by simp [hpte]), hpte]
    · exact (hb.untouched hu hq hl).kin hkin
  · simp [hfault] at herr
  · simp [hfault] at herr

end

theorem KInv.store_spec (h : KInv L used true k role) (hp : k.Live p)
    (htr : k.translate p .store va = some pa) (bytes : List Byte) :
    KInv L used true { k with phys := k.phys.writeBytes pa (va % PGSIZE) bytes } role ∧
      Untouched p k { k with phys := k.phys.writeBytes pa (va % PGSIZE) bytes } := by
  rw [Kernel.translate] at htr
  split at htr
  next hmax =>
    cases hpte : leafPte k.phys.mem 2 (k.procs p).pagetable va with
    | none => simp [hpte] at htr
    | some pte =>
      simp only [hpte] at htr
      split at htr
      next hperm =>
        rw [Option.some.injEq] at htr
        have hsp := h.space p hp
        have hguard := hsp.guarded h.vm va pte (lt_39_of_lt_MAXVA hmax) hpte hperm.1
        have hg := h.vm.writeUser hsp.top hpte hguard
          (fills_writeBytes k.phys (PTE2PA pte) (va % PGSIZE) bytes) (k.procs p).sz
        rw [htr] at hg
        have hgrows := h.grows hp (h.size_le_MAXVA p) hg
        exact ⟨hgrows.1, hgrows.2.2⟩
      next => simp at htr
  next => simp at htr

theorem SInv.step (h : SInv L used c) (hs : Tracked.Step L Sharing c c') : SInv L used c' := by
  obtain ⟨e, he, hshare, hnext⟩ := hs
  obtain ⟨hkernel, -⟩ := Tracked.next_eq_ok hnext
  obtain ⟨role, hinv⟩ := h.inv
  rcases e with (⟨p, call⟩ | p | p) | ⟨p, va, n⟩ | ⟨p, va, bytes⟩
  · cases call with
    | fork => exact h.fork he hnext
    | shmGet => exact h.get he hnext
    | sbrk _ | fault _ | exec _ _ | exit _ | wait _ | copyin _ _ | copyout _ _ => exact hshare.elim
  · have hkin := kin_setState (show ProcState.RUNNING ≠ .UNUSED by simp) (live_of_runnable he)
    exact h.kin hnext (Except.ok.inj hkernel ▸ hkin) (by simp) (by simp)
  · have hkin := kin_setState (show ProcState.RUNNABLE ≠ .UNUSED by simp) (live_of_running he)
    exact h.kin hnext (Except.ok.inj hkernel ▸ hkin) (by simp) (by simp)
  · simp only [UserEvent.next] at hkernel
    split at hkernel
    next pa htr => exact h.kin hnext (Except.ok.inj hkernel ▸ .refl _) (by simp) (by simp)
    next htr => exact h.fault he.1 hshare hnext (by simp) (by simp) hkernel
  · simp only [UserEvent.next] at hkernel
    split at hkernel
    next pa htr =>
      -- a member would have faulted
      obtain ⟨hinv', hu⟩ := hinv.store_spec (live_of_running he.1) htr bytes
      rw [Except.ok.inj hkernel] at hinv' hu
      refine h.keep hnext ⟨role, hinv'⟩ (fun q hl hb => ?_) (by simp) (by simp)
      by_cases hq : q = p
      · subst hq
        simp [hb.translate .store hshare] at htr
      · exact hb.untouched hu hq hl
    next htr => exact h.fault he.1 hshare hnext (by simp) (by simp) hkernel

theorem sharing_inv (h : Reach (Tracked.Origin L Bounded used) (Tracked.Step L Sharing) c) :
    SInv L used c := by
  induction h with
  | @start c h =>
    obtain ⟨hreach, -, hmember⟩ := h
    refine ⟨(bounded_inv hreach).1, fun q hq => ?_⟩
    simp [hmember] at hq
  | step _ hs ih => exact ih.step hs

def Kernel.Alive (k : Kernel) (q : Fin NPROC) : Prop := k.Live q ∧ (k.tasks q).state ≠ .ZOMBIE

instance (k : Kernel) (q : Fin NPROC) : Decidable (k.Alive q) := inferInstanceAs (Decidable (_ ∧ _))

-- All members translate the address to one page, and what one of them stores there
-- the others load.
def Tracked.Shares (L : Layout) (c : Tracked) : Prop :=
  (∃ pa, ∀ q, c.member q = true → c.kernel.Alive q → ∀ a, c.kernel.translate q a SHM_VA = some pa) ∧
  ∀ q q' bytes, c.member q = true → c.kernel.Alive q → c.member q' = true → c.kernel.Alive q' →
    bytes.length ≤ PGSIZE → ∃ k', UserEvent.next L c.kernel (.store q SHM_VA bytes) = .ok k' ∧
      k'.load q' SHM_VA bytes.length = some bytes

theorem shares_iff (h : Reach (Tracked.Origin L Bounded used) (Tracked.Step L Sharing) c) :
    c.Shares L ↔ ∀ q, c.member q = true → ¬c.kernel.Alive q := by
  constructor
  · rintro ⟨⟨pa, hpa⟩, -⟩ q hq halive
    have hbarred := (sharing_inv h).barred q hq halive.1
    have htr := hpa q hq halive .load
    rw [hbarred.translate .load rfl] at htr
    simp at htr
  · intro hnone
    exact ⟨⟨0, fun q hq halive => absurd halive (hnone q hq)⟩,
      fun q q' bytes hq halive => absurd halive (hnone q hq)⟩

-- As in user/shmtest.c: init gets the segment and forks.
def sampleFork : List UserEvent :=
  [.event (.schedule initSlot), .event (.call initSlot .shmGet), .event (.call initSlot .fork)]

theorem sampleFork_sharing : ∀ e ∈ sampleFork, Sharing e := by
  intro e he
  simp only [sampleFork, List.mem_cons, List.not_mem_nil, or_false] at he
  rcases he with rfl | rfl | rfl <;> trivial

theorem shares_iff_forked : ∃ c : Tracked, c.member initSlot = true ∧ c.kernel.Alive initSlot ∧
    ¬c.Shares sampleLayout := by
  obtain ⟨c, hc, hmember, halive⟩ : ∃ c, sampleTracked sampleFork = some c ∧ c.member initSlot = true ∧
      c.kernel.Alive initSlot :=
    exists_of_any (by decide +kernel)
  refine ⟨c, hmember, halive, fun hshares => ?_⟩
  exact (shares_iff (sampleTracked_reach sampleFork_sharing hc)).mp hshares initSlot hmember halive

-- The parent has the page with PTE_W and without PTE_R; the child does not have it.
theorem fork_does_not_share : ∃ c : Tracked,
    Reach (Tracked.Origin sampleLayout Bounded []) (Tracked.Step sampleLayout Sharing) c ∧
    (c.member initSlot = true ∧ c.kernel.Alive initSlot ∧ c.kernel.MapsShm initSlot ∧
      c.kernel.translate initSlot .load SHM_VA = none) ∧
    (c.member ⟨1, by decide⟩ = true ∧ c.kernel.Alive ⟨1, by decide⟩ ∧
      leafPte c.kernel.phys.mem 2 (c.kernel.procs ⟨1, by decide⟩).pagetable SHM_VA = none) ∧
    ¬c.Shares sampleLayout := by
  obtain ⟨c, hc, hparent, hchild⟩ : ∃ c, sampleTracked sampleFork = some c ∧
      (c.member initSlot = true ∧ c.kernel.Alive initSlot ∧ c.kernel.MapsShm initSlot ∧
      c.kernel.translate initSlot .load SHM_VA = none) ∧ (c.member ⟨1, by decide⟩ = true ∧
      c.kernel.Alive ⟨1, by decide⟩ ∧ leafPte c.kernel.phys.mem 2 (c.kernel.procs ⟨1, by decide⟩).pagetable SHM_VA =
      none) := by
    apply exists_of_any
    decide +kernel
  refine ⟨c, sampleTracked_reach sampleFork_sharing hc, hparent, hchild, ?_⟩
  rintro ⟨⟨pa, hpa⟩, -⟩
  have htr := hpa initSlot hparent.1 hparent.2.1 .load
  simp [hparent.2.2.2] at htr

end Sharing

end Xv6
