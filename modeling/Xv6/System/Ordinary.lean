import Xv6.System
import Xv6.Exec.Image
import Xv6.Kalloc.Boot

namespace Xv6

open Lib Function

variable {L : Layout} {used : List Nat} {sized : Bool} {k k' : Kernel} {s t : Phys}
  {role role' : Nat → Role} {p : Fin NPROC} {e : Event}

section Boot

def bootRole (used : List Nat) (x : Nat) : Role := if x ∈ used then .other else .free

theorem bootRole_cons (a : Nat) (used : List Nat) :
    bootRole (a :: used) = update (bootRole used) a .other := by
  funext x
  by_cases hx : x = a
  · simp [bootRole, hx]
  · simp [bootRole, hx]

theorem wired_bootRole (m : Mem) (used : List Nat) : Wired m (bootRole used) := by
  have hlevel : ∀ b, (bootRole used b).level = none := by
    intro b
    rw [bootRole]
    split <;> rfl
  refine ⟨fun b i l hl => ?_, fun a l b i ha => ?_, fun a b i ha => ?_⟩
  · simp [hlevel b] at hl
  · simp only [bootRole] at ha
    split at ha <;> simp at ha
  · simp only [bootRole] at ha
    split at ha <;> simp at ha

theorem Booted.vm (h : Booted L s used) : Vm L s (bootRole used) := by
  induction h with
  | @kinit mem s hk =>
    obtain ⟨s', free, hs', hinv⟩ := kinit_spec L mem
    cases hk.symm.trans hs'
    refine ⟨⟨free, ?_⟩, fun a hne => ?_, wired_bootRole _ _⟩
    · simpa [bootRole] using hinv
    · simp [bootRole] at hne
  | @kalloc s t used a _ hk ha ih =>
    obtain ⟨hfree, hpage, hvm, -⟩ := ih.kalloc_fill hk ha (v := t) ⟨rfl, rfl, fun _ _ => rfl⟩
    have hheld : update (bootRole used) a Role.held a = .held := update_self ..
    have hvm' := hvm.relabel (a := a) (ρ := .other) (by rw [hheld]; rfl) rfl (by rw [hheld]; simp)
      (by simp) hpage
    rw [update_idem] at hvm'
    rwa [bootRole_cons]
  | @store s used a _ ha i w ih =>
    have hother : bootRole used a = .other := if_pos ha
    refine ih.write rfl rfl fun x hx => ?_
    have hne : x ≠ a := by
      rintro rfl
      simp [hother, Role.level] at hx
    simp [Phys.store, hne]

theorem Booted.inv (h : Booted L s used) (sized : Bool) : KInv L used sized (bootKernel s) (bootRole used) := by
  have hdead : ∀ p, ¬(bootKernel s).Live p := by
    intro p hp
    simp [Kernel.Live, bootKernel] at hp
  have hrole : ∀ x, bootRole used x = .other ∨ bootRole used x = .free := by
    intro x
    rw [bootRole]
    split
    · exact .inl rfl
    · exact .inr rfl
  refine ⟨h.vm, fun p hp => absurd hp (hdead p), fun p hp => absurd hp (hdead p),
    fun p _ hp => absurd hp (hdead p), fun p _ hp => absurd hp (hdead p), fun _ _ => ⟨rfl, rfl, rfl⟩,
    fun _ _ => Nat.zero_le _, fun a => ?_, fun a => ?_, fun a ha => ?_⟩
  · rcases hrole a with ha | ha <;> simp [ha, bootKernel]
  · simp [bootRole]
  · rcases hrole a with ha' | ha'
    · simp [ha']
    · simp [ha', Role.pinned] at ha

theorem Start.inv (h : Start L used k) :
    (∃ role, KInv L used sized k role) ∧ k.shm.allocated = false := by
  obtain ⟨s, hs, hinit⟩ := h
  have halloc := (hs.inv sized).allocproc_spec
  rw [userinit] at hinit
  generalize allocproc L (bootKernel s) = res at halloc hinit
  cases halloc with
  | full inv same intact => simp at hinit
  | @done p j role' inv slot live untouched size empty =>
    cases hinit
    refine ⟨⟨role', inv.kin ⟨rfl, rfl, fun q => ?_, fun _ => ⟨rfl, rfl, rfl⟩⟩⟩, ?_⟩
    · by_cases hq : q = p
      · subst hq
        exact iff_of_true (by simp [Kernel.Live, Kernel.setTask]) live
      · simp [Kernel.Live, Kernel.setTask, hq]
    · exact congrArg Shm.allocated untouched.shm

def sampleRun (events : List Event) : Option Kernel :=
  match userinit sampleLayout (bootKernel (bootPhys sampleLayout (fun _ _ => 0#64) PHYSTOP)) with
  | .ok k => runs (fun k e => e.enabled k) (fun k e => e.next sampleLayout k) k events
  | .error _ => none

theorem sampleRun_start (h : sampleRun [] = some k) : Start sampleLayout [] k := by
  rw [sampleRun] at h
  split at h
  next k₀ hinit =>
    simp only [runs, Option.some.injEq] at h
    exact ⟨_, .kinit (kinit_eq sampleLayout _), h ▸ hinit⟩
  next => simp at h

theorem sampleRun_reach
    (hall : ∀ e ∈ events, ∀ k, allowed k e) (h : sampleRun events = some k) :
    Reach (Start sampleLayout []) (Step sampleLayout allowed) k := by
  rw [sampleRun] at h
  split at h
  next k₀ hinit =>
    have hstart : Start sampleLayout [] k₀ := ⟨_, .kinit (kinit_eq sampleLayout _), hinit⟩
    exact Reach.runs (fun e he s t hen hn => ⟨e, hen, hall e he s, hn⟩) (.start hstart) h
  next => simp at h

end Boot

-- Growth by sbrk() stays below the trapframe, and no page table that has the shared
-- page in it is torn down or cut off there.
def Tame (k : Kernel) : Event → Prop
  | .call p (.sbrk n) =>
    (0 ≤ wrap32 n → (k.procs p).sz + (wrap32 n).toNat ≤ TRAPFRAME) ∧
    (k.MapsShm p → ¬Shrunk k p (wrap32 n) SHM_VA)
  | .call p (.exec _ _) => ¬k.MapsShm p
  | .call p (.wait _) => ∀ pp, zombieChild k p = some pp → ¬k.MapsShm pp
  | _ => True

theorem kin_setState (hst : st ≠ .UNUSED) (hp : k.Live p) :
    Kin k { k with tasks := setState k.tasks p st } := by
  refine ⟨rfl, rfl, fun q => ?_, fun _ => ⟨rfl, rfl, rfl⟩⟩
  by_cases hq : q = p
  · subst hq
    exact iff_of_true (by simp [Kernel.Live, setState, hst]) hp
  · simp [Kernel.Live, setState, hq]

inductive Ends (L : Layout) (used : List Nat) (k : Kernel) (e : Event) : Except Panic Kernel → Prop
  | done {k' : Kernel} {role' : Nat → Role} (inv : KInv L used true k' role')
      (shm : k'.shm = k.shm ∨ ∃ p, e = .call p .shmGet) : Ends L used k e (.ok k')
  | exiting : Ends L used k e (.error .initExiting)
  | remap (p : Fin NPROC) (call : e = .call p .shmGet) : Ends L used k e (.error .mappagesRemap)

section

variable (h : KInv L used true k role)
include h

theorem KInv.size_le_MAXVA (p : Fin NPROC) : (k.procs p).sz ≤ MAXVA := by
  have hsz := h.size rfl p
  simp only [TRAPFRAME_eq, MAXVA_eq] at *
  omega

theorem KInv.sbrk_spec (hp : k.Live p) (n : Int) (ht : Tame k (.call p (.sbrk n))) :
    Ends L used k e ((Call.sbrk n).run L p k) := by
  obtain ⟨hgrow, hshrink⟩ := ht
  simp only [Call.run]
  by_cases hn : wrap32 n < 0
  · obtain ⟨r, k', role', hok, hinv, hu, -⟩ := h.sbrk_shrink hp hn hshrink
    rw [hok, ok_bind]
    exact .done hinv (.inl hu.shm)
  · obtain ⟨k', hok, hinv, hsteady, -⟩ := h.sbrk_grow hp (by omega) fun _ => hgrow (by omega)
    rw [hok, ok_bind]
    exact .done hinv (.inl hsteady.shm)

theorem KInv.exit_spec (hp : k.Live p) (status : Int) : Ends L used k e (exit p status k) := by
  rcases exit_cases p status k with ⟨k', hok⟩ | ⟨-, hexit⟩
  · have hkin := kin_exit hp status hok
    rw [hok]
    exact .done (h.kin hkin) (.inl hkin.shm)
  · rw [hexit]
    exact .exiting

theorem KInv.call_spec (hp : (k.tasks p).state = .RUNNING) (c : Call) (ht : Tame k (.call p c)) :
    Ends L used k (.call p c) (c.run L p k) := by
  have hlive : k.Live p := by simp [Kernel.Live, hp]
  have hmax := h.size_le_MAXVA p
  cases c with
  | sbrk n => exact h.sbrk_spec hlive n ht
  | fork =>
    have hfork := h.fork_spec hlive
    simp only [Call.run]
    generalize fork L p k = res at hfork
    cases hfork with
    | stuck panic why =>
      have hsz := h.size rfl p
      omega
    | failed inv same intact => exact .done inv (.inl same.shm)
    | done inv slot live untouched => exact .done inv (.inl untouched.shm)
  | exec file args =>
    obtain ⟨r, k', role', hok, hinv, hu, -⟩ := h.exec_spec hlive ht file args
    simp only [Call.run, hok, ok_bind, pure_eq_ok]
    exact .done hinv (.inl hu.shm)
  | exit status => exact h.exit_spec hlive status
  | wait addr =>
    obtain ⟨r, k', role', hok, hinv, hshm⟩ := h.wait_spec addr hp ht
    simp only [Call.run, hok, ok_bind, pure_eq_ok]
    exact .done hinv (.inl hshm)
  | shmGet =>
    have hget := h.shmGet_spec hlive
    simp only [Call.run]
    generalize shmGet p k = res at hget
    cases hget with
    | stuck mapped page => exact .remap p rfl
    | refused inv => exact .done inv (.inr ⟨p, rfl⟩)
    | done inv => exact .done inv (.inr ⟨p, rfl⟩)
  | fault va =>
    simp only [Call.run]
    rcases h.pageFault_spec hlive va with ⟨pa, t, k', role', -, hok, hinv, hsteady, -⟩ | ⟨-, hexit⟩ | ⟨hsz, -⟩
    · rw [hok]
      exact .done hinv (.inl hsteady.shm)
    · rw [hexit]
      exact .exiting
    · omega
  | copyin srcva len =>
    obtain ⟨r, dst, t, role', hok, hinv, hsteady, -⟩ := h.copyin_spec hlive hmax srcva len
    simp only [Call.run, hok, ok_bind, pure_eq_ok]
    exact .done hinv (.inl hsteady.shm)
  | copyout dstva src =>
    obtain ⟨r, t, role', hok, hinv, hsteady, -⟩ := h.copyout_spec hlive hmax dstva src
    simp only [Call.run, hok, ok_bind, pure_eq_ok]
    exact .done hinv (.inl hsteady.shm)

theorem KInv.next_spec (he : e.enabled k) (ht : Tame k e) : Ends L used k e (e.next L k) := by
  cases e with
  | call p c => exact h.call_spec he c ht
  | schedule p =>
    have hlive : k.Live p := by
      have hst : (k.tasks p).state = .RUNNABLE := he
      simp [Kernel.Live, hst]
    exact .done (h.kin (kin_setState (by simp) hlive)) (.inl rfl)
  | yield p =>
    have hlive : k.Live p := by
      have hst : (k.tasks p).state = .RUNNING := he
      simp [Kernel.Live, hst]
    exact .done (h.kin (kin_setState (by simp) hlive)) (.inl rfl)

end

theorem tame_inv (h : Reach (Start L used) (Step L Tame) k) : ∃ role, KInv L used true k role := by
  induction h with
  | start h => exact h.inv.1
  | @step k k' _ hs ih =>
    obtain ⟨role, hinv⟩ := ih
    obtain ⟨e, he, ht, hnext⟩ := hs
    have hends := hinv.next_spec he ht
    rw [hnext] at hends
    cases hends with
    | done inv shm => exact ⟨_, inv⟩

-- Growth by sbrk() stays below the trapframe, and nobody calls shm_get().
def Bounded (k : Kernel) : Event → Prop
  | .call p (.sbrk n) => 0 ≤ wrap32 n → (k.procs p).sz + (wrap32 n).toNat ≤ TRAPFRAME
  | .call _ .shmGet => False
  | _ => True

theorem Bounded.tame (h : Bounded k e) (hshm : k.shm.allocated = false) : Tame k e := by
  have hnone : ∀ p, ¬k.MapsShm p := by
    rintro p ⟨ha, -⟩
    simp [hshm] at ha
  cases e with
  | schedule p => trivial
  | yield p => trivial
  | call p c =>
    cases c with
    | sbrk n => exact ⟨h, fun hmaps => absurd hmaps (hnone p)⟩
    | exec file args => exact hnone p
    | wait addr => exact fun pp _ => hnone pp
    | shmGet => exact h.elim
    | fork | exit _ | fault _ | copyin _ _ | copyout _ _ => trivial

theorem bounded_inv (h : Reach (Start L used) (Step L Bounded) k) :
    (∃ role, KInv L used true k role) ∧ k.shm.allocated = false := by
  induction h with
  | start h => exact h.inv
  | @step k k' _ hs ih =>
    obtain ⟨⟨role, hinv⟩, hshm⟩ := ih
    obtain ⟨e, he, hb, hnext⟩ := hs
    have hends := hinv.next_spec he (hb.tame hshm)
    rw [hnext] at hends
    cases hends with
    | done inv shm =>
      refine ⟨⟨_, inv⟩, ?_⟩
      rcases shm with heq | ⟨p, rfl⟩
      · rw [heq, hshm]
      · exact hb.elim

def Kernel.FreePage (k : Kernel) (a : Nat) : Prop :=
  ∃ free, Chain k.phys.next 0 k.phys.freelist free ∧ a ∈ free

theorem Vm.freePage_iff (h : Vm L k.phys role) (a : Nat) :
    k.FreePage a ↔ IsPage L a ∧ role a = .free := by
  obtain ⟨free, halloc⟩ := h.alloc
  constructor
  · rintro ⟨free', hchain, ha⟩
    rw [hchain.unique halloc.chain] at ha
    have hp := halloc.page a ha
    refine ⟨hp, ?_⟩
    by_contra hne
    have hrefs := (halloc.mem_free a hp).mp ha
    rw [if_neg hne] at hrefs
    omega
  · rintro ⟨hp, hfree⟩
    refine ⟨free, halloc.chain, (halloc.mem_free a hp).mpr ?_⟩
    rw [if_pos hfree]

theorem KInv.freePage_iff (h : KInv L used sized k role) (a : Nat) :
    k.FreePage a ↔ IsPage L a ∧ role a = .free := h.vm.freePage_iff a

def initSlot : Fin NPROC := ⟨0, NPROC_pos⟩

theorem exists_forked : ∃ k, Reach (Start sampleLayout []) (Step sampleLayout Bounded) k ∧ k.Live ⟨1, by decide⟩ := by
  obtain ⟨k, hk, hres⟩ : ∃ k, sampleRun [.schedule initSlot, .call initSlot .fork] = some k ∧ k.Live ⟨1, by decide⟩ := by
    apply exists_of_any
    decide +kernel
  refine ⟨k, sampleRun_reach (fun e he _ => ?_) hk, hres⟩
  simp only [List.mem_cons, List.not_mem_nil, or_false] at he
  rcases he with rfl | rfl <;> trivial

end Xv6
