import Xv6.Slots.Clean
import Xv6.System.Spared

namespace Xv6

open Lib Function

variable {L : Layout} {used : List Nat} {k k' : Kernel} {p q : Fin NPROC}

theorem freed_live (s : Phys) (hq : (k.freed p s).Live q) :
    k.Live q ∧ (k.freed p s).procs q = k.procs q := by
  have hne : q ≠ p := by
    rintro rfl
    exact hq (by rw [(k.cleared_freed q s).1])
  obtain ⟨ht, hp⟩ := k.freed_of_ne s hne
  exact ⟨by rwa [Kernel.Live, ht] at hq, hp⟩

theorem fork_pid (h : fork L p k = .ok (r, k')) :
    (r = -1 ∧ (k'.nextpid = k.nextpid ∨ k'.nextpid = wrap32 (k.nextpid + 1)) ∧
      ∀ q, k'.Live q → k.Live q ∧ k'.procs q = k.procs q) ∨
    (r = k.nextpid ∧ k'.nextpid = wrap32 (k.nextpid + 1) ∧ ∃ np, ¬k.Live np ∧ k'.Live np ∧ (k'.procs np).pid = r ∧ (k'.procs np).parent = some p ∧
      ∀ q, q ≠ np → SameSlot k k' q) := by
  rcases fork_effect h with ⟨-, hr, rfl⟩ | ⟨np, hslot, ⟨hr, s, rfl⟩ | ⟨rfl, s, proc, hpid, hparent, rfl⟩⟩
  · exact .inl ⟨hr, .inl rfl, fun q hq => ⟨hq, rfl⟩⟩
  · exact .inl ⟨hr, .inr rfl, fun q hq => freed_live s hq⟩
  · have hproc : (k.taken np s .RUNNABLE proc).procs np = proc := update_self ..
    refine .inr ⟨rfl, rfl, np, fun hl => hl (unusedSlot_spec hslot), by simp [Kernel.Live, Kernel.taken], ?_, ?_,
      fun q hq => k.taken_of_ne s _ proc hq⟩
    · rw [hproc, hpid]
    · rw [hproc, hparent]

theorem reparent_pid (p : Fin NPROC) (k : Kernel) (q : Fin NPROC) :
    (reparent p k).nextpid = k.nextpid ∧ ((reparent p k).procs q).pid = (k.procs q).pid := by
  rw [reparent]
  generalize List.finRange NPROC = slots
  induction slots generalizing k with
  | nil => exact ⟨rfl, rfl⟩
  | cons pp slots ih =>
    rw [List.foldl_cons]
    have hone : (reparentOne p k pp).nextpid = k.nextpid ∧
        ((reparentOne p k pp).procs q).pid = (k.procs q).pid := by
      rw [reparentOne]
      split
      next =>
        refine ⟨rfl, ?_⟩
        by_cases hq : q = pp
        · subst hq
          simp
        · simp [Kernel.setProc_of_ne _ _ hq]
      next => exact ⟨rfl, rfl⟩
    obtain ⟨hnext, hpid⟩ := ih (reparentOne p k pp)
    exact ⟨hnext.trans hone.1, hpid.trans hone.2⟩

theorem exit_pid (h : exit p status k = .ok k') (q : Fin NPROC) :
    k'.nextpid = k.nextpid ∧ (k'.procs q).pid = (k.procs q).pid := by
  simp only [exit] at h
  split at h
  · simp at h
  · simp only [Except.ok.injEq] at h
    subst h
    obtain ⟨hnext, hpid⟩ := reparent_pid p k q
    generalize reparent p k = j at hnext hpid ⊢
    refine ⟨hnext, ?_⟩
    by_cases hq : q = p
    · subst hq
      simpa using hpid
    · simpa [Kernel.setProc_of_ne _ _ hq] using hpid

-- fork() is not called any more once nextpid has passed the largest int.
def Unwrapped (k : Kernel) : Event → Prop
  | .call _ .fork => 0 < k.nextpid
  | _ => True

-- As long as nextpid has not wrapped it is above the pids in use.
structure Pids (k : Kernel) : Prop where
  pos : ∀ q, k.Live q → 0 < (k.procs q).pid
  inj : ∀ q q', k.Live q → k.Live q' → (k.procs q).pid = (k.procs q').pid → q = q'
  below : 0 < k.nextpid → ∀ q, k.Live q → (k.procs q).pid < k.nextpid
  range : k.nextpid < 0x80000000

theorem Pids.shrink (h : Pids k) (hnext : k'.nextpid = k.nextpid)
    (hlive : ∀ q, k'.Live q → k.Live q ∧ (k'.procs q).pid = (k.procs q).pid) : Pids k' := by
  refine ⟨fun q hq => ?_, fun q q' hq hq' heq => ?_, fun hpos q hq => ?_, hnext ▸ h.range⟩
  · rw [(hlive q hq).2]
    exact h.pos q (hlive q hq).1
  · rw [(hlive q hq).2, (hlive q' hq').2] at heq
    exact h.inj q q' (hlive q hq).1 (hlive q' hq').1 heq
  · rw [(hlive q hq).2, hnext]
    exact h.below (hnext ▸ hpos) q (hlive q hq).1

theorem wrap32_succ (h : 0 < n) (hn : n < 0x80000000) :
    wrap32 (n + 1) = n + 1 ∧ n + 1 < 0x80000000 ∨ wrap32 (n + 1) = -0x80000000 := by
  by_cases hlast : n + 1 = 0x80000000
  · rw [hlast]
    exact .inr (by decide)
  · exact .inl ⟨wrap32_eq (by omega) (by omega), by omega⟩

theorem Pids.fork (h : Pids k) (hpos : 0 < k.nextpid) (hok : fork L p k = .ok (r, k')) : Pids k' := by
  have hrange := h.range
  have hwraps := wrap32_succ hpos hrange
  have hbelow := h.below hpos
  rcases fork_pid hok with ⟨-, hnext, hlive⟩ | ⟨rfl, hwrap, np, -, -, hpid, -, hsame⟩
  · refine ⟨fun q hq => ?_, fun q q' hq hq' heq => ?_, fun hpos' q hq => ?_, by omega⟩
    · rw [(hlive q hq).2]
      exact h.pos q (hlive q hq).1
    · rw [(hlive q hq).2, (hlive q' hq').2] at heq
      exact h.inj q q' (hlive q hq).1 (hlive q' hq').1 heq
    · rw [(hlive q hq).2]
      have := hbelow q (hlive q hq).1
      omega
  · have hold : ∀ q, q ≠ np → k'.Live q → k.Live q ∧ k'.procs q = k.procs q := by
      intro q hq hl
      obtain ⟨ht, hp⟩ := hsame q hq
      exact ⟨by rwa [Kernel.Live, ht] at hl, hp⟩
    have hnp : (k'.procs np).pid = k.nextpid := hpid
    have hlt : ∀ q, q ≠ np → k'.Live q → (k'.procs q).pid < k.nextpid := by
      intro q hq hl
      rw [(hold q hq hl).2]
      exact hbelow q (hold q hq hl).1
    refine ⟨fun q hq => ?_, fun q q' hq hq' heq => ?_, fun hpos' q hq => ?_, by omega⟩
    · by_cases hqn : q = np
      · rw [hqn, hnp]
        exact hpos
      · rw [(hold q hqn hq).2]
        exact h.pos q (hold q hqn hq).1
    · by_cases hqn : q = np <;> by_cases hqn' : q' = np
      · rw [hqn, hqn']
      · have := hlt q' hqn' hq'
        rw [hqn, hnp] at heq
        omega
      · have := hlt q hqn hq
        rw [hqn', hnp] at heq
        omega
      · rw [(hold q hqn hq).2, (hold q' hqn' hq').2] at heq
        exact h.inj q q' (hold q hqn hq).1 (hold q' hqn' hq').1 heq
    · by_cases hqn : q = np
      · rw [hqn, hnp]
        omega
      · have := hlt q hqn hq
        omega

theorem Pids.exit (h : Pids k) (hp : k.Live p) (hok : exit p status k = .ok k') : Pids k' := by
  refine h.shrink (exit_pid hok p).1 fun q hq => ⟨?_, (exit_pid hok q).2⟩
  by_cases hqp : q = p
  · rwa [hqp]
  · rcases ((exit_slots hok).2 q hqp).2 with heq | ⟨hsleep, -⟩
    · rwa [Kernel.Live, heq] at hq
    · simp [Kernel.Live, hsleep]

theorem Pids.wait (h : Pids k) (hp : (k.tasks p).state = .RUNNING) (hok : wait L p addr k = .ok (r, k')) :
    Pids k' := by
  rcases wait_effect hok with ⟨pp, s, -, rfl⟩ | ⟨s, rfl⟩ | ⟨-, rfl⟩
  · refine h.shrink rfl fun q hq => ?_
    obtain ⟨hlive, hproc⟩ := freed_live s hq
    exact ⟨hlive, by rw [hproc]⟩
  · exact h.shrink rfl fun q hq => ⟨hq, rfl⟩
  · refine h.shrink rfl fun q hq => ⟨?_, rfl⟩
    by_cases hqp : q = p
    · subst hqp
      simp [Kernel.Live, hp]
    · simpa [Kernel.Live, sleep, hqp] using hq

theorem Pids.setProc (h : Pids k) (hpid : proc.pid = (k.procs p).pid) (s : Phys) :
    Pids { k.setProc p proc with phys := s } := by
  refine h.shrink rfl fun q hq => ⟨hq, ?_⟩
  by_cases hqp : q = p
  · subst hqp
    simpa using hpid
  · exact congrArg Proc.pid (k.setProc_of_ne proc hqp)

theorem Pids.setTask (h : Pids k) (hp : k.Live p) (task : Task Chan) : Pids (k.setTask p task) := by
  refine h.shrink rfl fun q hq => ⟨?_, rfl⟩
  by_cases hqp : q = p
  · rwa [hqp]
  · simpa [Kernel.Live, Kernel.setTask, hqp] using hq

theorem Pids.pageFault (h : Pids k) (hp : k.Live p) (hok : pageFault L p va k = .ok k') : Pids k' := by
  obtain ⟨⟨pa, s⟩, -, hok⟩ := bind_eq_ok.mp hok
  simp only at hok
  have hkilled := h.setTask hp { k.tasks p with killed := (k.tasks p).killed || pa = 0 }
  have hlive : (k.setTask p { k.tasks p with killed := (k.tasks p).killed || pa = 0 }).Live p := by
    simpa [Kernel.Live, Kernel.setTask] using hp
  generalize k.setTask p { k.tasks p with killed := (k.tasks p).killed || pa = 0 } = j at hkilled hlive hok
  have hphys : Pids { j with phys := s } := hkilled.shrink rfl fun q hq => ⟨hq, rfl⟩
  split at hok
  next => exact hphys.exit hlive hok
  next =>
    rw [return_eq_ok] at hok
    rwa [← hok]

theorem Pids.call (h : Pids k) (hp : (k.tasks p).state = .RUNNING) (op : Call) (ha : Unwrapped k (.call p op))
    (hok : op.run L p k = .ok k') : Pids k' := by
  have hlive : k.Live p := by simp [Kernel.Live, hp]
  cases op with
  | sbrk n =>
    obtain ⟨⟨r, j⟩, hj, hok⟩ := bind_eq_ok.mp hok
    rw [return_eq_ok] at hok
    obtain ⟨s, proc, hpid, rfl⟩ := sbrk_effect hj
    exact hok ▸ h.setProc hpid s
  | fork =>
    obtain ⟨⟨r, j⟩, hj, hok⟩ := bind_eq_ok.mp hok
    rw [return_eq_ok] at hok
    exact hok ▸ h.fork ha hj
  | exec file args =>
    obtain ⟨⟨r, j⟩, hj, hok⟩ := bind_eq_ok.mp hok
    rw [return_eq_ok] at hok
    obtain ⟨s, proc, hpid, rfl⟩ := exec_effect hj
    exact hok ▸ h.setProc hpid s
  | exit status => exact h.exit hlive hok
  | wait addr =>
    obtain ⟨⟨r, j⟩, hj, hok⟩ := bind_eq_ok.mp hok
    rw [return_eq_ok] at hok
    exact hok ▸ h.wait hp hj
  | shmGet =>
    obtain ⟨⟨a, j⟩, hj, hok⟩ := bind_eq_ok.mp hok
    rw [return_eq_ok] at hok
    obtain ⟨s, shm, rfl⟩ := shmGet_effect hj
    exact hok ▸ h.shrink rfl fun q hq => ⟨hq, rfl⟩
  | fault va => exact h.pageFault hlive hok
  | copyin srcva len | copyout dstva src =>
    obtain ⟨res, -, rfl⟩ := bind_return_eq_ok.mp hok
    exact h.shrink rfl fun q hq => ⟨hq, rfl⟩

theorem Pids.step (h : Pids k) (hs : Step L Unwrapped k k') : Pids k' := by
  obtain ⟨e, he, ha, hn⟩ := hs
  -- the scheduler only changes the state of a process that is there
  have hstate : ∀ p st, k.Live p → Pids { k with tasks := setState k.tasks p st } :=
    fun p st hp => h.setTask hp { k.tasks p with state := st }
  cases e with
  | call p op => exact h.call he op ha hn
  | schedule p =>
    simp only [Event.next, Except.ok.injEq] at hn
    have hp : (k.tasks p).state = .RUNNABLE := he
    exact hn ▸ hstate p _ (by simp [Kernel.Live, hp])
  | yield p =>
    simp only [Event.next, Except.ok.injEq] at hn
    have hp : (k.tasks p).state = .RUNNING := he
    exact hn ▸ hstate p _ (by simp [Kernel.Live, hp])

theorem Start.pids (h : Start L used k) : Pids k := by
  obtain ⟨s, -, hinit⟩ := h
  obtain ⟨slot, t, proc, -, hpid, rfl⟩ := userinit_effect hinit
  generalize hk : { (bootKernel s).taken slot t .RUNNABLE proc with initproc := some slot } = k
  have hnext : k.nextpid = 2 := by
    rw [← hk]
    exact show wrap32 (1 + 1) = 2 by decide
  have hpid' : (k.procs slot).pid = 1 := by
    rw [← hk]
    simpa [Kernel.taken, bootKernel] using hpid
  have hlive : ∀ q, k.Live q → q = slot := by
    intro q hq
    by_contra hne
    rw [← hk] at hq
    simp [Kernel.Live, Kernel.taken, hne, bootKernel] at hq
  refine ⟨fun q hq => ?_, fun q q' hq hq' _ => ?_, fun _ q hq => ?_, by rw [hnext]; decide⟩
  · rw [hlive q hq, hpid']
    decide
  · rw [hlive q hq, hlive q' hq']
  · rw [hlive q hq, hpid', hnext]
    decide

theorem pids_inv (h : Reach (Start L used) (Step L Unwrapped) k) : Pids k := by
  induction h with
  | start h => exact h.pids
  | step _ hs ih => exact ih.step hs

-- Until nextpid wraps, pids are positive and tell the processes apart, and fork() returns
-- the pid of the one process that it has made.
theorem pids_unique (h : Reach (Start L used) (Step L Unwrapped) k) :
    (∀ q q', k.Live q → k.Live q' → (k.procs q).pid = (k.procs q').pid → q = q') ∧
    (∀ q, k.Live q → 0 < (k.procs q).pid) ∧
    ∀ p r k', Unwrapped k (.call p .fork) → fork L p k = .ok (r, k') → r ≠ -1 →
      0 < r ∧ ∃ np, ¬k.Live np ∧ k'.Live np ∧ (k'.procs np).parent = some p ∧ (k'.procs np).pid = r ∧
        ∀ q, k'.Live q → (k'.procs q).pid = r → q = np := by
  have hinv := pids_inv h
  refine ⟨hinv.inj, hinv.pos, fun p r k' hpos hok hr => ?_⟩
  rcases fork_pid hok with ⟨rfl, -⟩ | ⟨rfl, -, np, hdead, hlive, hpid, hparent, -⟩
  · exact absurd rfl hr
  · refine ⟨hpos, np, hdead, hlive, hparent, hpid, fun q hq heq => ?_⟩
    exact (hinv.fork hpos hok).inj q np hq hlive (heq.trans hpid.symm)

instance Unwrapped.decidable (k : Kernel) : ∀ e : Event, Decidable (Unwrapped k e)
  | .call _ .fork => inferInstanceAs (Decidable (0 < k.nextpid))
  | .call _ (.sbrk _) | .call _ (.exec _ _) | .call _ (.exit _) | .call _ (.wait _) | .call _ .shmGet
  | .call _ (.fault _) | .call _ (.copyin _ _) | .call _ (.copyout _ _) | .schedule _ | .yield _ =>
    inferInstanceAs (Decidable True)

-- A machine whose kernel image leaves ten pages; a process needs four.
def crampedLayout : Layout :=
  { sampleLayout with kend := PHYSTOP - 10 * PGSIZE, below := by decide, inside := by decide }

def crampedBoot : Option Kernel :=
  match userinit crampedLayout (bootKernel (bootPhys crampedLayout (fun _ _ => 0#64) PHYSTOP)) with
  | .ok k => some k
  | .error _ => none

def crampedRun (allowed : Kernel → Event → Prop) [∀ k e, Decidable (allowed k e)] (k : Kernel)
    (events : List Event) : Option Kernel :=
  runs (fun k e => e.enabled k ∧ allowed k e) (fun k e => e.next crampedLayout k) k events

theorem crampedBoot_start (h : crampedBoot = some k) : Start crampedLayout [] k := by
  rw [crampedBoot] at h
  split at h
  next k₀ hinit =>
    simp only [Option.some.injEq] at h
    exact ⟨_, .kinit (kinit_eq crampedLayout _), h ▸ hinit⟩
  next => simp at h

theorem crampedRun_reach [∀ k e, Decidable (allowed k e)] (hk : Reach (Start crampedLayout []) (Step crampedLayout allowed) k)
    (h : crampedRun allowed k events = some k') :
    Reach (Start crampedLayout []) (Step crampedLayout allowed) k' :=
  Reach.runs (fun e _ _ _ hen hn => ⟨e, hen.1, hen.2, hn⟩) hk h

theorem pids_unique_forked : ∃ k : Kernel, k.Live ⟨1, by decide⟩ ∧
    ∀ q q', k.Live q → k.Live q' → (k.procs q).pid = (k.procs q').pid → q = q' := by
  obtain ⟨k, hk, hres⟩ : ∃ k, (crampedBoot.bind fun k =>
      crampedRun Unwrapped k [.schedule initSlot, .call initSlot .fork]) = some k ∧ k.Live ⟨1, by decide⟩ := by
    apply exists_of_any
    decide +kernel
  obtain ⟨k₀, hboot, hk⟩ := Option.bind_eq_some_iff.mp hk
  have hreach := crampedRun_reach (.start (crampedBoot_start hboot)) hk
  exact ⟨k, hres, (pids_unique hreach).1⟩

theorem fork_starved (hfree : k.phys.freelist = 0) (hslot : unusedSlot k = some np) (hclear : Cleared k np) :
    fork L p k = .ok (-1, { k with nextpid := wrap32 (k.nextpid + 1) }) := by
  obtain ⟨htask, hproc⟩ := hclear
  have hkalloc : kalloc k.phys = .ok (0, k.phys) := by simp [kalloc, kmemPop, hfree]
  have htasks : update k.tasks np { state := .UNUSED, chan := none, killed := false } = k.tasks := by
    rw [← htask, update_eq_self]
  have hprocs : update k.procs np
      { pid := 0, parent := none, xstate := 0, sz := 0, pagetable := 0, trapframe := 0 } = k.procs := by
    rw [← hproc, update_eq_self]
  rw [fork, allocproc_eq, hslot]
  simp only [allocprocAt, hkalloc, ok_bind, if_true, freeproc, freeprocMem, Kernel.setProc_self, hproc, ne_eq,
    not_true_eq_false, if_false, pure_eq_ok]
  simp only [Kernel.setProc, update_idem, htasks, hprocs]

theorem starved_step (hrun : (k.tasks p).state = .RUNNING) (hfree : k.phys.freelist = 0)
    (hslot : unusedSlot k = some np) (hclear : Cleared k np) :
    Step L (fun _ _ => True) k { k with nextpid := wrap32 (k.nextpid + 1) } := by
  refine ⟨.call p .fork, hrun, trivial, ?_⟩
  simp only [Event.next, Call.run, fork_starved hfree hslot hclear, ok_bind, pure_eq_ok]

theorem starved_run (h : Reach start (Step L fun _ _ => True) k) (hrun : (k.tasks p).state = .RUNNING)
    (hfree : k.phys.freelist = 0) (hslot : unusedSlot k = some np) (hclear : Cleared k np)
    (hpid : wrap32 k.nextpid = k.nextpid) (n : Nat) :
    Reach start (Step L fun _ _ => True) { k with nextpid := wrap32 (k.nextpid + n) } := by
  induction n with
  | zero =>
    rw [Int.natCast_zero, Int.add_zero, hpid]
    exact h
  | succ n ih =>
    have hstep := starved_step (L := L) (k := { k with nextpid := wrap32 (k.nextpid + n) }) hrun hfree hslot hclear
    have hwrap : wrap32 (wrap32 (k.nextpid + n) + 1) = wrap32 (k.nextpid + (n + 1 : Nat)) := by
      rw [wrap32, wrap32, wrap32, Int.bmod_add_bmod]
      congr 1
      omega
    rw [← hwrap]
    exact .step ih hstep

-- init has touched every page that there is.
def crampedFill : List Event :=
  [.schedule initSlot, .call initSlot (.sbrk 16384), .call initSlot (.fault 0), .call initSlot (.fault 4096),
    .call initSlot (.fault 8192), .call initSlot (.fault 12288)]

instance Cleared.decidable (k : Kernel) (q : Fin NPROC) : Decidable (Cleared k q) :=
  inferInstanceAs (Decidable (_ ∧ _))

-- A process that holds all the memory calls fork() until nextpid has wrapped, gives its
-- memory back, and forks once more.
theorem fork_negative_pid : ∃ k k' : Kernel, ∃ r : Int,
    Reach (Start crampedLayout []) (Step crampedLayout fun _ _ => True) k ∧
    (k.tasks initSlot).state = .RUNNING ∧ fork crampedLayout initSlot k = .ok (r, k') ∧ r = -0x80000000 ∧
    k'.Live ⟨1, by decide⟩ ∧ (k'.procs ⟨1, by decide⟩).pid = -0x80000000 := by
  have hrun : (crampedBoot.bind fun k => crampedRun (fun _ _ => True) k crampedFill).any (fun k => decide (
      ((k.tasks initSlot).state = .RUNNING ∧ k.phys.freelist = 0 ∧ unusedSlot k = some ⟨1, by decide⟩ ∧
        Cleared k ⟨1, by decide⟩ ∧ k.nextpid = 2) ∧
      (crampedRun (fun _ _ => True) { k with nextpid := -0x80000000 } [.call initSlot (.sbrk (-16384))]).any (fun k =>
        decide ((k.tasks initSlot).state = .RUNNING) && (fork crampedLayout initSlot k).toOption.any (fun res =>
          decide (res.1 = -0x80000000 ∧ res.2.Live ⟨1, by decide⟩ ∧
            (res.2.procs ⟨1, by decide⟩).pid = -0x80000000))) = true)) = true := by
    decide +kernel
  obtain ⟨k₁, hk₁, hres⟩ := (Option.any_eq_true ..).mp hrun
  obtain ⟨k₀, hboot, hk₁⟩ := Option.bind_eq_some_iff.mp hk₁
  obtain ⟨⟨hinit, hfree, hslot, hclear, hpid⟩, hrest⟩ := of_decide_eq_true hres
  have hfilled := crampedRun_reach (.start (crampedBoot_start hboot)) hk₁
  have hwrapped := starved_run hfilled hinit hfree hslot hclear (by rw [hpid]; decide) 0x7ffffffe
  rw [hpid, show wrap32 (2 + (0x7ffffffe : Nat)) = -0x80000000 by decide] at hwrapped
  obtain ⟨k, hk, hfork⟩ := (Option.any_eq_true ..).mp hrest
  rw [Bool.and_eq_true, decide_eq_true_eq] at hfork
  obtain ⟨⟨r, k'⟩, hok, hlast⟩ := (Option.any_eq_true ..).mp hfork.2
  obtain ⟨hr, hlive, hneg⟩ := of_decide_eq_true hlast
  refine ⟨k, k', r, crampedRun_reach hwrapped hk, hfork.1, ?_, hr, hlive, hneg⟩
  cases hf : fork crampedLayout initSlot k with
  | error e => simp [hf, Except.toOption] at hok
  | ok res => simpa [hf, Except.toOption] using hok

end Xv6
