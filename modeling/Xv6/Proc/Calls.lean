import Xv6.Proc.Lifecycle

namespace Xv6

open Lib Function

variable {L : Layout} {used : List Nat} {sized : Bool} {k k' k'' : Kernel} {s t : Phys}
  {role role' role'' : Nat → Role} {X P : Nat → Prop} {p q : Fin NPROC}

theorem Steady.refl (k : Kernel) : Steady k k := ⟨fun _ => Iff.rfl, .refl k, rfl⟩

theorem Keeps.trans (h : Keeps k k') (h' : Keeps k' k'') : Keeps k k'' where
  live := fun q hq => h'.live q (h.live q hq)
  root := fun q hq => (h'.root q (h.live q hq)).trans (h.root q hq)
  pte := by
    intro q va hq h39 hmapped
    have hpte := h.pte q va hq h39 hmapped
    rw [← hpte] at hmapped ⊢
    have hpte' := h'.pte q va (h.live q hq) h39
    rw [h.root q hq] at hpte'
    exact hpte' hmapped

theorem Steady.trans (h : Steady k k') (h' : Steady k' k'') : Steady k k'' :=
  ⟨fun q => (h'.live q).trans (h.live q), h.keeps.trans h'.keeps, h'.shm.trans h.shm⟩

theorem Steady.of_eq (hphys : k'.phys = k.phys) (hshm : k'.shm = k.shm) (hlive : ∀ q, k'.Live q ↔ k.Live q)
    (hroot : ∀ q, (k'.procs q).pagetable = (k.procs q).pagetable) : Steady k k' :=
  ⟨hlive, ⟨fun q => (hlive q).mpr, fun q _ => hroot q, fun q va _ _ _ => by rw [hphys]⟩, hshm⟩

section Exit

theorem live_wakeupProc (k : Kernel) (me : Fin NPROC) (c : Option (Fin NPROC)) (q : Fin NPROC) :
    ((wakeupProc k.tasks me c) q).state = .UNUSED ↔ (k.tasks q).state = .UNUSED := by
  cases c with
  | none => exact Iff.rfl
  | some c =>
    simp only [wakeupProc, wakeup]
    split
    next hs => simp [hs.2.1]
    next => exact Iff.rfl

theorem Kin.refl (k : Kernel) : Kin k k := ⟨rfl, rfl, fun _ => Iff.rfl, fun _ => ⟨rfl, rfl, rfl⟩⟩

theorem Kin.trans (h : Kin k k') (h' : Kin k' k'') : Kin k k'' :=
  ⟨h'.phys.trans h.phys, h'.shm.trans h.shm, fun q => (h'.live q).trans (h.live q),
    fun q => ⟨(h'.procs q).1.trans (h.procs q).1, (h'.procs q).2.1.trans (h.procs q).2.1,
      (h'.procs q).2.2.trans (h.procs q).2.2⟩⟩

theorem Kin.steady (h : Kin k k') : Steady k k' :=
  .of_eq h.phys h.shm h.live fun q => (h.procs q).1

theorem kin_reparentOne (p pp : Fin NPROC) (k : Kernel) : Kin k (reparentOne p k pp) := by
  rw [reparentOne]
  split
  · refine ⟨rfl, rfl, fun q => not_congr (live_wakeupProc k p _ q), fun q => ?_⟩
    by_cases hq : q = pp
    · subst hq
      simp
    · simp [Kernel.setProc_of_ne k _ hq]
  · exact .refl k

theorem kin_reparent (p : Fin NPROC) (k : Kernel) : Kin k (reparent p k) := by
  rw [reparent]
  generalize List.finRange NPROC = slots
  induction slots generalizing k with
  | nil => exact .refl k
  | cons pp slots ih => exact (kin_reparentOne p pp k).trans (ih _)

theorem kin_exit (hp : k.Live p) (status : Int) (h : exit p status k = .ok k') : Kin k k' := by
  simp only [exit] at h
  split at h
  · simp at h
  · simp only [Except.ok.injEq] at h
    refine (kin_reparent p k).trans ?_
    have hlive := ((kin_reparent p k).live p).mpr hp
    generalize reparent p k = j at h hlive
    subst h
    refine ⟨rfl, rfl, fun q => ?_, fun q => ?_⟩
    · by_cases hq : q = p
      · subst hq
        exact iff_of_true (by simp [Kernel.Live]) hlive
      · simp only [Kernel.Live, update_of_ne hq]
        exact not_congr (live_wakeupProc j p _ q)
    · by_cases hq : q = p
      · subst hq
        simp
      · simp [Kernel.setProc_of_ne j _ hq]

theorem exit_cases (p : Fin NPROC) (status : Int) (k : Kernel) :
    (∃ k', exit p status k = .ok k') ∨
      some p = k.initproc ∧ exit p status k = .error .initExiting := by
  rw [exit]
  split
  · exact .inr ⟨‹_›, rfl⟩
  · exact .inl ⟨_, rfl⟩

end Exit

def Kernel.MapsShm (k : Kernel) (q : Fin NPROC) : Prop :=
  k.shm.allocated = true ∧ leafPte k.phys.mem 2 (k.procs q).pagetable SHM_VA =
    some (PA2PTE k.shm.shared_page ||| (PTE_W ||| PTE_U) ||| PTE_V)

instance (k : Kernel) (q : Fin NPROC) : Decidable (k.MapsShm q) :=
  inferInstanceAs (Decidable (_ ∧ _))

theorem shm_va_lt : SHM_VA < TRAPFRAME ∧ SHM_VA < MAXVA ∧ SHM_VA < 2 ^ 39 ∧ SHM_VA % PGSIZE = 0 := by
  decide

theorem KInv.mapsShm_iff (h : KInv L used sized k role) :
    k.MapsShm q ↔ ∃ va, va < TRAPFRAME ∧ SharedAt k.phys.mem role (k.procs q).pagetable va := by
  constructor
  · rintro ⟨ha, hpte⟩
    exact ⟨SHM_VA, shm_va_lt.1, rfl, k.shm.shared_page, (h.shared _).mpr ⟨ha, rfl⟩, hpte⟩
  · rintro ⟨va, hva, hpage, pa, hpa, hpte⟩
    obtain ⟨ha, rfl⟩ := (h.shared pa).mp hpa
    refine ⟨ha, ?_⟩
    rw [← leafPte_congr_page shm_va_lt.2.2.1 (high_not_user hva).1 hpage, hpte]

section

variable (h : KInv L used sized k role) (hp : k.Live p) (he : Edit L k.phys role t role' (k.procs p).pagetable P)
  (hkeep : ∀ va, va < 2 ^ 39 → leafPte k.phys.mem 2 (k.procs p).pagetable va ≠ none → leafPte t.mem 2 (k.procs p).pagetable va = leafPte k.phys.mem 2 (k.procs p).pagetable va)
include h hp he hkeep

theorem KInv.steady_of_edit (sz : Nat) : Steady k { k.setProc p { k.procs p with sz := sz } with phys := t } := by
  have hu := h.untouched_of_edit hp he { k.procs p with sz := sz }
  refine ⟨fun _ => Iff.rfl, ⟨fun _ hq => hq, fun q _ => ?_, fun q va hq h39 hmapped => ?_⟩, rfl⟩
  · by_cases hqp : q = p
    · subst hqp
      simp
    · rw [hu.procs q hqp]
  · by_cases hqp : q = p
    · subst hqp
      exact hkeep va h39 hmapped
    · exact hu.pte q va hqp hq

theorem KInv.steady_of_edit_phys : Steady k { k with phys := t } := by
  have hs := h.steady_of_edit hp he hkeep (k.procs p).sz
  rwa [Kernel.setProc_sz] at hs

end

theorem lt_limit (hsz : sized = true → sz ≤ TRAPFRAME) (hva : va < TRAPFRAME)
    (h : PGROUNDDOWN va < sz) : va < limit sized sz := by
  cases sized with
  | false =>
    rw [limit_false]
    exact hva
  | true => exact ahead_lt_limit (hsz rfl) ⟨by omega, h⟩

theorem Space.grows (h : Space L s.mem role r tf lim) (hg : Grows L s role t role' r sz)
    (hsz : sz ≤ MAXVA) (hlim : ∀ va, va < TRAPFRAME → PGROUNDDOWN va < sz → va < lim) :
    Space L t.mem role' r tf lim := by
  have hkeep : ∀ va, va < 2 ^ 39 → leafPte s.mem 2 r va ≠ none →
      leafPte t.mem 2 r va = leafPte s.mem 2 r va := fun va h39 hmapped => (hg.keep va h39 hmapped).1
  refine ⟨hg.edit.top, ?_, ?_, ?_, ?_⟩
  · intro va h39 hva
    have hold := h.tramp va h39 hva
    rw [hkeep va h39 (by simp [hold]), hold]
  · intro va h39 hva
    have hold := h.frame va h39 hva
    rw [hkeep va h39 (by simp [hold]), hold]
  · intro va hva h39
    refine (hg.new va h39 (h.high va hva h39)).resolve_right ?_
    rintro ⟨hlt, -⟩
    have hdown := pgrounddown_bounds va
    simp only [MAXVA_eq, PGSIZE_eq] at *
    omega
  · intro va hva
    have h39 := (high_not_user hva).1
    rcases h.user va hva with hnone | ⟨hlt, huser⟩ | ⟨hpage, pa, hpa, hpte⟩
    · exact (hg.new va h39 hnone).imp id fun hnew => .inl ⟨hlim va hva hnew.1, hnew.2⟩
    · exact .inr (.inl ⟨hlt, (hg.keep va h39 huser.mapped).2 huser⟩)
    · refine .inr (.inr ⟨hpage, pa, hg.edit.frame.shared ?_ pa hpa, ?_⟩)
      · rintro x rfl
        simp [h.top]
      · rw [hkeep va h39 (by simp [hpte]), hpte]

section

variable (h : KInv L used sized k role) (hp : k.Live p)
include h hp

theorem KInv.grows (hsz : (k.procs p).sz ≤ MAXVA)
    (hg : Grows L k.phys role t role' (k.procs p).pagetable (k.procs p).sz) :
    KInv L used sized { k with phys := t } role' ∧ Steady k { k with phys := t } ∧
      Untouched p k { k with phys := t } := by
  have hsp := (h.space p hp).grows hg hsz fun va hva hlt => lt_limit (fun hs => h.size hs p) hva hlt
  exact ⟨h.edit_phys hp hg.edit hsp,
    h.steady_of_edit_phys hp hg.edit (fun va h39 hmapped => (hg.keep va h39 hmapped).1),
    h.untouched_of_edit_phys hp hg.edit⟩

theorem KInv.copyin_spec (hsz : (k.procs p).sz ≤ MAXVA) (srcva len : Nat) :
    ∃ res dst t role', copyin L (k.self p) (k.procs p).pagetable srcva len k.phys = .ok (res, dst, t) ∧
      KInv L used sized { k with phys := t } role' ∧ Steady k { k with phys := t } ∧
      Untouched p k { k with phys := t } := by
  obtain ⟨res, dst, t, role', hok, hg⟩ := h.vm.copyin_spec (p := k.self p) (h.space p hp).top hsz
    srcva len
  exact ⟨res, dst, t, role', hok, h.grows hp hsz hg⟩

theorem KInv.copyout_spec (hsz : (k.procs p).sz ≤ MAXVA) (dstva : Nat) (src : List Byte) :
    ∃ res t role', copyout L (k.self p) (k.procs p).pagetable dstva src k.phys = .ok (res, t) ∧
      KInv L used sized { k with phys := t } role' ∧ Steady k { k with phys := t } ∧
      Untouched p k { k with phys := t } := by
  obtain ⟨res, t, role', hok, hg⟩ := h.vm.copyout_spec (p := k.self p) (h.space p hp).top
    ((h.space p hp).guarded h.vm) hsz dstva src
  exact ⟨res, t, role', hok, h.grows hp hsz hg⟩

theorem KInv.vmfault_spec (va : Nat) :
    (∃ pa t role', vmfault L (k.self p) (k.procs p).pagetable va k.phys = .ok (pa, t) ∧
      KInv L used sized { k with phys := t } role' ∧ Steady k { k with phys := t } ∧
      Untouched p k { k with phys := t }) ∨
    MAXVA < (k.procs p).sz ∧ ∃ e, (e = .walk ∨ e = .mappagesRemap) ∧
      vmfault L (k.self p) (k.procs p).pagetable va k.phys = .error e := by
  have hsp := h.space p hp
  have hfaults := h.vm.vmfault_spec (p := k.self p) hsp.top (k.procs p).pagetable va
  generalize vmfault L (k.self p) (k.procs p).pagetable va k.phys = res at hfaults
  cases hfaults with
  | stuck panic below why =>
    have hfault : Faults L k.phys role (k.self p) (k.procs p).pagetable va (.error _) := .stuck panic below why
    exact .inr ⟨hfault.not_stuck, _, panic, rfl⟩
  | @failed t role' edit =>
    have hsame : ∀ va, va < 2 ^ 39 → Same k.phys.mem role t.mem role' 2 (k.procs p).pagetable va :=
      fun va h39 => edit.same va h39 not_false
    refine .inl ⟨0, t, role', rfl, h.edit_phys hp edit (hsp.edit edit ?_ ?_ ?_),
      h.steady_of_edit_phys hp edit (fun va h39 _ => (hsame va h39).pte), h.untouched_of_edit_phys hp edit⟩
    · exact fun _ hfalse => hfalse.elim
    · exact fun _ hfalse => hfalse.elim
    · exact fun _ _ hlt => hlt
  | @mapped a t role' nonzero page below max was edit new =>
    have hva : va < TRAPFRAME := by
      rcases layout_cases (lt_39_of_lt_MAXVA max) with hlow | hframe | htramp | hhigh
      · exact hlow
      · simp [Kernel.self, hsp.frame va (lt_39_of_lt_MAXVA max) hframe] at was
      · simp [Kernel.self, hsp.tramp va (lt_39_of_lt_MAXVA max) htramp] at was
      · omega
    have hlow : ∀ va', va' / PGSIZE = va / PGSIZE → va' < TRAPFRAME ∧ PGROUNDDOWN va' < (k.procs p).sz := by
      intro va' hpage
      have hdown := pgrounddown_bounds va
      have hdown' := pgrounddown_bounds va'
      simp only [Kernel.self, TRAPFRAME_eq, PGSIZE_eq] at *
      omega
    refine .inl ⟨a, t, role', rfl, h.edit_phys hp edit (hsp.edit edit ?_ ?_ ?_),
      h.steady_of_edit_phys hp edit ?_, h.untouched_of_edit_phys hp edit⟩
    · exact fun va' hpage => (hlow va' hpage).1
    · intro va' hpage
      obtain ⟨hlt, hsz⟩ := hlow va' hpage
      exact .inr (.inl ⟨lt_limit (fun hs => h.size hs p) hlt hsz,
        (new va' (high_not_user hlt).1 hpage).1⟩)
    · exact fun _ _ hlt => hlt
    · intro va' h39 hmapped
      refine (edit.same va' h39 fun hpage => hmapped ?_).pte
      rw [leafPte_congr_page (lt_39_of_lt_MAXVA max) h39 hpage]
      exact was

theorem KInv.pageFault_spec (va : Nat) :
    (∃ pa t k' role', vmfault L (k.self p) (k.procs p).pagetable va k.phys = .ok (pa, t) ∧
      pageFault L p va k = .ok k' ∧ KInv L used sized k' role' ∧ Steady k k' ∧
      Untouched p k { k with phys := t } ∧ Kin { k with phys := t } k') ∨
    (some p = k.initproc ∧ pageFault L p va k = .error .initExiting) ∨
    MAXVA < (k.procs p).sz ∧ ∃ e, (e = .walk ∨ e = .mappagesRemap) ∧
      pageFault L p va k = .error e := by
  rcases h.vmfault_spec hp va with ⟨pa, t, role', hok, hinv, hsteady, hu⟩ | ⟨hsz, e, he, herr⟩
  · simp only [pageFault, hok, ok_bind, pure_eq_ok]
    generalize hkill : ((k.tasks p).killed || decide (pa = 0)) = killed
    generalize hj : Kernel.mk t _ _ _ _ _ = j
    have hkin : Kin { k with phys := t } j := by
      subst hj
      refine ⟨rfl, rfl, fun q => ?_, fun q => ⟨rfl, rfl, rfl⟩⟩
      by_cases hq : q = p
      · subst hq
        simp [Kernel.Live, Kernel.setTask]
      · simp [Kernel.Live, Kernel.setTask, hq]
    have hinit : j.initproc = k.initproc := by
      subst hj
      rfl
    have hlive : j.Live p := (hkin.live p).mpr hp
    cases killed with
    | false => exact .inl ⟨pa, t, j, role', rfl, rfl, hinv.kin hkin, hsteady.trans hkin.steady, hu, hkin⟩
    | true =>
      rcases exit_cases p (-1) j with ⟨k', hexit⟩ | ⟨hp', hexit⟩
      · have hkin' := hkin.trans (kin_exit hlive (-1) hexit)
        exact .inl ⟨pa, t, k', role', rfl, hexit, hinv.kin hkin', hsteady.trans hkin'.steady, hu, hkin'⟩
      · exact .inr (.inl ⟨hp'.trans hinit, hexit⟩)
  · exact .inr (.inr ⟨hsz, e, he, by simp only [pageFault, herr, error_bind]⟩)

end

theorem pgroundup_mono (h : x ≤ y) (hy : y ≤ MAXVA) : PGROUNDUP x ≤ PGROUNDUP y := by
  have hx := pgroundup_bounds (x := x) (by omega)
  have hy' := pgroundup_bounds hy
  simp only [PGSIZE_eq] at *
  omega

theorem limit_mono (h : x ≤ y) (hy : y ≤ MAXVA) : limit sized x ≤ limit sized y := by
  cases sized with
  | false => rw [limit_false, limit_false]
  | true =>
    rw [limit_true, limit_true]
    exact pgroundup_mono h hy

theorem limit_le (h : sized = true → sz ≤ TRAPFRAME) : limit sized sz ≤ TRAPFRAME := by
  cases sized with
  | false => rw [limit_false]
  | true =>
    have hsz := h rfl
    have hb := pgroundup_bounds (x := sz) (by simp only [TRAPFRAME_eq, MAXVA_eq] at *; omega)
    rw [limit_true]
    simp only [TRAPFRAME_eq, PGSIZE_eq] at *
    omega

theorem KInv.sbrk_grow (h : KInv L used sized k role) (hp : k.Live p) (hn : 0 ≤ n)
    (hsz : sized = true → (k.procs p).sz + n.toNat ≤ TRAPFRAME) :
    ∃ k', sbrk L p n k = .ok ((k.procs p).sz, k') ∧ KInv L used sized k' role ∧ Steady k k' ∧
      (k'.procs p).sz = wrap64 ((k.procs p).sz + n.toNat) := by
  have hedit := Edit.refl h.vm (h.space p hp).top fun _ => False
  refine ⟨_, by rw [sbrk, if_neg (by omega)], ?_, ?_, ?_⟩
  · refine h.edit (wrap64 ((k.procs p).sz + n.toNat)) hp hedit ?_ ?_
    · cases sized with
      | false =>
        have hsp := h.space p hp
        rwa [limit_false] at hsp ⊢
      | true =>
        have hsz' := hsz rfl
        have hlt : (k.procs p).sz + n.toNat < 2 ^ 64 := by
          simp only [TRAPFRAME_eq] at hsz'
          omega
        rw [wrap64_eq_of_lt hlt]
        refine (h.space p hp).mono (limit_mono (by omega) ?_)
        simp only [TRAPFRAME_eq, MAXVA_eq] at *
        omega
    · intro hs
      have hle : wrap64 ((k.procs p).sz + n.toNat) ≤ (k.procs p).sz + n.toNat := Nat.mod_le ..
      exact hle.trans (hsz hs)
  · exact h.steady_of_edit hp hedit (fun _ _ _ => rfl) _
  · simp

def Shrunk (k : Kernel) (p : Fin NPROC) (n : Int) (va : Nat) : Prop :=
  n < 0 ∧ PGROUNDUP ((k.procs p).sz - toU64 (wrap32 (-n))) ≤ va ∧ va < PGROUNDUP (k.procs p).sz

instance (k : Kernel) (p : Fin NPROC) (n : Int) (va : Nat) : Decidable (Shrunk k p n va) :=
  inferInstanceAs (Decidable (_ ∧ _ ∧ _))

theorem KInv.sbrk_shrink (h : KInv L used true k role) (hp : k.Live p) (hn : n < 0)
    (hshm : k.MapsShm p → ¬Shrunk k p n SHM_VA) :
    ∃ r k' role', sbrk L p n k = .ok (r, k') ∧ KInv L used true k' role' ∧ Untouched p k k' ∧ k'.Live p ∧
      (k'.procs p).sz ≤ (k.procs p).sz ∧
      ((k.procs p).sz < toU64 (wrap32 (-n)) ∧ k' = k ∨
        toU64 (wrap32 (-n)) ≤ (k.procs p).sz ∧ (k'.procs p).sz = (k.procs p).sz - toU64 (wrap32 (-n)) ∧
        (k'.procs p).pagetable = (k.procs p).pagetable ∧ ∀ va, va < PGROUNDUP (k'.procs p).sz →
          Same k.phys.mem role k'.phys.mem role' 2 (k.procs p).pagetable va) := by
  have hsp := h.space p hp
  have hsz := h.size rfl p
  have hmax : (k.procs p).sz ≤ MAXVA := by
    simp only [TRAPFRAME_eq, MAXVA_eq] at *
    omega
  have hup : limit true (k.procs p).sz ≤ TRAPFRAME := limit_le fun _ => hsz
  rw [limit_true] at hup
  simp only [sbrk, if_pos hn, shrinkproc]
  generalize hamount : toU64 (wrap32 (-n)) = amount
  by_cases hlt : (k.procs p).sz < amount
  · refine ⟨-1, k, role, ?_, h, .refl p k, hp, Nat.le_refl _, .inl ⟨hlt, rfl⟩⟩
    simp only [if_pos hlt, ok_bind, show ((-1 : Int) < 0) from by decide, if_true, pure_eq_ok]
  generalize hnew : (k.procs p).sz - amount = newsz
  have hle : newsz ≤ (k.procs p).sz := by omega
  -- none of them belongs to somebody else
  have hown : ∀ va, PGROUNDUP newsz ≤ va → va < PGROUNDUP (k.procs p).sz →
      leafPte k.phys.mem 2 (k.procs p).pagetable va = none ∨
      UserLeaf k.phys.mem role 2 (k.procs p).pagetable va := by
    intro va hlo hhi
    rcases hsp.user va (by omega) with hnone | hu | hs
    · exact .inl hnone
    · exact .inr hu.2
    · refine absurd ⟨hn, ?_, ?_⟩ (hshm (h.mapsShm_iff.mpr ⟨va, by omega, hs⟩))
      · have hpage := hs.1
        have hb := pgroundup_bounds (x := newsz) (by omega)
        rw [hamount, hnew]
        simp only [SHM_VA, PGSIZE_eq] at *
        omega
      · have hpage := hs.1
        have hb := pgroundup_bounds hmax
        simp only [SHM_VA, PGSIZE_eq] at *
        omega
  obtain ⟨t, role', hok, hedit, hgone⟩ := h.vm.uvmdealloc_spec newsz hsp.top hmax hown
  refine ⟨(k.procs p).sz, _, role', ?_, h.edit newsz hp hedit ?_ fun _ => by omega,
    h.untouched_of_edit hp hedit _, hp, ?_, .inr ⟨Nat.le_of_not_lt hlt, ?_, ?_, fun va hva => ?_⟩⟩
  · simp only [if_neg hlt, hok, ok_bind, pure_eq_ok, Nat.min_eq_right hle, Int.lt_irrefl, if_false]
  · refine hsp.edit hedit (fun va hva => by omega) (fun va hva => .inl ?_) fun va hva hlim => ?_
    · rcases Nat.lt_or_eq_of_le hle with hlt' | heq
      · exact hgone hlt' va hva.1 hva.2
      · rw [heq] at hva
        omega
    · rw [limit_true] at hlim ⊢
      omega
  · simpa using hle
  · simp only [Kernel.setProc_self]
  · simp only [Kernel.setProc_self]
  · simp only [Kernel.setProc_self] at hva
    have hup' := pgroundup_mono hle hmax
    exact hedit.same va (high_not_user (by omega)).1 fun hge => by omega

theorem Untouched.mapsShm_iff (h : Untouched p k k') (hq : q ≠ p) (hl : k.Live q) :
    k'.MapsShm q ↔ k.MapsShm q := by
  rw [Kernel.MapsShm, Kernel.MapsShm, h.shm, h.procs q hq, h.pte q SHM_VA hq hl]

theorem KInv.copyStatus_spec (h : KInv L used sized k role) (hp : k.Live p) (hsz : (k.procs p).sz ≤ MAXVA)
    (addr : Nat) (xstate : Int) :
    ∃ res t role', copyStatus L p addr xstate k = .ok (res, t) ∧
      KInv L used sized { k with phys := t } role' ∧ Steady k { k with phys := t } ∧
      Untouched p k { k with phys := t } := by
  rw [copyStatus]
  split
  · exact ⟨0, k.phys, role, rfl, h, .refl k,
      .refl p k⟩
  · exact h.copyout_spec hp hsz addr _

theorem KInv.wait_spec (h : KInv L used true k role) (addr : Nat) (hp : (k.tasks p).state = .RUNNING)
    (hshm : ∀ pp, zombieChild k p = some pp → ¬k.MapsShm pp) :
    ∃ res k' role', wait L p addr k = .ok (res, k') ∧ KInv L used true k' role' ∧ k'.shm = k.shm := by
  have hlive : k.Live p := by simp [Kernel.Live, hp]
  have hsz : (k.procs p).sz ≤ MAXVA := by
    have := h.size rfl p
    simp only [TRAPFRAME_eq, MAXVA_eq] at *
    omega
  rw [wait]
  cases hz : zombieChild k p with
  | none =>
    simp only
    split
    · exact ⟨_, k, role, rfl, h, rfl⟩
    · refine ⟨none, _, role, rfl, h.kin ⟨rfl, rfl, fun q => ?_, fun _ => ⟨rfl, rfl, rfl⟩⟩, rfl⟩
      by_cases hq : q = p
      · subst hq
        exact iff_of_true (by simp [Kernel.Live, sleep]) hlive
      · simp [Kernel.Live, sleep, hq]
  | some pp =>
    have hfound := List.find?_some hz
    simp only [decide_eq_true_eq] at hfound
    have hne : pp ≠ p := by
      rintro rfl
      simp [hp] at hfound
    have hlive' : k.Live pp := by simp [Kernel.Live, hfound.2]
    obtain ⟨res, t, role', hcopy, hinv, -, hu⟩ := h.copyStatus_spec hlive hsz addr (k.procs pp).xstate
    simp only [hcopy, ok_bind]
    split
    · exact ⟨_, _, role', rfl, hinv, rfl⟩
    · have hunmapped : ¬Kernel.MapsShm { k with phys := t } pp := by
        rw [hu.mapsShm_iff hne hlive']
        exact hshm pp hz
      have hd := hinv.disposable (p := pp) hlive' fun va hva hs =>
        hunmapped (hinv.mapsShm_iff.mpr ⟨va, hva, hs⟩)
      obtain ⟨k', role'', hok, hinv', -, hu'⟩ := hinv.freeproc_spec (p := pp) hlive' hd
      refine ⟨some (k.procs pp).pid, k', role'', ?_, hinv', hu'.shm⟩
      simp only [hok, ok_bind, pure_eq_ok]

theorem KInv.shmAlloc_spec (h : KInv L used sized k role) :
    (k.shm.allocated = false ∧ k.phys.freelist = 0 ∧
      ∃ k', shmAlloc k = .ok (false, k') ∧ k'.shm.allocated = false ∧ KInv L used sized k' role ∧
        k'.phys = k.phys ∧ k'.tasks = k.tasks ∧ k'.procs = k.procs) ∨
    ((k.shm.allocated = true ∨ k.phys.freelist ≠ 0) ∧
      ∃ k' role', shmAlloc k = .ok (true, k') ∧ k'.shm.allocated = true ∧ KInv L used sized k' role' ∧
        k'.tasks = k.tasks ∧ k'.procs = k.procs ∧
        (k.shm.allocated = true → k'.shm = k.shm) ∧
        ∀ q va, k.Live q → leafPte k'.phys.mem 2 (k.procs q).pagetable va =
          leafPte k.phys.mem 2 (k.procs q).pagetable va) := by
  rw [shmAlloc]
  cases halloc : k.shm.allocated with
  | true =>
    exact .inr ⟨.inl rfl, k, role, rfl, halloc, h, rfl, rfl, fun _ => rfl, fun _ _ _ => rfl⟩
  | false =>
    have hnone : ∀ a, role a ≠ .shared := by
      intro a ha
      simpa [halloc] using (h.shared a).mp ha
    rcases h.vm.kalloc_spec with ⟨hk, -⟩ | ⟨a, u, hk, ha0, -⟩
    · refine .inl ⟨rfl, (kalloc_freelist hk).symm, { k with shm := { k.shm with shared_page := 0 } },
        ?_, halloc, ?_, rfl, rfl, rfl⟩
      · simp only [Bool.false_eq_true, if_false, hk, ok_bind, if_true, pure_eq_ok]
      · refine ⟨h.vm, h.space, h.frame, h.root_inj, h.frame_inj, h.unused, h.size, fun a => ?_,
          h.kernel, h.whole⟩
        simp [halloc, hnone a]
    · obtain ⟨hfree, hpage, hv, -, hframe⟩ := h.vm.kalloc_fill hk ha0 (fills_memset u a 0)
      have hheld : update role a Role.held a = .held := update_self ..
      have hvm := hv.relabel (a := a) (ρ := .shared) (by rw [hheld]; rfl) rfl (by rw [hheld]; simp)
        (by simp) hpage
      rw [update_idem] at hvm
      have hframe' : Frame (· = a) k.phys.mem role (u.memset a 0).mem
          (update role a .shared) := by
        refine hframe.trans (hv.wired.frame_loose (by rw [hheld]; rfl) (fun _ _ => rfl) fun x hx => ?_)
        rw [update_of_ne hx, update_of_ne hx]
      have hne : ∀ q, k.Live q → (k.procs q).pagetable ≠ a ∧ (k.procs q).trapframe ≠ a := by
        intro q hq
        constructor
        · rintro rfl
          simp [(h.space q hq).top] at hfree
        · rintro rfl
          simp [h.frame q hq] at hfree
      refine .inr ⟨.inr ?_, { k with
          phys := u.memset a 0
          shm := { shared_page := a, allocated := true } }, update role a .shared, ?_, rfl,
        ⟨hvm, fun q hq => ?_, fun q hq => ?_, h.root_inj, h.frame_inj, h.unused, h.size, fun x => ?_,
          fun x => ?_, fun x hx => ?_⟩,
        rfl, rfl, fun hfalse => absurd hfalse (by simp), fun q va hq => ?_⟩
      · rw [← kalloc_freelist hk]
        exact ha0
      · simp only [Bool.false_eq_true, if_false, hk, ok_bind, if_neg ha0, pure_eq_ok]
      · exact (h.space q hq).frame_of hframe' (hne q hq).1 fun x _ => hnone x
      · rw [update_of_ne (hne q hq).2]
        exact h.frame q hq
      · by_cases hx : x = a
        · subst hx
          simp
        · simp [hx, hnone x]
      · rw [← h.kernel x]
        by_cases hx : x = a
        · simp [hx, hfree]
        · rw [update_of_ne hx]
      · by_cases hxa : x = a
        · simp [hxa]
        · rw [update_of_ne hxa] at hx ⊢
          exact h.whole x hx
      · exact (hframe'.same _ 2 va (hne q hq).1 (h.space q hq).top).pte

inductive Got (L : Layout) (used : List Nat) (sized : Bool) (k : Kernel) (p : Fin NPROC) :
    Except Panic (Nat × Kernel) → Prop
  | stuck (mapped : leafPte k.phys.mem 2 (k.procs p).pagetable SHM_VA ≠ none)
      (page : k.shm.allocated = true ∨ k.phys.freelist ≠ 0) : Got L used sized k p (.error .mappagesRemap)
  | refused {k' : Kernel} {role' : Nat → Role} (inv : KInv L used sized k' role')
      (tasks : k'.tasks = k.tasks) (procs : k'.procs = k.procs) (keeps : Keeps k k')
      (pte : ∀ q va, k.Live q → va < 2 ^ 39 → leafPte k'.phys.mem 2 (k.procs q).pagetable va =
        leafPte k.phys.mem 2 (k.procs q).pagetable va)
      (shm : k.shm.allocated = true → k'.shm = k.shm)
      (why : leafPte k.phys.mem 2 (k.procs p).pagetable SHM_VA = none ∨
        k.shm.allocated = false ∧ k.phys.freelist = 0) : Got L used sized k p (.ok (0, k'))
  | done {k' : Kernel} {role' : Nat → Role} (inv : KInv L used sized k' role')
      (tasks : k'.tasks = k.tasks) (procs : k'.procs = k.procs) (keeps : Keeps k k')
      (pte : ∀ q va, k.Live q → q ≠ p → leafPte k'.phys.mem 2 (k.procs q).pagetable va =
        leafPte k.phys.mem 2 (k.procs q).pagetable va)
      (shm : k.shm.allocated = true → k'.shm = k.shm)
      (was : leafPte k.phys.mem 2 (k.procs p).pagetable SHM_VA = none) (maps : k'.MapsShm p) :
      Got L used sized k p (.ok (SHM_VA, k'))

theorem KInv.shmMap_spec (h : KInv L used sized k role) (hp : k.Live p) (ha : k.shm.allocated = true)
    (hnone : leafPte k.phys.mem 2 (k.procs p).pagetable SHM_VA = none) :
    ∃ r t role', mappages (k.procs p).pagetable SHM_VA PGSIZE k.shm.shared_page (PTE_W ||| PTE_U)
        k.phys = .ok (r, t) ∧ KInv L used sized { k with phys := t } role' ∧
      Steady k { k with phys := t } ∧ Untouched p k { k with phys := t } ∧
      (r = -1 ∧ (∀ va, va < 2 ^ 39 → leafPte t.mem 2 (k.procs p).pagetable va =
          leafPte k.phys.mem 2 (k.procs p).pagetable va) ∨
        r = 0 ∧ Kernel.MapsShm { k with phys := t } p) := by
  have hsp := h.space p hp
  obtain ⟨t, role', hrole, hmap⟩ := h.vm.mapForeign hsp.top shm_va_lt.2.1 shm_va_lt.2.2.2 hnone
    k.shm.shared_page (PTE_W ||| PTE_U)
  rcases hmap with ⟨hok, hedit⟩ | ⟨hok, hedit, hnew⟩
  · refine ⟨-1, t, role', hok, h.edit_phys hp hedit (hsp.edit hedit ?_ ?_ fun _ _ hlt => hlt),
      h.steady_of_edit_phys hp hedit (fun va h39 _ => (hedit.same va h39 not_false).pte),
      h.untouched_of_edit_phys hp hedit, .inl ⟨rfl, fun va h39 => (hedit.same va h39 not_false).pte⟩⟩
    · exact fun _ hfalse => hfalse.elim
    · exact fun _ hfalse => hfalse.elim
  · have hlow : ∀ va, va / PGSIZE = SHM_VA / PGSIZE → va < TRAPFRAME := by
      intro va hva
      simp only [SHM_VA, TRAPFRAME_eq, PGSIZE_eq] at *
      omega
    refine ⟨0, t, role', hok, h.edit_phys hp hedit (hsp.edit hedit hlow ?_ fun _ _ hlt => hlt),
      h.steady_of_edit_phys hp hedit ?_, h.untouched_of_edit_phys hp hedit, .inr ⟨rfl, ha, ?_⟩⟩
    · intro va hva
      have hshared : role k.shm.shared_page = .shared := (h.shared _).mpr ⟨ha, rfl⟩
      refine .inr (.inr ⟨hva, k.shm.shared_page, ?_, hnew va (high_not_user (hlow va hva)).1 hva⟩)
      rw [hrole _ (by simp [hshared]), hshared]
    · intro va h39 hmapped
      refine (hedit.same va h39 fun hva => hmapped ?_).pte
      rw [leafPte_congr_page shm_va_lt.2.2.1 h39 hva, hnone]
    · exact hnew SHM_VA shm_va_lt.2.2.1 rfl

theorem KInv.shmGet_spec (h : KInv L used sized k role) (hp : k.Live p) :
    Got L used sized k p (shmGet p k) := by
  rw [shmGet]
  rcases h.shmAlloc_spec with ⟨ha, hfree, j, hok, -, hinv, hphys, htasks, hprocs⟩ |
    ⟨hpage, j, role', hok, ha, hinv, htasks, hprocs, hshm, hpte⟩
  · have hlive : ∀ q, j.Live q ↔ k.Live q := fun q => by rw [Kernel.Live, Kernel.Live, htasks]
    simp only [hok, ok_bind, if_true, pure_eq_ok]
    refine .refused hinv htasks hprocs ⟨fun q => (hlive q).mpr, fun q _ => by rw [hprocs], ?_⟩ ?_ ?_
      (.inr ⟨ha, hfree⟩)
    · intro q va _ _ _
      rw [hphys]
    · intro q va _ _
      rw [hphys]
    · simp [ha]
  · have hlive : ∀ q, j.Live q ↔ k.Live q := fun q => by rw [Kernel.Live, Kernel.Live, htasks]
    have hkeeps : Keeps k j :=
      ⟨fun q => (hlive q).mpr, fun q _ => by rw [hprocs], fun q va hq _ _ => hpte q va hq⟩
    have hpj : j.Live p := (hlive p).mpr hp
    simp only [hok, ok_bind, Bool.true_eq_false, if_false]
    cases hmapped : leafPte k.phys.mem 2 (k.procs p).pagetable SHM_VA with
    | some e =>
      rw [hprocs, mappages_remap (e := e) shm_va_lt.2.2.2 shm_va_lt.2.1 (by rw [hpte p SHM_VA hp, hmapped]),
        error_bind]
      exact .stuck (by simp [hmapped]) hpage
    | none =>
      obtain ⟨r, t, role'', hmap, hinv', hsteady, hu, hr⟩ := hinv.shmMap_spec hpj ha
        (by rw [hprocs, hpte p SHM_VA hp, hmapped])
      rw [hmap]
      have hkeeps' := hkeeps.trans hsteady.keeps
      have hothers : ∀ q va, k.Live q → q ≠ p → leafPte t.mem 2 (k.procs q).pagetable va =
          leafPte k.phys.mem 2 (k.procs q).pagetable va := by
        intro q va hq hqp
        have hpte' := hu.pte q va hqp ((hlive q).mpr hq)
        rw [hprocs, hpte q va hq] at hpte'
        exact hpte'
      rcases hr with ⟨rfl, hsame⟩ | ⟨rfl, hmaps⟩
      · simp only [ok_bind, show ((-1 : Int) < 0) from by decide, if_true, pure_eq_ok]
        refine .refused hinv' htasks hprocs hkeeps' ?_ (fun ha' => hsteady.shm.trans (hshm ha'))
          (.inl hmapped)
        intro q va hq h39
        by_cases hqp : q = p
        · subst hqp
          have hsame' := hsame va h39
          rwa [hprocs, hpte q va hq] at hsame'
        · exact hothers q va hq hqp
      · simp only [ok_bind, Int.lt_irrefl, if_false, pure_eq_ok]
        exact .done hinv' htasks hprocs hkeeps' hothers (fun ha' => hsteady.shm.trans (hshm ha'))
          hmapped hmaps

end Xv6
