import Xv6.Proc.Invariant

namespace Xv6

open Lib Function

variable {L : Layout} {used : List Nat} {sized : Bool} {k k' k'' : Kernel} {s t : Phys}
  {role role' role'' : Nat → Role} {X P : Nat → Prop} {p q : Fin NPROC}

def Kernel.Plain (k : Kernel) (e : Pte) : Prop :=
  ¬(k.shm.allocated = true ∧ PTE2PA e = k.shm.shared_page)

structure Untouched (p : Fin NPROC) (k k' : Kernel) : Prop where
  tasks : ∀ q, q ≠ p → k'.tasks q = k.tasks q
  procs : ∀ q, q ≠ p → k'.procs q = k.procs q
  pte : ∀ q va, q ≠ p → k.Live q → leafPte k'.phys.mem 2 (k.procs q).pagetable va =
    leafPte k.phys.mem 2 (k.procs q).pagetable va
  data : ∀ q va e, q ≠ p → k.Live q → va < TRAPFRAME →
    leafPte k.phys.mem 2 (k.procs q).pagetable va = some e → k.Plain e →
    k'.phys.mem (PTE2PA e) = k.phys.mem (PTE2PA e)
  shm : k'.shm = k.shm
  initproc : k'.initproc = k.initproc

theorem Untouched.live (h : Untouched p k k') (hq : q ≠ p) : k'.Live q ↔ k.Live q := by
  rw [Kernel.Live, Kernel.Live, h.tasks q hq]

theorem Untouched.swap (h : Untouched p k k') : Swap p k k' :=
  ⟨fun _ hq => h.live hq, fun q hq => by rw [h.procs q hq]; exact ⟨rfl, rfl, rfl⟩, h.shm⟩

theorem Untouched.trans (h : Untouched p k k') (h' : Untouched p k' k'') : Untouched p k k'' where
  tasks := fun q hq => (h'.tasks q hq).trans (h.tasks q hq)
  procs := fun q hq => (h'.procs q hq).trans (h.procs q hq)
  pte := by
    intro q va hq hl
    have hpte := h'.pte q va hq ((h.live hq).mpr hl)
    rw [h.procs q hq] at hpte
    rw [hpte, h.pte q va hq hl]
  data := by
    intro q va e hq hl hva hpte hplain
    have hdata := h'.data q va e hq ((h.live hq).mpr hl) hva
    rw [h.procs q hq, h.pte q va hq hl, Kernel.Plain, h.shm] at hdata
    rw [hdata hpte hplain, h.data q va e hq hl hva hpte hplain]
  shm := h'.shm.trans h.shm
  initproc := h'.initproc.trans h.initproc

theorem Untouched.refl (p : Fin NPROC) (k : Kernel) : Untouched p k k :=
  ⟨fun _ _ => rfl, fun _ _ => rfl, fun _ _ _ _ => rfl, fun _ _ _ _ _ _ _ _ => rfl, rfl, rfl⟩

section

variable (h : KInv L used sized k role)
include h

theorem KInv.user_of_plain (hp : k.Live p) (hva : va < TRAPFRAME)
    (hpte : leafPte k.phys.mem 2 (k.procs p).pagetable va = some e) (hplain : k.Plain e) :
    va < limit sized (k.procs p).sz ∧ UserLeaf k.phys.mem role 2 (k.procs p).pagetable va := by
  rcases (h.space p hp).user va hva with hnone | hu | ⟨-, pa, hpa, hs⟩
  · simp [hnone] at hpte
  · exact hu
  · have hpage := h.vm.page pa (by simp [hpa]) (by simp [hpa])
    rw [hs, Option.some.injEq] at hpte
    rw [Kernel.Plain, ← hpte, PTE2PA_leaf hpage.lt_pow hpage.1 (by decide)] at hplain
    exact absurd ((h.shared pa).mp hpa) hplain

theorem KInv.pte_of_frame (hf : Frame X k.phys.mem role t.mem role') (hX : ∀ x, X x → Private k role p role' x)
    (hq : q ≠ p) (hl : k.Live q) (va : Nat) :
    leafPte t.mem 2 (k.procs q).pagetable va = leafPte k.phys.mem 2 (k.procs q).pagetable va :=
  (hf.same _ 2 va (fun hx => ((hX _ hx).2.2 q hq hl).1 rfl) (h.space q hl).top).pte

theorem KInv.data_of_frame (hf : Frame X k.phys.mem role t.mem role') (hX : ∀ x, X x → Private k role p role' x)
    (hq : q ≠ p) (hl : k.Live q) (hva : va < TRAPFRAME)
    (hpte : leafPte k.phys.mem 2 (k.procs q).pagetable va = some e) (hplain : k.Plain e) :
    t.mem (PTE2PA e) = k.phys.mem (PTE2PA e) :=
  (hf.same _ 2 va (fun hx => ((hX _ hx).2.2 q hq hl).1 rfl) (h.space q hl).top).data
    (h.user_of_plain hl hva hpte hplain).2 e hpte

theorem KInv.unseen (hvm : Vm L t role') (hf : Frame (fun _ => False) k.phys.mem role t.mem role') (p : Fin NPROC) :
    KInv L used sized { k with phys := t } role' ∧ Untouched p k { k with phys := t } := by
  have hX : ∀ x, False → Private k role p role' x := fun _ hfalse => hfalse.elim
  refine ⟨h.swap (.refl p k t) hvm hf hX (fun hp => ?_) (h.unused p) (fun hsz => h.size hsz p)
    fun _ _ hor => hor.resolve_left not_false, fun _ _ => rfl, fun _ _ => rfl,
    fun q va hq hl => h.pte_of_frame hf hX hq hl va,
    fun _ _ _ hq hl => h.data_of_frame hf hX hq hl, rfl, rfl⟩
  have hslot := h.slot (p := p) hp
  refine ⟨hslot.space.frame_of hf not_false fun _ hfalse => hfalse.elim, ?_, hslot.root_ne,
    hslot.frame_ne⟩
  rw [hf.role_eq _ not_false (.inl (by rw [hslot.frame]; rfl)), hslot.frame]

theorem KInv.private_frame (hp : k.Live p) (hr : (role' (k.procs p).trapframe).common = false) :
    Private k role p role' (k.procs p).trapframe := by
  refine ⟨by simp [h.frame p hp], hr, fun q hq hl => ⟨?_, (h.slot hp).frame_ne q hq hl⟩⟩
  intro heq
  have hframe := h.frame p hp
  simp [heq, (h.space q hl).top] at hframe

theorem KInv.untouched_of_edit (hp : k.Live p) (he : Edit L k.phys role t role' (k.procs p).pagetable P)
    (proc : Proc) : Untouched p k { k.setProc p proc with phys := t } := by
  have hX : ∀ x, x = (k.procs p).pagetable → Private k role p role' x := by
    rintro x rfl
    exact h.private_root hp (by simp [he.top])
  exact ⟨fun _ _ => rfl, fun q hq => k.setProc_of_ne proc hq,
    fun q va hq hl => h.pte_of_frame he.frame hX hq hl va,
    fun _ _ _ hq hl => h.data_of_frame he.frame hX hq hl, rfl, rfl⟩

theorem KInv.untouched_of_edit_phys (hp : k.Live p) (he : Edit L k.phys role t role' (k.procs p).pagetable P) :
    Untouched p k { k with phys := t } := by
  have hu := h.untouched_of_edit hp he { k.procs p with sz := (k.procs p).sz }
  rwa [Kernel.setProc_sz] at hu

end

-- What a process has mapped has to be below its size if it is to be torn down.
def Disposable (k : Kernel) (role : Nat → Role) (p : Fin NPROC) : Prop :=
  (k.procs p).sz ≤ MAXVA ∧ ∀ va, va < TRAPFRAME →
    leafPte k.phys.mem 2 (k.procs p).pagetable va = none ∨
    va < PGROUNDUP (k.procs p).sz ∧ UserLeaf k.phys.mem role 2 (k.procs p).pagetable va

theorem KInv.disposable (h : KInv L used true k role) (hp : k.Live p)
    (hshm : ∀ va, va < TRAPFRAME → ¬SharedAt k.phys.mem role (k.procs p).pagetable va) :
    Disposable k role p := by
  refine ⟨?_, fun va hva => ?_⟩
  · have := h.size rfl p
    simp only [TRAPFRAME_eq, MAXVA_eq] at *
    omega
  · rcases (h.space p hp).user va hva with hn | hu | hs
    · exact .inl hn
    · exact .inr hu
    · exact absurd hs (hshm va hva)

section

variable (proc : Proc) (h : Vm L s role) (hsp : Space L s.mem role proc.pagetable proc.trapframe lim)
  (hframe : role proc.trapframe = .frame)
include proc h hsp hframe

theorem Vm.freeprocMem_eq :
    ∃ u, freeprocMem L proc s = procFreepagetable L proc.pagetable proc.sz u ∧
      IsPage L proc.trapframe ∧ proc.pagetable ≠ proc.trapframe ∧
      Vm L u (update role proc.trapframe .free) ∧
      Space L u.mem (update role proc.trapframe .free) proc.pagetable proc.trapframe lim ∧
      Frame (· = proc.trapframe) s.mem role u.mem (update role proc.trapframe .free) := by
  generalize htf : proc.trapframe = tf at *
  generalize hr : proc.pagetable = r at *
  have hpage : IsPage L tf := h.page tf (by simp [hframe]) (by simp [hframe])
  have hpage' : IsPage L r := h.page r (by simp [hsp.top]) (by simp [hsp.top])
  have hrtf : r ≠ tf := by
    intro heq
    have htop := hsp.top
    simp [heq, hframe] at htop
  obtain ⟨u, hkf, hu, -, hframe1⟩ := h.kfree_spec (a := tf) (by rw [hframe]; rfl)
    (by simp [hframe]) hpage
  refine ⟨u, ?_, hpage, hrtf, hu, hsp.frame_of hframe1 hrtf fun x hx => by simp [hx, hframe], hframe1⟩
  simp only [freeprocMem, htf, hr, ne_eq, Nat.ne_of_gt hpage.pos, Nat.ne_of_gt hpage'.pos,
    not_false_eq_true, if_true, hkf, ok_bind]

theorem Vm.freeprocMem_spec (hsz : proc.sz ≤ MAXVA)
    (hd : ∀ va, va < TRAPFRAME → leafPte s.mem 2 proc.pagetable va = none ∨ va < PGROUNDUP proc.sz ∧ UserLeaf s.mem role 2 proc.pagetable va) :
    ∃ t role', freeprocMem L proc s = .ok t ∧ Vm L t role' ∧ role' proc.pagetable = .free ∧
      (role' proc.trapframe).pinned = false ∧
      Frame (fun x => x = proc.pagetable ∨ x = proc.trapframe) s.mem role t.mem role' := by
  obtain ⟨u, hmem, hpage, hrtf, hu, hspu, hframe1⟩ := h.freeprocMem_eq proc hsp hframe
  obtain ⟨t, role', hfree, ht, hrfree, hframe2⟩ := hu.procFreepagetable_spec proc.sz hspu
    hpage (by simp) hsz (by
      intro va hva
      have hsame := hframe1.same _ 2 va hrtf hsp.top
      exact (hd va hva).imp hsame.pte.trans fun hu => ⟨hu.1, hsame.user hu.2⟩)
  refine ⟨t, role', by rw [hmem, hfree], ht, hrfree, ?_,
    (hframe1.mono fun _ hx => .inr hx).trans (hframe2.mono fun _ hx => .inl hx)⟩
  by_contra hpinned
  have hrole := hframe2.role_eq _ hrtf.symm (.inr (by simpa using hpinned))
  rw [hrole] at hpinned
  simp [Role.pinned] at hpinned

end

theorem KInv.freeproc_halts (h : KInv L used true k role) (hp : k.Live p)
    (hsz : PGROUNDUP (k.procs p).sz ≤ SHM_VA) (hshm : SharedAt k.phys.mem role (k.procs p).pagetable SHM_VA) :
    freeproc L p k = .error .freewalkLeaf := by
  obtain ⟨u, hmem, hpage, hrtf, hu, hspu, hframe1⟩ := h.vm.freeprocMem_eq _ (h.space p hp) (h.frame p hp)
  have hshm' : SharedAt u.mem (update role (k.procs p).trapframe .free) (k.procs p).pagetable
      SHM_VA := by
    obtain ⟨heq, pa, hpa, hpte⟩ := hshm
    refine ⟨heq, pa, ?_, (hframe1.same _ 2 SHM_VA hrtf (h.space p hp).top).pte.trans hpte⟩
    rw [update_of_ne, hpa]
    rintro rfl
    simp [h.frame p hp] at hpa
  rw [limit_true] at hspu
  rw [freeproc, hmem, hu.procFreepagetable_halts hspu hpage (by simp) hsz (Nat.le_refl _) hshm', error_bind]

theorem KInv.freeproc_spec (h : KInv L used sized k role) (hp : k.Live p) (hd : Disposable k role p) :
    ∃ k' role', freeproc L p k = .ok k' ∧ KInv L used sized k' role' ∧ ¬k'.Live p ∧ Untouched p k k' := by
  obtain ⟨t, role', hmem, ht, hrfree, htffree, htotal⟩ :=
    h.vm.freeprocMem_spec _ (h.space p hp) (h.frame p hp) hd.1 hd.2
  generalize hr : (k.procs p).pagetable = r at *
  generalize htf : (k.procs p).trapframe = tf at *
  have hX : ∀ x, x = r ∨ x = tf → Private k role p role' x := by
    intro x hx
    rcases hx with rfl | rfl
    · rw [← hr]
      exact h.private_root hp (by rw [hr, hrfree]; simp)
    · rw [← htf]
      exact h.private_frame hp (by rw [htf]; exact Role.not_common_of_not_pinned htffree)
  have hok : freeproc L p k = .ok { k with
      phys := t
      procs := update k.procs p
        { pid := 0, parent := none, xstate := 0, sz := 0, pagetable := 0, trapframe := 0 }
      tasks := update k.tasks p { state := .UNUSED, chan := none, killed := false } } := by
    rw [freeproc, hmem, ok_bind, pure_eq_ok]
  refine ⟨_, role', hok, ?_, ?_, ?_⟩
  · refine h.swap (p := p) ⟨fun q hq => ?_, fun q hq => ?_, rfl⟩ ht htotal hX ?_ ?_ ?_ ?_
    · simp [Kernel.Live, hq]
    · simp [hq]
    · intro hlive
      simp [Kernel.Live] at hlive
    · simp
    · simp
    · intro x hpinned hor
      have hx : x = r ∨ x = tf := by
        rcases hor with hx | ⟨-, hx⟩
        · exact hx
        · rwa [hr, htf] at hx
      rcases hx with rfl | rfl
      · simp [hrfree, Role.pinned] at hpinned
      · simp [htffree] at hpinned
  · simp [Kernel.Live]
  · exact ⟨fun q hq => by simp [hq], fun q hq => by simp [hq],
      fun q va hq hl => h.pte_of_frame htotal hX hq hl va,
      fun _ _ _ hq hl => h.data_of_frame htotal hX hq hl, rfl, rfl⟩

-- Every process of k is still there, with at least what it had mapped.
structure Keeps (k k' : Kernel) : Prop where
  live : ∀ q, k.Live q → k'.Live q
  root : ∀ q, k.Live q → (k'.procs q).pagetable = (k.procs q).pagetable
  pte : ∀ q va, k.Live q → va < 2 ^ 39 → leafPte k.phys.mem 2 (k.procs q).pagetable va ≠ none →
    leafPte k'.phys.mem 2 (k.procs q).pagetable va = leafPte k.phys.mem 2 (k.procs q).pagetable va

theorem Keeps.refl (k : Kernel) : Keeps k k := ⟨fun _ h => h, fun _ _ => rfl, fun _ _ _ _ _ => rfl⟩

structure Steady (k k' : Kernel) : Prop where
  live : ∀ q, k'.Live q ↔ k.Live q
  keeps : Keeps k k'
  shm : k'.shm = k.shm

theorem Untouched.keeps (h : Untouched p k k') (hp : ¬k.Live p) : Keeps k k' := by
  have hne : ∀ q, k.Live q → q ≠ p := fun q hq heq => hp (heq ▸ hq)
  exact ⟨fun q hq => (h.live (hne q hq)).mpr hq, fun q hq => by rw [h.procs q (hne q hq)],
    fun q va hq _ _ => h.pte q va (hne q hq) hq⟩

theorem Untouched.steady (h : Untouched p k k') (hp : ¬k.Live p) (hp' : ¬k'.Live p) :
    Steady k k' := by
  refine ⟨fun q => ?_, h.keeps hp, h.shm⟩
  by_cases hq : q = p
  · subst hq
    exact iff_of_false hp' hp
  · exact h.live hq

structure Intact (k k' : Kernel) : Prop where
  tasks : ∀ q, k.Live q → k'.tasks q = k.tasks q
  procs : ∀ q, k.Live q → k'.procs q = k.procs q
  pte : ∀ q va, k.Live q → leafPte k'.phys.mem 2 (k.procs q).pagetable va =
    leafPte k.phys.mem 2 (k.procs q).pagetable va
  data : ∀ q va e, k.Live q → va < TRAPFRAME →
    leafPte k.phys.mem 2 (k.procs q).pagetable va = some e → k.Plain e →
    k'.phys.mem (PTE2PA e) = k.phys.mem (PTE2PA e)
  shm : k'.shm = k.shm
  initproc : k'.initproc = k.initproc

theorem Intact.refl (k : Kernel) : Intact k k :=
  ⟨fun _ _ => rfl, fun _ _ => rfl, fun _ _ _ => rfl, fun _ _ _ _ _ _ _ => rfl, rfl, rfl⟩

theorem Untouched.intact (h : Untouched p k k') (hp : ¬k.Live p) : Intact k k' := by
  have hne : ∀ q, k.Live q → q ≠ p := fun q hq heq => hp (heq ▸ hq)
  exact ⟨fun q hq => h.tasks q (hne q hq), fun q hq => h.procs q (hne q hq),
    fun q va hq => h.pte q va (hne q hq) hq, fun q va e hq => h.data q va e (hne q hq) hq, h.shm,
    h.initproc⟩

theorem KInv.private_free (h : KInv L used sized k role) (hx : role x = .free) (hr : (role' x).common = false) :
    Private k role p role' x := by
  refine ⟨by simp [hx], hr, fun q _ hl => ⟨?_, ?_⟩⟩
  · intro heq
    have htop := (h.space q hl).top
    simp [← heq, hx] at htop
  · intro heq
    have hframe := h.frame q hl
    simp [← heq, hx] at hframe

inductive Allocated (L : Layout) (used : List Nat) (sized : Bool) (k : Kernel) :
    Except Panic (Option (Fin NPROC) × Kernel) → Prop
  | full {k' : Kernel} {role' : Nat → Role} (inv : KInv L used sized k' role') (same : Steady k k')
      (intact : Intact k k') :
      Allocated L used sized k (.ok (none, k'))
  | done {p : Fin NPROC} {k' : Kernel} {role' : Nat → Role} (inv : KInv L used sized k' role')
      (slot : ¬k.Live p) (live : k'.Live p) (untouched : Untouched p k k')
      (size : (k'.procs p).sz = 0)
      (empty : ∀ va, va < TRAPFRAME → leafPte k'.phys.mem 2 (k'.procs p).pagetable va = none) :
      Allocated L used sized k (.ok (some p, k'))

theorem KInv.abandon (h : KInv L used sized k role) (hp : ¬k.Live p) (hvm : Vm L t role')
    (hf : Frame (fun _ => False) k.phys.mem role t.mem role') (pid : Int) :
    Allocated L used sized k (.ok (none, { k with
      phys := t
      nextpid := pid
      procs := update k.procs p
        { pid := 0, parent := none, xstate := 0, sz := 0, pagetable := 0, trapframe := 0 }
      tasks := update k.tasks p { state := .UNUSED, chan := none, killed := false } })) := by
  generalize hk' : Kernel.mk t _ _ pid k.initproc k.shm = k'
  have htasks : ∀ q, q ≠ p → k'.tasks q = k.tasks q := by
    intro q hq
    simp [← hk', hq]
  have hdead : ¬k'.Live p := by simp [← hk', Kernel.Live]
  have huntouched : Untouched p k k' := by
    have hX : ∀ x, False → Private k role p role' x := fun _ hfalse => hfalse.elim
    refine ⟨htasks, fun q hq => by simp [← hk', hq], fun q va hq hl => ?_,
      fun q va e hq hl hva hpte hplain => ?_, by simp [← hk'], by simp [← hk']⟩
    · rw [← hk']
      exact h.pte_of_frame hf hX hq hl va
    · rw [← hk']
      exact h.data_of_frame hf hX hq hl hva hpte hplain
  refine .full (?_ : KInv L used sized _ role') (huntouched.steady hp hdead) (huntouched.intact hp)
  refine h.swap (p := p) (X := fun _ => False) huntouched.swap (by rw [← hk']; exact hvm)
    (by rw [← hk']; exact hf) (fun _ hx => hx.elim) (fun hl => absurd hl hdead) ?_ ?_ ?_
  · simp [← hk']
  · simp [← hk']
  · rintro x - (hfalse | ⟨hl, -⟩)
    · exact hfalse.elim
    · exact absurd hl hp

theorem Vm.allocprocAt_spec (h : Vm L k.phys role) (hpt0 : (k.procs p).pagetable = 0) :
    (∃ t role', allocprocAt L p k = .ok (none, { k with
        phys := t
        nextpid := wrap32 (k.nextpid + 1)
        procs := update k.procs p
          { pid := 0, parent := none, xstate := 0, sz := 0, pagetable := 0, trapframe := 0 }
        tasks := update k.tasks p { state := .UNUSED, chan := none, killed := false } }) ∧
      Vm L t role' ∧ Frame (fun _ => False) k.phys.mem role t.mem role') ∨
    ∃ tf r t role', allocprocAt L p k = .ok (some p, { k with
        phys := t
        nextpid := wrap32 (k.nextpid + 1)
        procs := update k.procs p
          { k.procs p with pid := k.nextpid, trapframe := tf, pagetable := r }
        tasks := update k.tasks p { k.tasks p with state := .USED } }) ∧
      role tf = .free ∧ role r = .free ∧ role' tf = .frame ∧ Vm L t role' ∧
      (∀ lim, Space L t.mem role' r tf lim) ∧ (∀ va, va < TRAPFRAME → leafPte t.mem 2 r va = none) ∧
      Frame (fun x => x = r ∨ x = tf) k.phys.mem role t.mem role' := by
  rcases h.kalloc_spec with ⟨hk, -⟩ | ⟨tf, u, hk, htf, hfree, hpage, hu, -, hframe⟩
  · refine .inl ⟨k.phys, role, ?_, h, .refl ..⟩
    simp only [allocprocAt, hk, ok_bind, if_true, freeproc, freeprocMem, Kernel.setProc_self, hpt0,
      ne_eq, not_true_eq_false, if_false, pure_eq_ok]
    simp only [Kernel.setProc, update_idem]
  have hheld : update role tf Role.held tf = .held := update_self ..
  have hu' := hu.relabel (a := tf) (ρ := .frame) (by rw [hheld]; rfl) rfl (by rw [hheld]; simp)
    (by simp) hpage
  rw [update_idem] at hu'
  have hframe1 : Frame (· = tf) k.phys.mem role u.mem (update role tf .frame) := by
    have hrelabel : Frame (· = tf) u.mem _ u.mem (update role tf .frame) := hu.wired.frame_loose
      (by rw [hheld]; rfl) (fun _ _ => rfl) (fun x hx => by
        rw [update_of_ne hx, update_of_ne hx])
    exact hframe.trans hrelabel
  have hpos : tf ≠ 0 := htf
  rcases hu'.procPagetable_spec tf with ⟨t, role', hpt, ht, hall⟩ |
    ⟨r, t, role', hpt, hr0, hrfree, ht, hsp, hempty, hframe2⟩
  · have htframe : role' tf = .frame := by
      rw [hall.role_eq tf not_false (.inl (by simp [Role.pinned])), update_self]
    obtain ⟨w, hkf, hw, -, hframe3⟩ := ht.kfree_spec (a := tf) (by rw [htframe]; rfl)
      (by simp [htframe]) hpage
    have htotal : Frame (fun _ => False) k.phys.mem role w.mem (update role' tf .free) := by
      refine ((hframe1.trans (hall.mono fun _ hx => hx.elim)).trans hframe3).shrink ?_
      intro x hx _
      left
      simp [hx, hfree, Role.pinned]
    refine .inl ⟨w, _, ?_, hw, htotal⟩
    simp only [allocprocAt, hk, ok_bind, hpt, if_true, freeproc, freeprocMem,
      Kernel.setProc_self, ne_eq, hpos, not_false_eq_true, hkf, not_true_eq_false, if_false,
      pure_eq_ok]
    simp only [Kernel.setProc, update_idem]
  · have hrtf : tf ≠ r := by
      intro heq
      rw [← heq, update_self] at hrfree
      simp at hrfree
    refine .inr ⟨tf, r, t, role', ?_, hfree, by rwa [update_of_ne hrtf.symm] at hrfree, ?_, ht,
      hsp, hempty, (hframe1.mono fun _ hx => .inr hx).trans (hframe2.mono fun _ hx => .inl hx)⟩
    · simp only [allocprocAt, hk, ok_bind, if_neg htf, hpt, if_neg hr0, pure_eq_ok, Kernel.setProc]
    · rw [hframe2.role_eq tf hrtf (.inl (by simp [Role.pinned])), update_self]

theorem KInv.allocprocAt_spec (h : KInv L used sized k role) (hp : ¬k.Live p) :
    Allocated L used sized k (allocprocAt L p k) := by
  obtain ⟨hpt0, htf0, hsz0⟩ := h.unused p hp
  rcases h.vm.allocprocAt_spec hpt0 with ⟨t, role', hok, ht, hframe⟩ |
    ⟨tf, r, t, role', hok, hfree, hrfree, htframe, ht, hsp, hempty, htotal⟩
  · rw [hok]
    exact h.abandon hp ht hframe _
  have hX : ∀ x, x = r ∨ x = tf → Private k role p role' x := by
    rintro x (rfl | rfl)
    · exact h.private_free hrfree (by simp [(hsp 0).top])
    · exact h.private_free hfree (by simp [htframe])
  rw [hok]
  have huntouched : Untouched p k { k with
      phys := t
      nextpid := wrap32 (k.nextpid + 1)
      procs := update k.procs p
        { k.procs p with pid := k.nextpid, trapframe := tf, pagetable := r }
      tasks := update k.tasks p { k.tasks p with state := .USED } } :=
    ⟨fun q hq => by simp [hq], fun q hq => by simp [hq],
      fun q va hq hl => h.pte_of_frame htotal hX hq hl va,
      fun _ _ _ hq hl => h.data_of_frame htotal hX hq hl, rfl, rfl⟩
  refine .done (?_ : KInv L used sized _ role') hp (by simp [Kernel.Live]) huntouched (by simp [hsz0])
    (by simpa using hempty)
  refine h.swap (p := p) huntouched.swap ht htotal hX ?_ ?_ ?_ ?_
  · intro _
    refine ⟨by simpa using hsp _, by simpa using htframe, fun q hq hl => ?_, fun q hq hl => ?_⟩
    · rw [huntouched.live hq] at hl
      simp only [update_self, update_of_ne hq]
      exact ((hX r (.inl rfl)).2.2 q hq hl).1
    · rw [huntouched.live hq] at hl
      simp only [update_self, update_of_ne hq]
      exact ((hX tf (.inr rfl)).2.2 q hq hl).2
  · intro hdead
    simp [Kernel.Live] at hdead
  · intro _
    simp [hsz0]
  · rintro x - (hx | ⟨hl, -⟩)
    · exact ⟨by simp [Kernel.Live], by simpa using hx⟩
    · exact absurd hl hp

theorem KInv.allocproc_spec (h : KInv L used sized k role) : Allocated L used sized k (allocproc L k) := by
  rw [allocproc]
  cases hfind : (List.finRange NPROC).find? fun p => (k.tasks p).state = .UNUSED with
  | none => exact .full h ⟨fun _ => Iff.rfl, .refl k, rfl⟩ (.refl k)
  | some p =>
    apply h.allocprocAt_spec
    have hstate := List.find?_some hfind
    simpa [Kernel.Live] using hstate

theorem Space.of_empty (h : Space L m role r tf lim)
    (hempty : ∀ va, va < TRAPFRAME → leafPte m 2 r va = none) (lim' : Nat) :
    Space L m role r tf lim' :=
  ⟨h.top, h.tramp, h.frame, h.high, fun va hva => .inl (hempty va hva)⟩

theorem KInv.write_frame (h : KInv L used sized k role) (hp : k.Live p) (hfl : t.freelist = k.phys.freelist)
    (hrc : t.refcount = k.phys.refcount) (hm : ∀ a, a ≠ (k.procs p).trapframe → t.mem a = k.phys.mem a) :
    KInv L used sized { k with phys := t } role ∧ Untouched p k { k with phys := t } ∧
      ∀ va, Same k.phys.mem role t.mem role 2 (k.procs p).pagetable va := by
  have hframe := h.frame p hp
  have hf : Frame (· = (k.procs p).trapframe) k.phys.mem role t.mem role :=
    h.vm.wired.frame_loose (by rw [hframe]; rfl) hm fun _ _ => rfl
  have hX : ∀ x, x = (k.procs p).trapframe → Private k role p role x := by
    rintro x rfl
    exact h.private_frame hp (by simp [hframe])
  have hvm : Vm L t role := by
    refine h.vm.write hfl hrc fun a ha => hm a ?_
    rintro rfl
    simp [hframe, Role.level] at ha
  have htop := (h.space p hp).top
  have hne : (k.procs p).pagetable ≠ (k.procs p).trapframe := by
    intro heq
    simp [heq, hframe] at htop
  have hslot := h.slot hp
  refine ⟨h.swap (.refl p k t) hvm hf hX (fun _ => ?_) (fun hdead => absurd hp hdead)
    (fun hsz => h.size hsz p) (fun x _ hor => ⟨hp, hor.elim .inr fun hx => hx.2⟩), ⟨fun _ _ => rfl, fun _ _ => rfl,
    fun q va hq hl => h.pte_of_frame hf hX hq hl va,
    fun _ _ _ hq hl => h.data_of_frame hf hX hq hl, rfl, rfl⟩, fun va => hf.same _ 2 va hne htop⟩
  exact ⟨hslot.space.frame_of hf hne fun x hx => Role.ne_shared_of_not_common (hX x hx).1, hslot.frame, hslot.root_ne,
    hslot.frame_ne⟩

inductive Forked (L : Layout) (used : List Nat) (sized : Bool) (k : Kernel) (p : Fin NPROC) :
    Except Panic (Int × Kernel) → Prop
  | stuck {e : Panic} (panic : e = .walk ∨ e = .mappagesRemap) (why : TRAPFRAME < (k.procs p).sz) :
      Forked L used sized k p (.error e)
  | failed {k' : Kernel} {role' : Nat → Role} (inv : KInv L used sized k' role') (same : Steady k k')
      (intact : Intact k k') :
      Forked L used sized k p (.ok (-1, k'))
  | done {np : Fin NPROC} {pid : Int} {k' : Kernel} {role' : Nat → Role}
      (inv : KInv L used sized k' role') (slot : ¬k.Live np) (live : k'.Live np)
      (untouched : Untouched np k k') (parent : (k'.procs np).parent = some p)
      (size : (k'.procs np).sz = (k.procs p).sz)
      (copied : ∀ va e, va < TRAPFRAME → PGROUNDDOWN va < (k.procs p).sz →
        leafPte k.phys.mem 2 (k.procs p).pagetable va = some e →
        ∃ pa, leafPte k'.phys.mem 2 (k'.procs np).pagetable va = some (PA2PTE pa ||| PTE_FLAGS e ||| PTE_V) ∧
          (k.Plain e → k'.phys.mem (PTE2PA (PA2PTE pa ||| PTE_FLAGS e ||| PTE_V)) =
            k.phys.mem (PTE2PA e)))
      (holes : ∀ va, va < TRAPFRAME →
        leafPte k.phys.mem 2 (k.procs p).pagetable va = none ∨ (k.procs p).sz ≤ PGROUNDDOWN va →
        leafPte k'.phys.mem 2 (k'.procs np).pagetable va = none)
      (own : ∀ va, va < TRAPFRAME → leafPte k'.phys.mem 2 (k'.procs np).pagetable va = none ∨
        UserLeaf k'.phys.mem role' 2 (k'.procs np).pagetable va) :
      Forked L used sized k p (.ok (pid, k'))

theorem KInv.fork_undo (h : KInv L used sized k role) (hp : k.Live p) (hsz : (k.procs p).sz = 0)
    (he : Edit L k.phys role t role' (k.procs p).pagetable P)
    (hempty : ∀ va, va < TRAPFRAME → leafPte t.mem 2 (k.procs p).pagetable va = none)
    (hlow : ∀ va, P va → va < TRAPFRAME) :
    ∃ k' role'', freeproc L p { k with phys := t } = .ok k' ∧ KInv L used sized k' role'' ∧
      ¬k'.Live p ∧ Untouched p k k' := by
  have hsp : Space L t.mem role' (k.procs p).pagetable (k.procs p).trapframe
      (limit sized (k.procs p).sz) :=
    (h.space p hp).edit he hlow (fun va hva => .inl (hempty va (hlow va hva))) fun _ _ hlt => hlt
  have hinv : KInv L used sized { k with phys := t } role' := h.edit_phys hp he hsp
  have huntouched := h.untouched_of_edit_phys hp he
  obtain ⟨k', role'', hok, hinv', hdead, huntouched'⟩ := hinv.freeproc_spec (p := p) hp
    ⟨by simp [hsz], fun va hva => .inl (hempty va hva)⟩
  exact ⟨k', role'', hok, hinv', hdead, huntouched.trans huntouched'⟩

theorem ahead_lt_limit (hsz : sz ≤ TRAPFRAME) (h : Ahead 0 sz va) : va < limit sized sz := by
  have hup := pgroundup_bounds (x := sz) (by simp only [TRAPFRAME_eq, MAXVA_eq] at *; omega)
  obtain ⟨-, hlt⟩ := h
  have hdown := pgrounddown_bounds va
  rw [limit]
  simp only [TRAPFRAME_eq, PGSIZE_eq] at *
  split <;> omega

theorem KInv.fork_copied (h : KInv L used sized k role) (hnp : k.Live np)
    (hempty : ∀ va, va < TRAPFRAME → leafPte k.phys.mem 2 (k.procs np).pagetable va = none)
    (hsz : sz ≤ TRAPFRAME) (he : Edit L k.phys role t role' (k.procs np).pagetable (Ahead 0 sz))
    (hcopied : ∀ va, Ahead 0 sz va →
      CopiedAt m D k.phys role t role' old (k.procs np).pagetable va) :
    KInv L used sized { k.setProc np { k.procs np with sz := sz } with phys := t } role' ∧
      ∀ va, va < TRAPFRAME → leafPte t.mem 2 (k.procs np).pagetable va = none ∨
        va < limit sized sz ∧ UserLeaf t.mem role' 2 (k.procs np).pagetable va := by
  have hlow : ∀ va, Ahead 0 sz va → va < TRAPFRAME := by
    intro va hva
    have hlim : va < limit false sz := ahead_lt_limit hsz hva
    rwa [limit_false] at hlim
  have hown : ∀ va, va < TRAPFRAME → leafPte t.mem 2 (k.procs np).pagetable va = none ∨
      va < limit sized sz ∧ UserLeaf t.mem role' 2 (k.procs np).pagetable va := by
    intro va hva
    by_cases hahead : Ahead 0 sz va
    · cases hold : leafPte m 2 old va with
      | none => exact .inl (((hcopied va hahead).skip hold).pte.trans (hempty va hva))
      | some e =>
        obtain ⟨pa, -, huser, -⟩ := (hcopied va hahead).copy e hold
        exact .inr ⟨ahead_lt_limit hsz hahead, huser⟩
    · exact .inl ((he.same va (high_not_user hva).1 hahead).pte.trans (hempty va hva))
  refine ⟨h.edit _ hnp he ?_ (fun _ => hsz), hown⟩
  refine ((h.space np hnp).of_empty hempty 0).edit he hlow (fun va hva => ?_) fun _ _ hlt => by omega
  exact (hown va (hlow va hva)).imp id .inl

theorem KInv.fork_spec (h : KInv L used sized k role) (hp : k.Live p) :
    Forked L used sized k p (fork L p k) := by
  rw [fork]
  have halloc := h.allocproc_spec
  generalize allocproc L k = res at halloc
  cases halloc with
  | full inv same intact => exact .failed inv same intact
  | @done np j role' inv slot live untouched size empty =>
    have hne : p ≠ np := fun heq => slot (heq ▸ hp)
    have hpj : j.Live p := (untouched.live hne).mpr hp
    simp only [ok_bind, untouched.procs p hne]
    have hsp := inv.space p hpj
    rw [untouched.procs p hne] at hsp
    have hframe : ∀ r tf lim, Space L j.phys.mem role' r tf lim →
        leafPte j.phys.mem 2 r TRAPFRAME ≠ none := by
      intro r tf lim hs
      rw [hs.frame TRAPFRAME (by simp only [TRAPFRAME_eq]; omega) rfl]
      simp
    have hcopy := inv.vm.uvmcopy_spec (source_top ..) ⟨hsp.top, fun _ => .refl ..⟩ (inv.space np live).top
      (k.procs p).sz (hframe _ _ _ hsp) (hframe _ _ _ (inv.space np live)) fun va hva => .inl (empty va hva)
    generalize uvmcopy L (k.procs p).pagetable (j.procs np).pagetable (k.procs p).sz j.phys = res
      at hcopy
    cases hcopy with
    | stuck panic why =>
      refine .stuck panic (why.resolve_right ?_)
      rintro ⟨va, hva, hmapped⟩
      exact hmapped (empty va hva)
    | @full t role'' i below edit none =>
      have hempty : ∀ va, va < TRAPFRAME → leafPte t.mem 2 (j.procs np).pagetable va = .none := by
        intro va hva
        by_cases hi : va < i
        · exact none va hi
        · exact (edit.same va (high_not_user hva).1 hi).pte.trans (empty va hva)
      obtain ⟨k', ρ, hok, hinv, hdead, huntouched⟩ := inv.fork_undo live size edit hempty
        fun va hva => by omega
      simp only [ok_bind, show ((-1 : Int) < 0) from by decide, if_true, hok, pure_eq_ok]
      have hall := untouched.trans huntouched
      exact .failed hinv (hall.steady slot hdead) (hall.intact slot)
    | @done t role'' below edit was copied =>
      obtain ⟨hinv, hown⟩ := inv.fork_copied live empty below edit copied
      simp only [ok_bind, show ¬((0 : Int) < 0) from by decide, if_false, pure_eq_ok]
      have huntouched := inv.untouched_of_edit live edit { j.procs np with sz := (k.procs p).sz }
      generalize hw : (t.copyFrame (j.procs np).trapframe (k.procs p).trapframe).store
        (j.procs np).trapframe TF_A0 0#64 = w
      obtain ⟨hinv', huntouched', hsame⟩ := hinv.write_frame (p := np) (t := w) live (by rw [← hw]; rfl)
        (by rw [← hw]; rfl) (by
          intro a ha
          simp only [Kernel.setProc_self] at ha
          simp [← hw, Phys.store, Phys.copyFrame, ha])
      simp only [Kernel.setProc_self] at hsame
      have htotal := (untouched.trans huntouched).trans huntouched'
      have hplainj : ∀ e, k.Plain e → j.Plain e := by
        intro e he
        rwa [Kernel.Plain, untouched.shm]
      refine .done (hinv'.kin ⟨rfl, rfl, ?_, ?_⟩) slot ?_ ?_ ?_ ?_ ?_ ?_ ?_
      · intro q
        by_cases hq : q = np
        · subst hq
          exact iff_of_true (by simp [Kernel.Live]) live
        · simp [Kernel.Live, Kernel.setProc, hq]
      · intro q
        by_cases hq : q = np
        · subst hq
          simp
        · simp [Kernel.setProc, hq]
      · simp [Kernel.Live]
      · refine ⟨fun q hq => ?_, fun q hq => ?_, htotal.pte, htotal.data, htotal.shm, htotal.initproc⟩
        · simpa [hq] using untouched.tasks q hq
        · simpa [hq] using untouched.procs q hq
      · simp
      · simp
      · intro va e hva hlt hpte
        have hptej : leafPte j.phys.mem 2 (k.procs p).pagetable va = some e := by
          rw [untouched.pte p va hne hp, hpte]
        obtain ⟨pa, hnew, huser, hdata⟩ := (copied va ⟨Nat.zero_le _, hlt⟩).copy e hptej
        simp only [update_self]
        refine ⟨pa, (hsame va).pte.trans hnew, fun hplain => ?_⟩
        have huserj := inv.user_of_plain hpj hva (by rw [untouched.procs p hne]; exact hptej)
          (hplainj e hplain)
        rw [untouched.procs p hne] at huserj
        rw [(hsame va).data huser _ hnew, hdata ⟨va, e, huserj.2, hptej, rfl⟩, untouched.data p va e hne hp hva hpte hplain]
      · intro va hva hor
        simp only [update_self]
        rw [(hsame va).pte]
        by_cases hahead : Ahead 0 (k.procs p).sz va
        · have hnone : leafPte j.phys.mem 2 (k.procs p).pagetable va = none := by
            rw [untouched.pte p va hne hp]
            exact hor.resolve_right fun hle => by
              have := hahead.2
              omega
          rw [((copied va hahead).skip hnone).pte, empty va hva]
        · rw [(edit.same va (high_not_user hva).1 hahead).pte, empty va hva]
      · intro va hva
        simp only [update_self]
        exact (hown va hva).imp (hsame va).pte.trans fun hu => (hsame va).user hu.2

end Xv6
