import Xv6.Leaves
import Xv6.System.Ordinary

namespace Xv6

open Lib

variable {L : Layout} {used : List Nat} {c c' : Spaces} {op : TableOp} {s t : Phys} {m m' : Mem}
  {role role' : Nat → Role} {r : Nat} {P : Nat → Prop}

-- The page table r has its two high pages, and below them only user pages.
structure UserTable (m : Mem) (role : Nat → Role) (r : Nat) : Prop where
  top : role r = .top 2
  high : ∀ va, va < 2 ^ 39 → HighPage va → leafPte m 2 r va ≠ none
  user : ∀ va, va < TRAPFRAME → leafPte m 2 r va = none ∨ UserLeaf m role 2 r va

structure TablesInv (L : Layout) (c : Spaces) (role : Nat → Role) : Prop where
  vm : Vm L c.kernel.phys role
  table : ∀ r, c.Table r → UserTable c.kernel.phys.mem role r
  unused : ∀ p, ¬c.kernel.Live p → (c.kernel.procs p).pagetable = 0

theorem UserTable.of_frame (h : UserTable m role r) (hf : Frame X m role m' role') (hr : ¬X r) :
    UserTable m' role' r := by
  have hsame : ∀ va, Same m role m' role' 2 r va := fun va => hf.same r 2 va hr h.top
  exact ⟨hf.top hr h.top, fun va h39 hva => by rw [(hsame va).pte]; exact h.high va h39 hva,
    fun va hva => (h.user va hva).imp (hsame va).pte.trans (hsame va).user⟩

theorem UserTable.of_edit (h : UserTable s.mem role r) (he : Edit L s role t role' r P)
    (hhigh : ∀ va, va < 2 ^ 39 → P va → HighPage va → leafPte t.mem 2 r va ≠ none)
    (huser : ∀ va, P va → va < TRAPFRAME → leafPte t.mem 2 r va = none ∨ UserLeaf t.mem role' 2 r va) :
    UserTable t.mem role' r := by
  refine ⟨he.top, fun va h39 hva => ?_, fun va hva => ?_⟩
  · by_cases hp : P va
    · exact hhigh va h39 hp hva
    · rw [(he.same va h39 hp).pte]
      exact h.high va h39 hva
  · by_cases hp : P va
    · exact huser va hp hva
    · have hsame := he.same va (high_not_user hva).1 hp
      exact (h.user va hva).imp hsame.pte.trans hsame.user

theorem UserTable.of_space (h : Space L m role r tf lim)
    (hempty : ∀ va, va < TRAPFRAME → leafPte m 2 r va = none) : UserTable m role r := by
  refine ⟨h.top, fun va h39 hva => ?_, fun va hva => .inl (hempty va hva)⟩
  rcases hva with hva | hva
  · simp [h.tramp va h39 hva]
  · simp [h.frame va h39 hva]

-- The entry that the call puts at va in the page table r.
def TableOp.Fresh (c : Spaces) (r va : Nat) (pte : Pte) : TableOp → Prop
  | .allocproc | .procPagetable _ => HighPage va ∧ ∃ pa perm,
      pte = PA2PTE pa ||| perm ||| PTE_V ∧ (perm = PTE_R ||| PTE_X ∨ perm = PTE_R ||| PTE_W)
  | .uvmalloc _ _ _ flags => ∃ pa, pte = PA2PTE pa ||| (PTE_R ||| PTE_U ||| flags2perm flags) ||| PTE_V
  | .uvmcopy old new _ => r = new ∧ ∃ pa pte', leafPte c.kernel.phys.mem 2 old va = some pte' ∧
      c.Table old ∧ pte = PA2PTE pa ||| PTE_FLAGS pte' ||| PTE_V
  | .uvmclear r' va' => r = r' ∧ va / PGSIZE = va' / PGSIZE ∧
      ∃ pte', leafPte c.kernel.phys.mem 2 r va = some pte' ∧ c.Table r ∧ pte = pte' &&& ~~~PTE_U
  | .vmfault _ _ _ _ => ∃ pa, pte = PA2PTE pa ||| (PTE_W ||| PTE_U ||| PTE_R) ||| PTE_V
  | .shmGet _ => False

-- Every entry was there before, or the call has put it there.
def Accounted (c : Spaces) (op : TableOp) (c' : Spaces) : Prop :=
  ∀ r va pte, c'.Table r → va < 2 ^ 39 → leafPte c'.kernel.phys.mem 2 r va = some pte →
    (c.Table r ∧ leafPte c.kernel.phys.mem 2 r va = some pte) ∨ op.Fresh c r va pte

-- The call has left the page tables there were alone; what others there are now is its own.
theorem TablesInv.frame (h : TablesInv L c role) (hvm : Vm L c'.kernel.phys role')
    (hf : Frame X c.kernel.phys.mem role c'.kernel.phys.mem role') (hX : ∀ x, X x → role x = .free)
    (hunused : ∀ p, ¬c'.kernel.Live p → (c'.kernel.procs p).pagetable = 0)
    (hnew : ∀ r, c'.Table r → c.Table r ∨ UserTable c'.kernel.phys.mem role' r ∧
      ∀ va pte, va < 2 ^ 39 → leafPte c'.kernel.phys.mem 2 r va = some pte → op.Fresh c r va pte) :
    TablesInv L c' role' ∧ Accounted c op c' := by
  have hne : ∀ r, c.Table r → ¬X r := by
    intro r hr hx
    have htop := (h.table r hr).top
    rw [hX r hx] at htop
    simp at htop
  refine ⟨⟨hvm, fun r hr => ?_, hunused⟩, fun r va pte hr h39 hleaf => ?_⟩
  · rcases hnew r hr with hold | ⟨htable, -⟩
    · exact (h.table r hold).of_frame hf (hne r hold)
    · exact htable
  · rcases hnew r hr with hold | ⟨-, hfresh⟩
    · exact .inl ⟨hold, (hf.same r 2 va (hne r hold) (h.table r hold).top).pte.symm.trans hleaf⟩
    · exact .inr (hfresh va pte h39 hleaf)

-- The call has changed the page table r at the addresses in P.
theorem TablesInv.edit (h : TablesInv L c role) (hr : c.Table r)
    (he : Edit L c.kernel.phys role t role' r P)
    (hhigh : ∀ va, va < 2 ^ 39 → P va → HighPage va → leafPte t.mem 2 r va ≠ none)
    (huser : ∀ va, P va → va < TRAPFRAME → leafPte t.mem 2 r va = none ∨ UserLeaf t.mem role' 2 r va)
    (hnew : ∀ va pte, va < 2 ^ 39 → P va → leafPte t.mem 2 r va = some pte →
      leafPte c.kernel.phys.mem 2 r va = some pte ∨ o.Fresh c r va pte) :
    ∃ role', TablesInv L (c.withPhys t) role' ∧ Accounted c o (c.withPhys t) := by
  refine ⟨role', ⟨he.vm, fun r' hr' => ?_, h.unused⟩, fun r' va pte hr' h39 hleaf => ?_⟩
  · by_cases heq : r' = r
    · subst heq
      exact (h.table r' hr).of_edit he hhigh huser
    · exact (h.table r' hr').of_frame he.frame heq
  · by_cases heq : r' = r
    · subst heq
      by_cases hp : P va
      · exact (hnew va pte h39 hp hleaf).imp (fun hold => ⟨hr, hold⟩) id
      · exact .inl ⟨hr, (he.same va h39 hp).pte.symm.trans hleaf⟩
    · exact .inl ⟨hr', (he.frame.same r' 2 va heq (h.table r' hr').top).pte.symm.trans hleaf⟩

theorem highPage_ge (h : HighPage va) : TRAPFRAME ≤ va := by
  simp only [HighPage, TRAMPOLINE_eq, TRAPFRAME_eq, PGSIZE_eq] at *
  omega

theorem TablesInv.uvmalloc_step (h : TablesInv L c role) (hr : c.Table r)
    (hn : TableOp.next L c (.uvmalloc r oldsz newsz flags) = .ok c') :
    ∃ role', TablesInv L c' role' ∧ Accounted c (.uvmalloc r oldsz newsz flags) c' := by
  have htable := h.table r hr
  simp only [TableOp.next] at hn
  by_cases hsz : newsz < oldsz
  · rw [uvmalloc, if_pos hsz, ok_bind, pure_eq_ok, Except.ok.injEq] at hn
    subst hn
    exact ⟨role, h, fun r' va pte hr' _ hpte => .inl ⟨hr', hpte⟩⟩
  obtain ⟨res, hallocs, heq⟩ := h.vm.uvmalloc_spec htable.top (isFlags_flags2perm flags)
    (show oldsz ≤ newsz by omega)
  rw [heq] at hn
  cases hallocs with
  | stuck a' panic ahead aligned why edit user => simp at hn
  | full edit none =>
    cases hn
    exact h.edit hr edit (fun _ _ hp => by omega) (fun _ hp => by omega) fun _ _ _ hp => by omega
  | done edit was new =>
    cases hn
    refine h.edit hr edit (fun va h39 hp hhigh => absurd (was va hp).2 (htable.high va h39 hhigh))
      (fun va hp _ => .inr (new va hp).1) fun va pte _ hp hleaf => ?_
    obtain ⟨-, pa, hpa⟩ := new va hp
    exact .inr ⟨pa, Option.some.inj (hleaf.symm.trans hpa)⟩

theorem TablesInv.uvmcopy_step (h : TablesInv L c role) (hold : c.Table old) (hnew : c.Table new)
    (hn : TableOp.next L c (.uvmcopy old new sz) = .ok c') :
    ∃ role', TablesInv L c' role' ∧ Accounted c (.uvmcopy old new sz) c' := by
  have htf : TRAPFRAME < 2 ^ 39 := by simp only [TRAPFRAME_eq]; omega
  have hframe : ∀ r, c.Table r → leafPte c.kernel.phys.mem 2 r TRAPFRAME ≠ none :=
    fun r hr => (h.table r hr).high TRAPFRAME htf (.inr rfl)
  have hcopied := h.vm.uvmcopy_spec (source_top ..) ⟨(h.table old hold).top, fun _ => .refl ..⟩
    (h.table new hnew).top sz (hframe old hold) (hframe new hnew) (h.table new hnew).user
  simp only [TableOp.next] at hn
  generalize Xv6.uvmcopy L old new sz c.kernel.phys = res at hcopied hn
  cases hcopied with
  | stuck panic why => simp at hn
  | full i below edit none =>
    cases hn
    refine h.edit hnew edit (fun va _ hp hhigh => ?_) (fun va hp _ => .inl (none va hp)) fun va pte _ hp hleaf => ?_
    · have := highPage_ge hhigh
      omega
    · simp [none va hp] at hleaf
  | @done t role' below edit was copied =>
    cases hn
    have huser : ∀ va, Ahead 0 sz va → va < TRAPFRAME → leafPte t.mem 2 new va = none ∨
        UserLeaf t.mem role' 2 new va := by
      intro va hp hva
      cases hsrc : leafPte c.kernel.phys.mem 2 old va with
      | none =>
        have hsame := (copied va hp).skip hsrc
        exact ((h.table new hnew).user va hva).imp hsame.pte.trans hsame.user
      | some pte =>
        obtain ⟨pa, -, hu, -⟩ := (copied va hp).copy pte hsrc
        exact .inr hu
    refine h.edit hnew edit (fun va _ hp hhigh => ?_) huser fun va pte _ hp hleaf => ?_
    · have hge := highPage_ge hhigh
      have hlim : va < limit false sz := ahead_lt_limit below hp
      rw [limit_false] at hlim
      omega
    · cases hsrc : leafPte c.kernel.phys.mem 2 old va with
      | none => exact .inl (((copied va hp).skip hsrc).pte.symm.trans hleaf)
      | some pte' =>
        obtain ⟨pa, hpa, -⟩ := (copied va hp).copy pte' hsrc
        exact .inr ⟨rfl, pa, pte', hsrc, hold, Option.some.inj (hleaf.symm.trans hpa)⟩

theorem TablesInv.uvmclear_step (h : TablesInv L c role) (hr : c.Table r)
    (hn : TableOp.next L c (.uvmclear r va₀) = .ok c') :
    ∃ role', TablesInv L c' role' ∧ Accounted c (.uvmclear r va₀) c' := by
  have htable := h.table r hr
  simp only [TableOp.next] at hn
  rcases h.vm.uvmclear_spec htable.top va₀ with ⟨err, herr, -⟩ | ⟨t, hok, -, hedit, hclear⟩
  · simp [herr] at hn
  · simp only [hok, ok_bind] at hn
    cases hn
    refine h.edit hr hedit (fun va h39 hp hhigh => ?_) (fun va hp hva => ?_) fun va pte h39 hp hleaf => ?_
    · rw [(hclear va h39 hp).1]
      simpa using htable.high va h39 hhigh
    · obtain ⟨hmap, hu⟩ := hclear va (high_not_user hva).1 hp
      refine (htable.user va hva).imp (fun hnone => ?_) hu
      rw [hmap, hnone]
      rfl
    · rw [(hclear va h39 hp).1, Option.map_eq_some_iff] at hleaf
      obtain ⟨pte', hpte', heq⟩ := hleaf
      exact .inr ⟨rfl, hp, pte', hpte', hr, heq.symm⟩

theorem TablesInv.vmfault_step (h : TablesInv L c role) (hown : c.Table own)
    (hn : TableOp.next L c (.vmfault own sz r va₀) = .ok c') :
    ∃ role', TablesInv L c' role' ∧ Accounted c (.vmfault own sz r va₀) c' := by
  have htable := h.table own hown
  have hfaults := h.vm.vmfault_spec (p := { sz := sz, pagetable := own }) htable.top r va₀
  simp only [TableOp.next] at hn
  generalize Xv6.vmfault L { sz := sz, pagetable := own } r va₀ c.kernel.phys = res at hfaults hn
  cases hfaults with
  | stuck panic below why => simp at hn
  | failed edit =>
    cases hn
    exact h.edit hown edit (fun _ _ hp => hp.elim) (fun _ hp => hp.elim) fun _ _ _ hp => hp.elim
  | @mapped a t role' nonzero page below max was edit new =>
    cases hn
    exact h.edit hown edit (fun va h39 hp _ => by simp [(new va h39 hp).2])
      (fun va hp hva => .inr (new va (high_not_user hva).1 hp).1)
      fun va pte h39 hp hleaf => .inr ⟨a, Option.some.inj (hleaf.symm.trans (new va h39 hp).2)⟩

theorem space_fresh (h : Space L m role r tf lim)
    (hempty : ∀ va, va < TRAPFRAME → leafPte m 2 r va = none) (h39 : va < 2 ^ 39)
    (hleaf : leafPte m 2 r va = some pte) : HighPage va ∧ ∃ pa perm,
      pte = PA2PTE pa ||| perm ||| PTE_V ∧ (perm = PTE_R ||| PTE_X ∨ perm = PTE_R ||| PTE_W) := by
  rcases layout_cases h39 with hva | hva | hva | hva
  · simp [hempty va hva] at hleaf
  · rw [h.frame va h39 hva, Option.some.injEq] at hleaf
    exact ⟨.inr hva, tf, _, hleaf.symm, .inr rfl⟩
  · rw [h.tramp va h39 hva, Option.some.injEq] at hleaf
    exact ⟨.inl hva, L.trampoline, _, hleaf.symm, .inl rfl⟩
  · simp [h.high va hva h39] at hleaf

section

variable (h : TablesInv L c role)
include h

theorem TablesInv.procPagetable_step (hn : TableOp.next L c (.procPagetable tf) = .ok c') :
    ∃ role', TablesInv L c' role' ∧ Accounted c (.procPagetable tf) c' := by
  simp only [TableOp.next] at hn
  rcases h.vm.procPagetable_spec tf with ⟨t, role', hok, hvm, hframe⟩ |
    ⟨r, t, role', hok, hr0, hfree, hvm, hsp, hempty, hframe⟩
  · simp only [hok, ok_bind, if_true] at hn
    cases hn
    exact ⟨role', h.frame hvm hframe (fun _ hx => hx.elim) h.unused fun r hr => .inl hr⟩
  · simp only [hok, ok_bind, if_neg hr0] at hn
    cases hn
    refine ⟨role', h.frame hvm hframe (by rintro x rfl; exact hfree) h.unused fun r' hr' => ?_⟩
    rcases hr' with hp | hmem
    · exact .inl (.inl hp)
    · rcases List.mem_cons.mp hmem with rfl | hmem
      · exact .inr ⟨.of_space (hsp 0) hempty, fun va pte h39 => space_fresh (hsp 0) hempty h39⟩
      · exact .inl (.inr hmem)

theorem TablesInv.allocproc_step (hn : TableOp.next L c .allocproc = .ok c') :
    ∃ role', TablesInv L c' role' ∧ Accounted c .allocproc c' := by
  simp only [TableOp.next, allocproc] at hn
  cases hfind : (List.finRange NPROC).find? fun p => (c.kernel.tasks p).state = .UNUSED with
  | none =>
    simp only [hfind, ok_bind] at hn
    cases hn
    exact ⟨role, h, fun r' va pte hr' _ hleaf => .inl ⟨hr', hleaf⟩⟩
  | some p =>
    have hp : ¬c.kernel.Live p := by
      have hstate := List.find?_some hfind
      simpa [Kernel.Live] using hstate
    simp only [hfind] at hn
    rcases h.vm.allocprocAt_spec (h.unused p hp) with ⟨t, role', hok, hvm, hframe⟩ |
      ⟨tf, r, t, role', hok, htf, hr, -, hvm, hsp, hempty, hframe⟩
    · simp only [hok, ok_bind] at hn
      cases hn
      refine ⟨role', h.frame hvm hframe (fun _ hx => hx.elim) (fun q hq => ?_) fun r' hr' => .inl ?_⟩
      · by_cases hqp : q = p
        · simp [hqp]
        · simp only [Kernel.Live, Function.update_of_ne hqp] at hq ⊢
          exact h.unused q hq
      · rcases hr' with ⟨q, hq, rfl⟩ | hmem
        · have hqp : q ≠ p := by
            rintro rfl
            simp [Kernel.Live] at hq
          exact .inl ⟨q, by simpa [Kernel.Live, hqp] using hq, by simp [hqp]⟩
        · exact .inr hmem
    · simp only [hok, ok_bind] at hn
      cases hn
      refine ⟨role', h.frame hvm hframe (by rintro x (rfl | rfl) <;> assumption) (fun q hq => ?_) fun r' hr' => ?_⟩
      · by_cases hqp : q = p
        · simp [Kernel.Live, hqp] at hq
        · simp only [Kernel.Live, Function.update_of_ne hqp] at hq ⊢
          exact h.unused q hq
      · rcases hr' with ⟨q, hq, rfl⟩ | hmem
        · by_cases hqp : q = p
          · subst hqp
            simp only [Function.update_self]
            exact .inr ⟨.of_space (hsp 0) hempty, fun va pte h39 => space_fresh (hsp 0) hempty h39⟩
          · exact .inl (.inl ⟨q, by simpa [Kernel.Live, hqp] using hq, by simp [hqp]⟩)
        · exact .inl (.inr hmem)

theorem TablesInv.shmAlloc_spec (p : Fin NPROC) :
    ∃ done k' role', shmAlloc c.kernel = .ok (done, k') ∧ k'.tasks = c.kernel.tasks ∧ k'.procs = c.kernel.procs ∧
      TablesInv L { c with kernel := k' } role' ∧ Accounted c (.shmGet p) { c with kernel := k' } := by
  rw [shmAlloc]
  cases halloc : c.kernel.shm.allocated with
  | true => exact ⟨true, c.kernel, role, rfl, rfl, rfl, h, fun _ _ _ hr _ hleaf => .inl ⟨hr, hleaf⟩⟩
  | false =>
    rcases h.vm.kalloc_spec with ⟨hk, -⟩ | ⟨a, u, hk, ha0, -⟩
    · refine ⟨false, { c.kernel with shm := { c.kernel.shm with shared_page := 0 } }, role, ?_, rfl, rfl,
        ⟨h.vm, h.table, h.unused⟩, fun _ _ _ hr _ hleaf => .inl ⟨hr, hleaf⟩⟩
      simp only [Bool.false_eq_true, if_false, hk, ok_bind, if_true, pure_eq_ok]
    · obtain ⟨hfree, -, hv, -, hframe⟩ := h.vm.kalloc_fill hk ha0 (fills_memset u a 0)
      refine ⟨true, { c.kernel with
        phys := u.memset a 0
        shm := { shared_page := a, allocated := true } }, _, ?_, rfl, rfl,
        h.frame hv hframe (by rintro x rfl; exact hfree) h.unused fun _ hr => .inl hr⟩
      simp only [Bool.false_eq_true, if_false, hk, ok_bind, if_neg ha0, pure_eq_ok]

theorem TablesInv.shmGet_step (hp : c.kernel.Live p) (hn : TableOp.next L c (.shmGet p) = .ok c') :
    (granted c.kernel p = false ∧ ∃ role', TablesInv L c' role' ∧ Accounted c (.shmGet p) c') ∨
    granted c.kernel p = true ∧ c'.Table (c.kernel.procs p).pagetable ∧
      (∃ pa, leafPte c'.kernel.phys.mem 2 (c.kernel.procs p).pagetable SHM_VA =
        some (PA2PTE pa ||| (PTE_W ||| PTE_U) ||| PTE_V)) ∧
      ∀ r va pte, c'.Table r → va < 2 ^ 39 → leafPte c'.kernel.phys.mem 2 r va = some pte →
        (c.Table r ∧ leafPte c.kernel.phys.mem 2 r va = some pte) ∨ hasFlag pte PTE_U := by
  obtain ⟨done, j, ρ, hok, htasks, hprocs, hinv, hacc⟩ := h.shmAlloc_spec p
  have hrj : Spaces.Table { c with kernel := j } (c.kernel.procs p).pagetable :=
    .inl ⟨p, by rwa [Kernel.Live, htasks], by rw [hprocs]⟩
  simp only [TableOp.next, shmGet, granted, hok, ok_bind] at hn ⊢
  cases done with
  | false =>
    simp only [if_true] at hn ⊢
    cases hn
    exact .inl ⟨by simp, ρ, hinv, hacc⟩
  | true =>
    have hroot : (j.procs p).pagetable = (c.kernel.procs p).pagetable := by rw [hprocs]
    simp only [Bool.true_eq_false, if_false, hroot] at hn ⊢
    cases hwas : leafPte j.phys.mem 2 (c.kernel.procs p).pagetable SHM_VA with
    | some e =>
      rw [mappages_remap shm_va_lt.2.2.2 shm_va_lt.2.1 hwas] at hn
      simp at hn
    | none =>
      obtain ⟨t, role', -, hmap⟩ := hinv.vm.mapForeign (hinv.table _ hrj).top shm_va_lt.2.1
        shm_va_lt.2.2.2 hwas j.shm.shared_page (PTE_W ||| PTE_U)
      rcases hmap with ⟨hm, hedit⟩ | ⟨hm, hedit, hnew⟩
      · simp only [hm, ok_bind, show ((-1 : Int) < 0) from by decide, if_true] at hn ⊢
        cases hn
        obtain ⟨role', hinv', hacc'⟩ := hinv.edit (o := .shmGet p) hrj hedit (fun _ _ hp => hp.elim)
          (fun _ hp => hp.elim) fun _ _ _ hp => hp.elim
        refine .inl ⟨by simp, role', hinv', fun r va pte hr h39 hleaf => ?_⟩
        exact (hacc' r va pte hr h39 hleaf).elim (fun hold => hacc r va pte hold.1 h39 hold.2) False.elim
      · simp only [hm, ok_bind, Int.lt_irrefl, if_false] at hn ⊢
        cases hn
        refine .inr ⟨rfl, hrj, ⟨_, hnew SHM_VA shm_va_lt.2.2.1 rfl⟩, fun r va pte hr h39 hleaf => ?_⟩
        by_cases heq : r = (c.kernel.procs p).pagetable ∧ va / PGSIZE = SHM_VA / PGSIZE
        · right
          obtain ⟨rfl, hva⟩ := heq
          rw [hnew va h39 hva, Option.some.injEq] at hleaf
          rw [← hleaf, has_leaf (by decide) (by decide)]
          decide
        · have hsame : leafPte t.mem 2 r va = leafPte j.phys.mem 2 r va := by
            by_cases hr' : r = (c.kernel.procs p).pagetable
            · subst hr'
              exact (hedit.same va h39 fun hva => heq ⟨rfl, hva⟩).pte
            · exact (hedit.frame.same r 2 va hr' (hinv.table r hr).top).pte
          exact (hacc r va pte hr h39 (hsame.symm.trans hleaf)).imp id False.elim

theorem TablesInv.step (he : op.enabled c) (ha : Unmapping c op) (hn : op.next L c = .ok c') :
    ∃ role', TablesInv L c' role' ∧ Accounted c op c' := by
  cases op with
  | allocproc => exact h.allocproc_step hn
  | procPagetable tf => exact h.procPagetable_step hn
  | uvmalloc r oldsz newsz flags => exact h.uvmalloc_step he hn
  | uvmcopy old new sz => exact h.uvmcopy_step he.1 he.2 hn
  | uvmclear r va => exact h.uvmclear_step he hn
  | vmfault own sz r va => exact h.vmfault_step he.1 hn
  | shmGet p =>
    rcases h.shmGet_step he hn with ⟨-, hinv⟩ | ⟨hg, -⟩
    · exact hinv
    · have hfalse : granted c.kernel p = false := ha
      simp [hg] at hfalse

end

theorem legal_of_R (h : hasFlag pte PTE_R) : LegalPte pte :=
  ⟨fun _ => h, .inl h, fun hinner => ((inner_iff pte).mp hinner).1 h⟩

theorem LegalPte.congr (h : LegalPte pte)
    (hflags : ∀ flag, flag = PTE_R ∨ flag = PTE_W ∨ flag = PTE_X → (hasFlag pte' flag ↔ hasFlag pte flag)) :
    LegalPte pte' := by
  have hr := hflags PTE_R (.inl rfl)
  have hw := hflags PTE_W (.inr (.inl rfl))
  have hx := hflags PTE_X (.inr (.inr rfl))
  have hinner := inner_iff pte
  rw [LegalPte, hinner] at h
  rwa [LegalPte, inner_iff, hr, hw, hx]

theorem TableOp.Fresh.legal (h : op.Fresh c r va pte) (hlegal : c.Legal) (h39 : va < 2 ^ 39) :
    LegalPte pte := by
  cases op with
  | allocproc | procPagetable _ =>
    obtain ⟨-, pa, perm, rfl, rfl | rfl⟩ := h
    · exact legal_of_R ((has_leaf (by decide) (by decide)).mpr (by decide))
    · exact legal_of_R ((has_leaf (by decide) (by decide)).mpr (by decide))
  | uvmalloc _ _ _ flags =>
    obtain ⟨pa, rfl⟩ := h
    exact legal_of_R ((has_leaf (by decide) (by decide)).mpr (has_or.mpr (.inl (by decide))))
  | uvmcopy old new sz =>
    obtain ⟨-, pa, pte', hpte', hold, rfl⟩ := h
    refine (hlegal old va pte' hold h39 hpte').congr fun flag hflag => ?_
    rcases hflag with rfl | rfl | rfl <;> rw [has_leaf (by decide) (by decide), has_flags (by decide)]
  | uvmclear r' va' =>
    obtain ⟨-, -, pte', hpte', hr, rfl⟩ := h
    refine (hlegal r va pte' hr h39 hpte').congr fun flag hflag => ?_
    rcases hflag with rfl | rfl | rfl <;> exact has_clear (by decide)
  | vmfault _ _ _ _ =>
    obtain ⟨pa, rfl⟩ := h
    exact legal_of_R ((has_leaf (by decide) (by decide)).mpr (by decide))
  | shmGet _ => exact h.elim

theorem Accounted.legal (h : Accounted c op c') (hlegal : c.Legal) : c'.Legal := by
  intro r va pte hr h39 hpte
  rcases h r va pte hr h39 hpte with ⟨hr', hpte'⟩ | hfresh
  · exact hlegal r va pte hr' h39 hpte'
  · exact hfresh.legal hlegal h39

theorem Accounted.kernelOnly (h : Accounted c op c') : KernelOnly c op c' := by
  intro r va pte hr h39 hlow hpte hu
  rcases h r va pte hr h39 hpte with hold | hfresh
  · exact .inl hold
  · cases op with
    | allocproc | procPagetable _ => exact absurd hfresh.1 hlow
    | uvmalloc _ _ _ flags =>
      obtain ⟨pa, rfl⟩ := hfresh
      exact absurd ((has_leaf (by decide) (by decide)).mpr (has_or.mpr (.inl (by decide)))) hu
    | uvmcopy old new sz =>
      obtain ⟨rfl, pa, pte', hpte', -, rfl⟩ := hfresh
      refine .inr (.inr ⟨old, sz, pte', rfl, hpte', ?_⟩)
      rwa [has_leaf (by decide) (by decide), has_flags (by decide)] at hu
    | uvmclear r' va' =>
      obtain ⟨rfl, hva, -⟩ := hfresh
      exact .inr (.inl ⟨va', rfl, hva⟩)
    | vmfault _ _ _ _ =>
      obtain ⟨pa, rfl⟩ := hfresh
      exact absurd ((has_leaf (by decide) (by decide)).mpr (by decide)) hu
    | shmGet _ => exact hfresh.elim

theorem tables_inv (h : Reach (Spaces.Boot L used) (Spaces.Step L Unmapping) c) :
    (∃ role, TablesInv L c role) ∧ c.Legal := by
  induction h with
  | @start c h =>
    obtain ⟨s, hboot, rfl⟩ := h
    have hnone : ∀ r, ¬Spaces.Table { kernel := bootKernel s, tables := [] } r := by
      rintro r (⟨p, hp, -⟩ | hmem)
      · simp [Kernel.Live, bootKernel] at hp
      · simp at hmem
    exact ⟨⟨_, hboot.vm, fun r hr => absurd hr (hnone r), fun _ _ => rfl⟩,
      fun r va pte hr => absurd hr (hnone r)⟩
  | @step c c' _ hs ih =>
    obtain ⟨⟨role, hinv⟩, hlegal⟩ := ih
    obtain ⟨op, he, ha, hn⟩ := hs
    obtain ⟨role', hinv', hacc⟩ := hinv.step he ha hn
    exact ⟨⟨role', hinv'⟩, hacc.legal hlegal⟩

-- Every leaf is legal as long as no shm_get() returns an address, and not any more
-- after one has.
theorem leaves_legal (h : Reach (Spaces.Boot L used) (Spaces.Step L Unmapping) c) :
    c.Legal ∧ ∀ op c', op.enabled c → op.next L c = .ok c' →
      (c'.Legal ↔ Unmapping c op) ∧ KernelOnly c op c' := by
  obtain ⟨⟨role, hinv⟩, hlegal⟩ := tables_inv h
  refine ⟨hlegal, fun op c' he hn => ?_⟩
  by_cases ha : Unmapping c op
  · obtain ⟨role', -, hacc⟩ := hinv.step he ha hn
    exact ⟨iff_of_true (hacc.legal hlegal) ha, hacc.kernelOnly⟩
  · cases op with
    | shmGet p =>
      rcases hinv.shmGet_step he hn with ⟨hg, -⟩ | ⟨-, hr, ⟨pa, hpte⟩, hall⟩
      · exact absurd hg ha
      · refine ⟨iff_of_false (fun hlegal' => ?_) ha, fun r va pte hr' h39 _ hpte' hu => ?_⟩
        · have hread := (hlegal' _ SHM_VA _ hr shm_va_lt.2.2.1 hpte).1
          rw [has_leaf (by decide) (by decide), has_leaf (by decide) (by decide)] at hread
          exact absurd (hread (by decide)) (by decide)
        · exact .inl ((hall r va pte hr' h39 hpte').resolve_right hu)
    | allocproc | procPagetable _ | uvmalloc _ _ _ _ | uvmcopy _ _ _ | uvmclear _ _ | vmfault _ _ _ _ =>
      exact absurd trivial ha

def sampleSpaces (ops : List TableOp) : Option Spaces :=
  runs (fun c op => op.enabled c) (fun c op => op.next sampleLayout c)
    { kernel := bootKernel (bootPhys sampleLayout (fun _ _ => 0#64) PHYSTOP), tables := [] } ops

theorem sampleSpaces_reach
    (hall : ∀ op ∈ ops, ∀ c, allowed c op) (h : sampleSpaces ops = some c) :
    Reach (Spaces.Boot sampleLayout []) (Spaces.Step sampleLayout allowed) c :=
  Reach.runs (fun op hop s _ hen hn => ⟨op, hen, hall op hop s, hn⟩)
    (.start ⟨_, .kinit (kinit_eq sampleLayout _), rfl⟩) h

theorem leaves_legal_program : ∃ c : Spaces, c.Table (c.kernel.procs initSlot).pagetable ∧
    leafPte c.kernel.phys.mem 2 (c.kernel.procs initSlot).pagetable 0 ≠ none ∧ c.Legal := by
  let root := ((sampleSpaces [.allocproc]).map fun c => (c.kernel.procs initSlot).pagetable).getD 0
  obtain ⟨c, hc, htable, hmapped⟩ : ∃ c, sampleSpaces [.allocproc, .uvmalloc root 0 PGSIZE 1] = some c ∧
      c.Table (c.kernel.procs initSlot).pagetable ∧ leafPte c.kernel.phys.mem 2 (c.kernel.procs initSlot).pagetable 0
      ≠ none :=
    exists_of_any (by decide +kernel)
  refine ⟨c, htable, hmapped, (leaves_legal (sampleSpaces_reach (fun op hop _ => ?_) hc)).1⟩
  simp only [List.mem_cons, List.not_mem_nil, or_false] at hop
  rcases hop with rfl | rfl <;> trivial

-- The first call of shm_get() by the first process.
theorem shmGet_illegal : ∃ c : Spaces,
    Reach (Spaces.Boot sampleLayout []) (Spaces.Step sampleLayout fun _ _ => True) c ∧
    ∃ pte, leafPte c.kernel.phys.mem 2 (c.kernel.procs initSlot).pagetable SHM_VA = some pte ∧
      hasFlag pte PTE_W ∧ ¬hasFlag pte PTE_R ∧ ¬c.Legal := by
  obtain ⟨c, hc, htable, hpte⟩ : ∃ c, sampleSpaces [.allocproc, .shmGet initSlot] = some c ∧
      c.Table (c.kernel.procs initSlot).pagetable ∧ (leafPte c.kernel.phys.mem 2 (c.kernel.procs initSlot).pagetable
      SHM_VA).any (fun pte => decide (hasFlag pte PTE_W ∧ ¬hasFlag pte PTE_R)) = true :=
    exists_of_any (by decide +kernel)
  obtain ⟨pte, hpte, hw, hr⟩ := exists_of_any hpte
  refine ⟨c, sampleSpaces_reach (fun _ _ _ => trivial) hc, pte, hpte, hw, hr, fun hlegal => ?_⟩
  exact hr ((hlegal _ SHM_VA pte htable shm_va_lt.2.2.1 hpte).1 hw)

end Xv6
