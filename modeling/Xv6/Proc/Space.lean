import Xv6.Proc
import Xv6.Vm.Fault
import Xv6.Vm.Freewalk

namespace Xv6

open Lib

variable {L : Layout} {s t : Phys} {m m' : Mem} {role role' ρ : Nat → Role} {r tf sz : Nat}
  {X P : Nat → Prop}

def SharedAt (m : Mem) (role : Nat → Role) (r va : Nat) : Prop :=
  va / PGSIZE = SHM_VA / PGSIZE ∧ ∃ pa, role pa = .shared ∧
    leafPte m 2 r va = some (PA2PTE pa ||| (PTE_W ||| PTE_U) ||| PTE_V)

-- What there can be at an address below the trapframe; user pages only below lim.
def UserPart (m : Mem) (role : Nat → Role) (r lim va : Nat) : Prop :=
  leafPte m 2 r va = none ∨ (va < lim ∧ UserLeaf m role 2 r va) ∨ SharedAt m role r va

theorem UserLeaf.mapped (h : UserLeaf m role l r va) : leafPte m l r va ≠ none := by
  obtain ⟨e, he⟩ := h.exists_pte
  simp [he]

-- The page table r of a process with the trapframe tf.
structure Space (L : Layout) (m : Mem) (role : Nat → Role) (r tf lim : Nat) : Prop where
  top : role r = .top 2
  tramp : ∀ va, va < 2 ^ 39 → va / PGSIZE = TRAMPOLINE / PGSIZE →
    leafPte m 2 r va = some (PA2PTE L.trampoline ||| (PTE_R ||| PTE_X) ||| PTE_V)
  frame : ∀ va, va < 2 ^ 39 → va / PGSIZE = TRAPFRAME / PGSIZE →
    leafPte m 2 r va = some (PA2PTE tf ||| (PTE_R ||| PTE_W) ||| PTE_V)
  high : ∀ va, MAXVA ≤ va → va < 2 ^ 39 → leafPte m 2 r va = none
  user : ∀ va, va < TRAPFRAME → UserPart m role r lim va

theorem layout_cases (h : va < 2 ^ 39) : va < TRAPFRAME ∨ va / PGSIZE = TRAPFRAME / PGSIZE ∨
    va / PGSIZE = TRAMPOLINE / PGSIZE ∨ MAXVA ≤ va := by
  simp only [TRAPFRAME_eq, TRAMPOLINE_eq, MAXVA_eq, PGSIZE_eq]
  omega

theorem high_not_user (h : va < TRAPFRAME) : va < 2 ^ 39 ∧ ¬va / PGSIZE = TRAPFRAME / PGSIZE ∧
    ¬va / PGSIZE = TRAMPOLINE / PGSIZE ∧ va < MAXVA := by
  simp only [TRAPFRAME_eq, TRAMPOLINE_eq, MAXVA_eq, PGSIZE_eq] at *
  omega

theorem UserPart.same (h : UserPart m role r lim va) (hsame : Same m role m' role' 2 r va)
    (hshared : ∀ pa, role pa = .shared → role' pa = .shared) : UserPart m' role' r lim va := by
  rcases h with h | ⟨hlim, h⟩ | ⟨hva, pa, hpa, h⟩
  · exact .inl (hsame.pte.trans h)
  · exact .inr (.inl ⟨hlim, hsame.user h⟩)
  · exact .inr (.inr ⟨hva, pa, hshared pa hpa, hsame.pte.trans h⟩)

theorem Frame.shared (h : Frame X m role m' role') (hX : ∀ x, X x → role x ≠ .shared)
    (pa : Nat) (hpa : role pa = .shared) : role' pa = .shared := by
  rw [h.role_eq pa (fun hx => hX pa hx hpa) (.inl (by rw [hpa]; rfl)), hpa]

theorem Space.frame_of (h : Space L m role r tf lim) (hf : Frame X m role m' role') (hr : ¬X r)
    (hX : ∀ x, X x → role x ≠ .shared) : Space L m' role' r tf lim := by
  have hsame : ∀ va, Same m role m' role' 2 r va := fun va => hf.same r 2 va hr h.top
  exact ⟨hf.top hr h.top, fun va h39 heq => (hsame va).pte.trans (h.tramp va h39 heq),
    fun va h39 heq => (hsame va).pte.trans (h.frame va h39 heq),
    fun va h1 h39 => (hsame va).pte.trans (h.high va h1 h39),
    fun va hva => (h.user va hva).same (hsame va) (hf.shared hX)⟩

theorem Space.edit (h : Space L s.mem role r tf lim) (he : Edit L s role t role' r P)
    (hlow : ∀ va, P va → va < TRAPFRAME) (hnew : ∀ va, P va → UserPart t.mem role' r lim' va)
    (hlim : ∀ va, ¬P va → va < lim → va < lim') : Space L t.mem role' r tf lim' := by
  have hsame : ∀ va, va < 2 ^ 39 → ¬P va → Same s.mem role t.mem role' 2 r va := he.same
  have hout : ∀ va, TRAPFRAME ≤ va → ¬P va := fun va hva hp => by
    have := hlow va hp
    omega
  have hge : ∀ va, va / PGSIZE = TRAMPOLINE / PGSIZE ∨ va / PGSIZE = TRAPFRAME / PGSIZE ∨
      MAXVA ≤ va → TRAPFRAME ≤ va := by
    intro va hva
    simp only [TRAPFRAME_eq, TRAMPOLINE_eq, MAXVA_eq, PGSIZE_eq] at *
    omega
  refine ⟨he.top, fun va h39 heq => ?_, fun va h39 heq => ?_, fun va h1 h39 => ?_, fun va hva => ?_⟩
  · rw [(hsame va h39 (hout va (hge va (.inl heq)))).pte, h.tramp va h39 heq]
  · rw [(hsame va h39 (hout va (hge va (.inr (.inl heq))))).pte, h.frame va h39 heq]
  · rw [(hsame va h39 (hout va (hge va (.inr (.inr h1))))).pte, h.high va h1 h39]
  · by_cases hp : P va
    · exact hnew va hp
    · have hold : UserPart s.mem role r lim' va :=
        (h.user va hva).imp id (Or.imp (fun hu => ⟨hlim va hp hu.1, hu.2⟩) id)
      refine hold.same (hsame va (high_not_user hva).1 hp) (he.frame.shared ?_)
      intro x hx
      rw [hx, h.top]
      simp

theorem Layout.trampoline_lt (L : Layout) : L.trampoline < 2 ^ 56 := by
  have h1 := L.below
  have h2 := L.inside
  simp only [PHYSTOP_eq, PGSIZE_eq] at *
  omega

theorem Vm.trampoline (h : Vm L s role) : role L.trampoline ≠ .leaf c i := by
  intro hrole
  have hp := (h.page L.trampoline (by simp [hrole]) (by simp [hrole])).2.1
  have hbelow := L.below
  simp only [PGSIZE_eq] at hbelow
  omega

theorem not_userLeaf (hpte : leafPte m 2 r va = some e) (h : ∀ c i, role (PTE2PA e) ≠ .leaf c i) :
    ¬UserLeaf m role 2 r va := by
  intro hu
  obtain ⟨c, i, -, hrole⟩ := hu.owner hpte
  exact h c i hrole

theorem Vm.not_userLeaf_tramp (h : Vm L s role)
    (hpte : leafPte s.mem 2 r va = some (PA2PTE L.trampoline ||| (PTE_R ||| PTE_X) ||| PTE_V)) :
    ¬UserLeaf s.mem role 2 r va := by
  apply not_userLeaf hpte
  intro c i
  rw [PTE2PA_leaf L.trampoline_lt L.aligned (by decide)]
  exact h.trampoline

theorem not_userLeaf_frame (htf : IsPage L tf) (hrole : ∀ c i, role tf ≠ .leaf c i)
    (hpte : leafPte m 2 r va = some (PA2PTE tf ||| (PTE_R ||| PTE_W) ||| PTE_V)) :
    ¬UserLeaf m role 2 r va := by
  apply not_userLeaf hpte
  rw [PTE2PA_leaf htf.lt_pow htf.1 (by decide)]
  exact hrole

theorem Space.owner (h : Space L s.mem role r tf lim) (hvm : Vm L s role) (hva : va < TRAPFRAME)
    (hpte : leafPte s.mem 2 r va = some e) :
    (∃ c i, lookup s.mem va 2 r = some (c, i) ∧ role (PTE2PA e) = .leaf c i) ∨
      va / PGSIZE = SHM_VA / PGSIZE ∧ role (PTE2PA e) = .shared := by
  rcases h.user va hva with hnone | ⟨-, hu⟩ | ⟨hpage, pa, hpa, hs⟩
  · simp [hnone] at hpte
  · exact .inl (hu.owner hpte)
  · have hp := hvm.page pa (by simp [hpa]) (by simp [hpa])
    rw [hs, Option.some.injEq] at hpte
    rw [← hpte, PTE2PA_leaf hp.lt_pow hp.1 (by decide)]
    exact .inr ⟨hpage, hpa⟩

theorem Space.guarded (h : Space L s.mem role r tf lim) (hvm : Vm L s role) : Guarded s.mem role r := by
  intro va e h39 he hu
  rcases layout_cases h39 with hva | hva | hva | hva
  · rcases h.user va hva with hn | hl | ⟨-, pa, hpa, hs⟩
    · simp [hn] at he
    · exact .inl hl.2
    · right
      have hp := hvm.page pa (by simp [hpa]) (by simp [hpa])
      rw [hs, Option.some.injEq] at he
      rw [← he, PTE2PA_leaf hp.lt_pow hp.1 (by decide), hpa]
  · rw [h.frame va h39 hva, Option.some.injEq] at he
    rw [← he, has_leaf (by decide) (by decide)] at hu
    exact absurd hu (by decide)
  · rw [h.tramp va h39 hva, Option.some.injEq] at he
    rw [← he, has_leaf (by decide) (by decide)] at hu
    exact absurd hu (by decide)
  · simp [h.high va hva h39] at he

theorem uvmunmap_foreign (h : Vm L s role) (hr : role r = .top 2) (hal : va % PGSIZE = 0)
    (hva : va < MAXVA) (hforeign : ¬UserLeaf s.mem role 2 r va) :
    ∃ t, uvmunmap L r va 1 false s = .ok t ∧
      Edit L s role t role r (fun va' => va' / PGSIZE = va / PGSIZE) ∧
      ∀ va', va' < 2 ^ 39 → va' / PGSIZE = va / PGSIZE → leafPte t.mem 2 r va' = none := by
  rw [uvmunmap_one hal hva]
  exact h.unmapPage_foreign hr hva hforeign

theorem Vm.uvmfree_new (h : Vm L s role) (hr : role r = .top 2)
    (hempty : ∀ va, va < 2 ^ 39 → leafPte s.mem 2 r va = none) (hfree : ρ r = .free)
    (hframe : Frame (· = r) m ρ s.mem role) :
    ∃ t role', uvmfree L r 0 s = .ok t ∧ Vm L t role' ∧ Frame (fun _ => False) m ρ t.mem role' := by
  have hzero : PGROUNDUP 0 = 0 := rfl
  obtain ⟨t, role', hok, hvm, hr', hframe'⟩ := h.uvmfree_spec 0 hr
    (by rw [hzero]; exact Nat.zero_le _) fun va h39 => .inl (hempty va h39)
  refine ⟨t, role', hok, hvm, (hframe.trans hframe').shrink ?_⟩
  intro x hx _
  left
  rw [hx, hfree, hr']
  exact ⟨rfl, rfl⟩

theorem Vm.procPagetable_spec (h : Vm L s role) (tf : Nat) :
    (∃ t role', procPagetable L tf s = .ok (0, t) ∧ Vm L t role' ∧
      Frame (fun _ => False) s.mem role t.mem role') ∨
    ∃ r t role', procPagetable L tf s = .ok (r, t) ∧ r ≠ 0 ∧ role r = .free ∧ Vm L t role' ∧
      (∀ lim, Space L t.mem role' r tf lim) ∧
      (∀ va, va < TRAPFRAME → leafPte t.mem 2 r va = none) ∧
      Frame (· = r) s.mem role t.mem role' := by
  have hal : TRAMPOLINE % PGSIZE = 0 := rfl
  have hal' : TRAPFRAME % PGSIZE = 0 := rfl
  have hmax : TRAMPOLINE < MAXVA := by simp [TRAMPOLINE_eq, MAXVA_eq]
  have hmax' : TRAPFRAME < MAXVA := by simp [TRAPFRAME_eq, MAXVA_eq]
  have hneg : ((-1 : Int) < 0) := by omega
  have hpos : ¬((0 : Int) < 0) := by omega
  rcases h.uvmcreate_spec with hfull | ⟨r, u, ρ, hok, hr0, hfree, hu, htop, hempty, hframe⟩
  · left
    exact ⟨s, role, by simp only [procPagetable, hfull, ok_bind, if_true, pure_eq_ok], h, .refl ..⟩
  obtain ⟨t1, ρ1, -, hmap1⟩ := hu.mapForeign htop hmax hal (hempty _) L.trampoline (PTE_R ||| PTE_X)
  rcases hmap1 with ⟨hm1, hedit1⟩ | ⟨hm1, hedit1, hpte1⟩
  · left
    obtain ⟨t, role', hfr, hvm, hall⟩ := hedit1.vm.uvmfree_new hedit1.top
      (fun va h39 => (hedit1.same va h39 not_false).pte.trans (hempty va)) hfree
      (hframe.trans hedit1.frame)
    refine ⟨t, role', ?_, hvm, hall⟩
    simp only [procPagetable, hok, ok_bind, if_neg hr0, hm1, if_pos hneg, hfr, pure_eq_ok]
  -- the trampoline is mapped, and nothing else
  have hrest1 : ∀ va, va < 2 ^ 39 → ¬va / PGSIZE = TRAMPOLINE / PGSIZE →
      leafPte t1.mem 2 r va = none :=
    fun va h39 hne => (hedit1.same va h39 hne).pte.trans (hempty va)
  obtain ⟨t2, ρ2, -, hmap2⟩ := hedit1.vm.mapForeign hedit1.top hmax' hal'
    (hrest1 _ (lt_39_of_lt_MAXVA hmax') (by decide)) tf (PTE_R ||| PTE_W)
  rcases hmap2 with ⟨hm2, hedit2⟩ | ⟨hm2, hedit2, hpte2⟩
  · left
    have htramp : leafPte t2.mem 2 r TRAMPOLINE =
        some (PA2PTE L.trampoline ||| (PTE_R ||| PTE_X) ||| PTE_V) := by
      rw [(hedit2.same _ (lt_39_of_lt_MAXVA hmax) not_false).pte]
      exact hpte1 _ (lt_39_of_lt_MAXVA hmax) rfl
    obtain ⟨t3, hun, hedit3, hnone3⟩ := uvmunmap_foreign hedit2.vm hedit2.top hal hmax
      (hedit2.vm.not_userLeaf_tramp htramp)
    obtain ⟨t, role', hfr, hvm, hall⟩ := hedit3.vm.uvmfree_new hedit3.top (by
        intro va h39
        by_cases heq : va / PGSIZE = TRAMPOLINE / PGSIZE
        · exact hnone3 va h39 heq
        · rw [(hedit3.same va h39 heq).pte, (hedit2.same va h39 not_false).pte, hrest1 va h39 heq])
      hfree (((hframe.trans hedit1.frame).trans hedit2.frame).trans hedit3.frame)
    refine ⟨t, role', ?_, hvm, hall⟩
    simp only [procPagetable, hok, ok_bind, if_neg hr0, hm1, if_neg hpos, hm2, if_pos hneg, hun, hfr,
      pure_eq_ok]
  · right
    have hrest2 : ∀ va, va < 2 ^ 39 → ¬va / PGSIZE = TRAMPOLINE / PGSIZE →
        ¬va / PGSIZE = TRAPFRAME / PGSIZE → leafPte t2.mem 2 r va = none :=
      fun va h39 h1 h2 => (hedit2.same va h39 h2).pte.trans (hrest1 va h39 h1)
    have hlow : ∀ va, va < TRAPFRAME → leafPte t2.mem 2 r va = none := by
      intro va hva
      obtain ⟨h39, h1, h2, -⟩ := high_not_user hva
      exact hrest2 va h39 h2 h1
    refine ⟨r, t2, ρ2, ?_, hr0, hfree, hedit2.vm, fun lim => ⟨hedit2.top, ?_, hpte2, ?_, ?_⟩, hlow,
      (hframe.trans hedit1.frame).trans hedit2.frame⟩
    · simp only [procPagetable, hok, ok_bind, if_neg hr0, hm1, if_neg hpos, hm2, pure_eq_ok]
    · intro va h39 heq
      have hne : ¬va / PGSIZE = TRAPFRAME / PGSIZE := by
        rw [heq]
        decide
      rw [(hedit2.same va h39 hne).pte, hpte1 va h39 heq]
    · intro va h1 h39
      apply hrest2 va h39
      · simp only [TRAMPOLINE_eq, MAXVA_eq, PGSIZE_eq] at *
        omega
      · simp only [TRAPFRAME_eq, MAXVA_eq, PGSIZE_eq] at *
        omega
    · exact fun va hva => .inl (hlow va hva)

-- What is mapped below the trapframe has to be user pages below sz.
theorem Vm.procFreepagetable_eq (h : Vm L s role) (hsp : Space L s.mem role r tf lim)
    (htf : IsPage L tf) (hrole : ∀ c i, role tf ≠ .leaf c i) (sz : Nat) :
    ∃ t, procFreepagetable L r sz s = uvmfree L r sz t ∧ Vm L t role ∧ role r = .top 2 ∧
      Frame (· = r) s.mem role t.mem role ∧
      (∀ va, va < TRAPFRAME → Same s.mem role t.mem role 2 r va) ∧
      ∀ va, va < 2 ^ 39 → ¬va < TRAPFRAME → leafPte t.mem 2 r va = none := by
  have hmax : TRAMPOLINE < MAXVA := by simp [TRAMPOLINE_eq, MAXVA_eq]
  have hmax' : TRAPFRAME < MAXVA := by simp [TRAPFRAME_eq, MAXVA_eq]
  obtain ⟨t1, hun1, hedit1, hnone1⟩ := uvmunmap_foreign h hsp.top rfl hmax
    (h.not_userLeaf_tramp (hsp.tramp _ (lt_39_of_lt_MAXVA hmax) rfl))
  have hne : ¬TRAPFRAME / PGSIZE = TRAMPOLINE / PGSIZE := by decide
  have hframe1 : leafPte t1.mem 2 r TRAPFRAME = some (PA2PTE tf ||| (PTE_R ||| PTE_W) ||| PTE_V) := by
    rw [(hedit1.same _ (lt_39_of_lt_MAXVA hmax') hne).pte]
    exact hsp.frame _ (lt_39_of_lt_MAXVA hmax') rfl
  obtain ⟨t2, hun2, hedit2, hnone2⟩ := uvmunmap_foreign hedit1.vm hedit1.top rfl hmax'
    (not_userLeaf_frame htf hrole hframe1)
  refine ⟨t2, by simp only [procFreepagetable, hun1, hun2, ok_bind], hedit2.vm, hedit2.top,
    hedit1.frame.trans hedit2.frame, fun va hva => ?_, fun va h39 hva => ?_⟩
  · obtain ⟨h39, h1, h2, -⟩ := high_not_user hva
    exact (hedit1.same va h39 h2).trans (hedit2.same va h39 h1)
  · rcases layout_cases h39 with hva' | hva' | hva' | hva'
    · exact absurd hva' hva
    · exact hnone2 va h39 hva'
    · have h2 : ¬va / PGSIZE = TRAPFRAME / PGSIZE := by
        rw [hva']
        decide
      rw [(hedit2.same va h39 h2).pte, hnone1 va h39 hva']
    · have h1 : ¬va / PGSIZE = TRAMPOLINE / PGSIZE ∧ ¬va / PGSIZE = TRAPFRAME / PGSIZE := by
        simp only [TRAPFRAME_eq, TRAMPOLINE_eq, MAXVA_eq, PGSIZE_eq] at *
        omega
      rw [(hedit2.same va h39 h1.2).pte, (hedit1.same va h39 h1.1).pte, hsp.high va hva' h39]

theorem Vm.procFreepagetable_spec (h : Vm L s role) (sz : Nat) (hsp : Space L s.mem role r tf lim)
    (htf : IsPage L tf) (hrole : ∀ c i, role tf ≠ .leaf c i) (hsz : sz ≤ MAXVA)
    (hpre : ∀ va, va < TRAPFRAME → leafPte s.mem 2 r va = none ∨
      va < PGROUNDUP sz ∧ UserLeaf s.mem role 2 r va) :
    ∃ t role', procFreepagetable L r sz s = .ok t ∧ Vm L t role' ∧ role' r = .free ∧
      Frame (· = r) s.mem role t.mem role' := by
  obtain ⟨u, heq, hu, htop, hframe, hlow, hhigh⟩ := h.procFreepagetable_eq hsp htf hrole sz
  obtain ⟨t, role', hfr, hvm, hfree, hframe'⟩ := hu.uvmfree_spec sz htop
    (pgroundup_bounds hsz).2.2.2 (by
      intro va h39
      by_cases hva : va < TRAPFRAME
      · exact (hpre va hva).imp (hlow va hva).pte.trans fun hu => ⟨hu.1, (hlow va hva).user hu.2⟩
      · exact .inl (hhigh va h39 hva))
  exact ⟨t, role', heq.trans hfr, hvm, hfree, hframe.trans hframe'⟩

theorem Vm.procFreepagetable_halts (h : Vm L s role) (hsp : Space L s.mem role r tf lim)
    (htf : IsPage L tf) (hrole : ∀ c i, role tf ≠ .leaf c i) (hsz : PGROUNDUP sz ≤ SHM_VA)
    (hlim : lim ≤ PGROUNDUP sz) (hpa : SharedAt s.mem role r SHM_VA) :
    procFreepagetable L r sz s = .error .freewalkLeaf := by
  obtain ⟨u, heq, hu, htop, -, hlow, hhigh⟩ := h.procFreepagetable_eq hsp htf hrole sz
  have hshm : SHM_VA < TRAPFRAME ∧ SHM_VA < MAXVA ∧ SHM_VA < 2 ^ 39 := by decide
  obtain ⟨-, pa, -, hpte⟩ := hpa
  rw [heq]
  refine hu.uvmfree_halts htop (by omega) (fun va hva => ?_) (fun va e h39 hva hleaf => ?_) hshm.2.2
    (by omega) ((hlow SHM_VA hshm.1).pte.trans hpte)
  · have hva' : va < TRAPFRAME := by omega
    rcases hsp.user va hva' with hnone | ⟨-, huser⟩ | ⟨hpage, -⟩
    · exact .inl ((hlow va hva').pte.trans hnone)
    · exact .inr ((hlow va hva').user huser)
    · simp only [SHM_VA, PGSIZE_eq] at *
      omega
  · by_cases hva' : va < TRAPFRAME
    · rw [(hlow va hva').pte] at hleaf
      rcases hsp.user va hva' with hnone | ⟨hlt, -⟩ | ⟨-, pa', -, hpte'⟩
      · simp [hnone] at hleaf
      · omega
      · rw [hpte', Option.some.injEq] at hleaf
        rw [← hleaf, inner_iff, has_leaf (by decide) (by decide), has_leaf (by decide) (by decide),
          has_leaf (by decide) (by decide)]
        decide
    · simp [hhigh va h39 hva'] at hleaf

end Xv6
