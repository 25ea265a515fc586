import Xv6.System.Pages

namespace Xv6

open Lib Function

variable {L : Layout} {used : List Nat} {sized : Bool} {k k' : Kernel} {s t : Phys} {m m' m'' : Mem}
  {role ρ ρ' : Nat → Role} {X : Nat → Prop} {p np : Fin NPROC}

section Sealed

-- The pages in use as a call sees them that is to leave all of them alone.
def sealRoles (role : Nat → Role) (a : Nat) : Role := if role a = .free then .free else .other

theorem sealRoles_of_ne (h : role a ≠ .free) : sealRoles role a = .other := if_neg h

theorem sealRoles_eq_free : sealRoles role a = .free ↔ role a = .free := by
  by_cases h : role a = .free
  · simp [sealRoles, h]
  · simp [sealRoles_of_ne h, h]

theorem sealRoles_loose (role : Nat → Role) (a : Nat) : (sealRoles role a).loose = true := by
  rw [sealRoles]
  split <;> rfl

-- What was in use in m is in use elsewhere for ρ, and is as it was.
def Sealed (m : Mem) (role : Nat → Role) (m' : Mem) (ρ : Nat → Role) : Prop :=
  ∀ a, role a ≠ .free → ρ a = .other ∧ m' a = m a

theorem Sealed.frame (h : Sealed m role m' ρ) (hf : Frame X m' ρ m'' ρ')
    (hX : ∀ a, X a → role a = .free) : Sealed m role m'' ρ' := by
  intro a ha
  obtain ⟨hρ, hm⟩ := h a ha
  have hx : ¬X a := fun hx => ha (hX a hx)
  rw [hf.role_eq a hx (.inl (by rw [hρ]; rfl)), hf.mem_eq a hx (by rw [hρ]; rfl) (by rw [hρ]; rfl)
    (by simp [hρ])]
  exact ⟨hρ, hm⟩

-- A call that leaves no page behind has given back all that it took: every page table
-- page and user page belongs to a page table, and there is none.
theorem Vm.free_iff (h : Vm L t ρ) (hf : Frame (fun _ => False) m (sealRoles role) t.mem ρ) (a : Nat) :
    ρ a = .free ↔ role a = .free := by
  have hpinned : ∀ a, (ρ a).pinned = true → ρ a = sealRoles role a :=
    fun a ha => hf.role_eq a not_false (.inr ha)
  have htop : ∀ a l, ρ a ≠ .top l := by
    intro a l ha
    have hloose := sealRoles_loose role a
    rw [← hpinned a (by rw [ha]; rfl), ha] at hloose
    simp [Role.loose] at hloose
  have hlevel : ∀ a, (ρ a).level = none := by
    intro a
    cases hl : (ρ a).level with
    | none => rfl
    | some l =>
      obtain ⟨r, -, hr, -⟩ := h.leads_to (fun a l ha => absurd ha (htop a l)) hl
      exact absurd hr (htop r 2)
  refine Iff.trans ?_ sealRoles_eq_free
  cases hρ : ρ a with
  | table l b i =>
    have := hlevel a
    simp [hρ] at this
  | leaf b i =>
    have := (h.wired.back _ _ _ hρ).1
    simp [hlevel] at this
  | free =>
    refine iff_of_true rfl ?_
    by_contra hne
    have hother : sealRoles role a = .other := sealRoles_of_ne fun ha => hne (sealRoles_eq_free.mpr ha)
    have := hf.role_eq a not_false (.inl (by rw [hother]; rfl))
    simp [hρ, hother] at this
  | held | top _ | frame | shared | other => rw [← hpinned a (by rw [hρ]; rfl), hρ]

end Sealed

section Fork

-- The page a is in use at va by q, and for nothing else.
structure Kernel.Sole (k : Kernel) (used : List Nat) (q : Fin NPROC) (va a : Nat) : Prop where
  free : ¬k.FreePage a
  kernel : a ∉ used
  shm : k.shm.allocated = true → a ≠ k.shm.shared_page
  frame : ∀ p, k.Live p → a ≠ (k.procs p).trapframe
  table : ∀ p va' l, k.Live p → ¬Leads k.phys.mem va' 2 (k.procs p).pagetable l a
  user : ∀ p va' e, k.Live p → va' < MAXVA → leafPte k.phys.mem 2 (k.procs p).pagetable va' = some e →
    PTE2PA e = a → p = q ∧ va' / PGSIZE = va / PGSIZE

theorem KInv.sole (h : KInv L used sized k role) (hq : k.Live q) (hva : va < TRAPFRAME)
    (hu : UserLeaf k.phys.mem role 2 (k.procs q).pagetable va)
    (hpte : leafPte k.phys.mem 2 (k.procs q).pagetable va = some e) : k.Sole used q va (PTE2PA e) := by
  obtain ⟨c, i, hl, hrole⟩ := hu.owner hpte
  refine ⟨?_, ?_, ?_, ?_, ?_, ?_⟩
  · rw [h.freePage_iff, hrole]
    simp
  · rw [← h.kernel, hrole]
    simp
  · intro hshm heq
    have hshared := (h.shared _).mpr ⟨hshm, heq⟩
    simp [hrole] at hshared
  · intro p hp heq
    have hframe := h.frame p hp
    simp [← heq, hrole] at hframe
  · intro p va' l hp hleads
    have hlevel := hleads.level h.vm.wired (by rw [(h.space p hp).top, Role.level_top])
    simp [hrole] at hlevel
  · intro p va' e' hp hmax hpte' heq
    have h39 := lt_39_of_lt_MAXVA hmax
    have hsp := h.space p hp
    have hframe := h.frame p hp
    have hleaf : role (PTE2PA e') = .leaf c i := by rw [heq, hrole]
    have hl' : lookup k.phys.mem va' 2 (k.procs p).pagetable = some (c, i) := by
      rcases layout_cases h39 with hlow | hpage | hpage | hhigh
      · rcases hsp.owner h.vm hlow hpte' with ⟨c', i', hl', hrole'⟩ | ⟨-, hrole'⟩
        · rw [hleaf, Role.leaf.injEq] at hrole'
          rw [hl', hrole'.1, hrole'.2]
        · simp [hleaf] at hrole'
      · have hpage' := h.vm.page (k.procs p).trapframe (by simp [hframe]) (by simp [hframe])
        rw [hsp.frame va' h39 hpage, Option.some.injEq] at hpte'
        rw [← hpte', PTE2PA_leaf hpage'.lt_pow hpage'.1 (by decide), hframe] at hleaf
        simp at hleaf
      · rw [hsp.tramp va' h39 hpage, Option.some.injEq] at hpte'
        rw [← hpte', PTE2PA_leaf L.trampoline_lt L.aligned (by decide)] at hleaf
        exact absurd hleaf h.vm.trampoline
      · omega
    obtain ⟨-, hroot, hpx⟩ := h.vm.wired.lookup_inj hsp.top (h.space q hq).top hl' hl
    rw [px_eq_iff h39 (high_not_user hva).1] at hpx
    exact ⟨h.root_inj p q hp hq hroot, hpx⟩

end Fork

end Xv6
