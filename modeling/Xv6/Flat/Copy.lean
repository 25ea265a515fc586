import Xv6.Flat

namespace Xv6

open Lib List

variable {L : Layout} {s t u : Phys} {m m' m'' : Mem} {role role' ρ : Nat → Role} {p : Self} {r tf va n : Nat}
  {bytes xs ys : List Byte}

section View

def SameRights (e e' : Pte) : Prop :=
  (hasFlag e PTE_R ↔ hasFlag e' PTE_R) ∧ (hasFlag e PTE_W ↔ hasFlag e' PTE_W) ∧ (hasFlag e PTE_U ↔ hasFlag e' PTE_U)

theorem SameRights.refl (e : Pte) : SameRights e e := ⟨Iff.rfl, Iff.rfl, Iff.rfl⟩

theorem SameRights.symm (h : SameRights e e') : SameRights e' e := ⟨h.1.symm, h.2.1.symm, h.2.2.symm⟩

theorem SameRights.trans (h : SameRights e e') (h' : SameRights e' e'') : SameRights e e'' :=
  ⟨h.1.trans h'.1, h.2.1.trans h'.2.1, h.2.2.trans h'.2.2⟩

theorem sameRights_leaf (pa : Nat) (perm : Pte) : SameRights (PA2PTE pa ||| perm ||| PTE_V) perm :=
  ⟨has_leaf (by decide) (by decide), has_leaf (by decide) (by decide), has_leaf (by decide) (by decide)⟩

theorem SameRights.permitted_iff (h : SameRights e e') (a : Access) : a.permitted e ↔ a.permitted e' := by
  rw [Access.permitted, Access.permitted, h.1, h.2.1, h.2.2]

structure Alike (m : Mem) (r : Nat) (m' : Mem) (r' va : Nat) : Prop where
  rights : SameRights (viewFlags m r va) (viewFlags m' r' va)
  byte : viewByte m' r' va = viewByte m r va

theorem Alike.refl (m : Mem) (r va : Nat) : Alike m r m r va := ⟨.refl _, rfl⟩

theorem viewFlags_some (h : leafPte m 2 r va = some e) : viewFlags m r va = e := by rw [viewFlags, h, Option.getD_some]

theorem viewFlags_none (h : leafPte m 2 r va = none) : viewFlags m r va = EAGER := by
  rw [viewFlags, h, Option.getD_none]

theorem viewByte_some (h : leafPte m 2 r va = some e) :
    viewByte m r va = pageByte (m (PTE2PA e)) (va % PGSIZE) := by
  rw [viewByte, h]

theorem viewByte_none (h : leafPte m 2 r va = none) : viewByte m r va = 0 := by rw [viewByte, h]

theorem alike_of_pte (hpte : leafPte m' 2 r' va = leafPte m 2 r va)
    (hdata : ∀ e, leafPte m 2 r va = some e → m' (PTE2PA e) = m (PTE2PA e)) : Alike m r m' r' va := by
  cases h : leafPte m 2 r va with
  | none =>
    have h' := hpte.trans h
    refine ⟨?_, ?_⟩
    · rw [viewFlags_none h, viewFlags_none h']
      exact .refl _
    · rw [viewByte_none h, viewByte_none h']
  | some e =>
    have h' := hpte.trans h
    refine ⟨?_, ?_⟩
    · rw [viewFlags_some h, viewFlags_some h']
      exact .refl _
    · rw [viewByte_some h, viewByte_some h', hdata e h]

theorem alike_of_zero (hnone : leafPte m 2 r va = none)
    (hpte : leafPte m' 2 r' va = some (PA2PTE a ||| (PTE_W ||| PTE_U ||| PTE_R) ||| PTE_V))
    (hzero : ∀ i, m' (PTE2PA (PA2PTE a ||| (PTE_W ||| PTE_U ||| PTE_R) ||| PTE_V)) i = 0#64) :
    Alike m r m' r' va := by
  refine ⟨?_, ?_⟩
  · rw [viewFlags_none hnone, viewFlags_some hpte]
    exact (sameRights_leaf a _).symm
  · rw [viewByte_none hnone, viewByte_some hpte, pageByte_zero hzero]

theorem alike_of_copy (hpte : leafPte m 2 r va = some e)
    (hnew : leafPte m' 2 r' va = some (PA2PTE pa ||| PTE_FLAGS e ||| PTE_V))
    (hdata : m' (PTE2PA (PA2PTE pa ||| PTE_FLAGS e ||| PTE_V)) = m (PTE2PA e)) : Alike m r m' r' va := by
  refine ⟨?_, ?_⟩
  · rw [viewFlags_some hpte, viewFlags_some hnew]
    refine .trans ⟨?_, ?_, ?_⟩ (sameRights_leaf pa (PTE_FLAGS e)).symm <;> exact (has_flags (by decide)).symm
  · rw [viewByte_some hpte, viewByte_some hnew, hdata]

end View

def Data (L : Layout) (role : Nat → Role) (a : Nat) : Prop := (role a).level = none ∧ (IsPage L a → role a ≠ .free)

-- The memory of the current process: its page table, with the trapframe tf, and a size
-- that stays below the trapframe.
structure Current (L : Layout) (s : Phys) (role : Nat → Role) (p : Self) (tf : Nat) : Prop where
  vm : Vm L s role
  space : Space L s.mem role p.pagetable tf TRAPFRAME
  small : p.sz ≤ TRAPFRAME

section Current

theorem Space.widen (h : Space L m role r tf lim) : Space L m role r tf TRAPFRAME :=
  ⟨h.top, h.tramp, h.frame, h.high, fun va hva => (h.user va hva).imp id (Or.imp (fun hu => ⟨hva, hu.2⟩) id)⟩

section

variable (h : Current L s role p tf)
include h

theorem Current.max : p.sz ≤ MAXVA := by
  have := h.small
  simp only [TRAPFRAME_eq, MAXVA_eq] at *
  omega

theorem Current.grows (hg : Grows L s role t role' p.pagetable p.sz) : Current L t role' p tf :=
  ⟨hg.edit.vm, h.space.grows hg h.max fun _ hva _ => hva, h.small⟩

theorem Current.owner (hva : va < TRAPFRAME) (hpte : leafPte s.mem 2 p.pagetable va = some e) :
    (∃ c i, lookup s.mem va 2 p.pagetable = some (c, i) ∧ role (PTE2PA e) = .leaf c i) ∨
      va / PGSIZE = SHM_VA / PGSIZE ∧ role (PTE2PA e) = .shared := h.space.owner h.vm hva hpte

theorem Current.in_use (hva : va < TRAPFRAME) (hpte : leafPte s.mem 2 p.pagetable va = some e) :
    Data L role (PTE2PA e) ∧ IsPage L (PTE2PA e) := by
  rcases h.owner hva hpte with ⟨c, i, -, hrole⟩ | ⟨-, hrole⟩ <;>
    exact ⟨⟨by simp [hrole, Role.level], fun _ => by simp [hrole]⟩, h.vm.page _ (by simp [hrole]) (by simp [hrole])⟩

theorem Current.page_inj (hva : va < TRAPFRAME) (hva' : va' < TRAPFRAME)
    (hpte : leafPte s.mem 2 p.pagetable va = some e) (hpte' : leafPte s.mem 2 p.pagetable va' = some e')
    (heq : PTE2PA e' = PTE2PA e) : va' / PGSIZE = va / PGSIZE := by
  rcases h.owner hva hpte with ⟨c, i, hl, hrole⟩ | ⟨hshm, hrole⟩ <;>
    rcases h.owner hva' hpte' with ⟨c', i', hl', hrole'⟩ | ⟨hshm', hrole'⟩ <;> rw [heq, hrole] at hrole'
  · rw [Role.leaf.injEq] at hrole'
    rw [← hrole'.1, ← hrole'.2] at hl'
    obtain ⟨-, -, hpx⟩ := h.vm.wired.lookup_inj h.space.top h.space.top hl' hl
    exact (px_eq_iff (high_not_user hva').1 (high_not_user hva).1).mp hpx
  · simp at hrole'
  · simp at hrole'
  · exact hshm'.trans hshm.symm

theorem Current.user_lt (h39 : va < 2 ^ 39) (hpte : leafPte s.mem 2 p.pagetable va = some e) (hu : hasFlag e PTE_U) :
    va < TRAPFRAME := by
  rcases layout_cases h39 with hlow | hframe | htramp | hhigh
  · exact hlow
  · rw [h.space.frame va h39 hframe, Option.some.injEq] at hpte
    rw [← hpte, has_leaf (by decide) (by decide)] at hu
    exact absurd hu (by decide)
  · rw [h.space.tramp va h39 htramp, Option.some.injEq] at hpte
    rw [← hpte, has_leaf (by decide) (by decide)] at hu
    exact absurd hu (by decide)
  · simp [h.space.high va hhigh h39] at hpte

end

end Current

structure Wrote (L : Layout) (s : Phys) (role : Nat → Role) (t : Phys) (role' : Nat → Role) (p : Self) (tf va : Nat)
    (bytes : List Byte) : Prop where
  now : Current L t role' p tf
  grows : Grows L s role t role' p.pagetable p.sz
  rights : ∀ va', va' < TRAPFRAME → SameRights (viewFlags s.mem p.pagetable va') (viewFlags t.mem p.pagetable va')
  byte : ∀ va', va' < TRAPFRAME →
    viewByte t.mem p.pagetable va' = writeAt (viewByte s.mem p.pagetable) va bytes va'

section Wrote

theorem Wrote.refl (h : Current L s role p tf) (va : Nat) : Wrote L s role s role p tf va [] :=
  ⟨h, .refl h.vm h.space.top _, fun _ _ => .refl _, fun _ _ => by rw [writeAt_nil]⟩

theorem Wrote.trans (h : Wrote L s role t role' p tf va xs) (h' : Wrote L t role' u ρ p tf (va + xs.length) ys) :
    Wrote L s role u ρ p tf va (xs ++ ys) where
  now := h'.now
  grows := h.grows.trans h'.grows
  rights := fun va' hva' => (h.rights va' hva').trans (h'.rights va' hva')
  byte := fun va' hva' => by rw [h'.byte va' hva', writeAt_append, writeAt_congr (h.byte va' hva')]

theorem Wrote.of_alike (h : Current L s role p tf) (hg : Grows L s role t role' p.pagetable p.sz)
    (ha : ∀ va', va' < TRAPFRAME → Alike s.mem p.pagetable t.mem p.pagetable va') :
    Wrote L s role t role' p tf va [] :=
  ⟨h.grows hg, hg, fun va' hva' => (ha va' hva').rights, fun va' hva' => by rw [writeAt_nil, (ha va' hva').byte]⟩

theorem Wrote.alike (h : Wrote L s role t role' p tf va []) (hva : va' < TRAPFRAME) :
    Alike s.mem p.pagetable t.mem p.pagetable va' :=
  ⟨h.rights va' hva, by rw [h.byte va' hva, writeAt_nil]⟩

end Wrote

section Fault

-- The roles if all such pages were shared pages, and those in K somebody else's.
def hushed (L : Layout) (role : Nat → Role) (K : Nat → Bool) (a : Nat) : Role :=
  if (role a).level ≠ none ∨ IsPage L a ∧ role a = .free then role a
  else if K a ∨ ¬IsPage L a then .other else .shared

theorem hushed_of_table (K : Nat → Bool) (h : (role a).level ≠ none) : hushed L role K a = role a := if_pos (.inl h)

theorem hushed_of_data (h : Data L role a) :
    hushed L role K a = if K a ∨ ¬IsPage L a then .other else .shared :=
  if_neg fun hor => hor.elim (fun hl => hl h.1) fun hf => h.2 hf.1 hf.2

theorem hushed_level (role : Nat → Role) (K : Nat → Bool) (a : Nat) : (hushed L role K a).level = (role a).level := by
  by_cases h : (role a).level ≠ none ∨ IsPage L a ∧ role a = .free
  · rw [hushed, if_pos h]
  · obtain ⟨hl, -⟩ := not_or.mp h
    rw [hushed, if_neg h, not_not.mp hl]
    split <;> rfl

theorem Vm.hush (h : Vm L s role) (K : Nat → Bool) : Vm L s (hushed L role K) where
  alloc := by
    obtain ⟨free, hinv⟩ := h.alloc
    refine ⟨free, hinv.congrRefs fun a hp => ?_⟩
    by_cases ha : (role a).level ≠ none ∨ IsPage L a ∧ role a = .free
    · rw [hushed, if_pos ha]
    · have hne : role a ≠ .free := fun hfree => ha (.inr ⟨hp, hfree⟩)
      rw [hushed, if_neg ha, if_neg hne]
      split <;> rfl
  page := by
    intro a h1 h2
    by_contra hp
    by_cases hl : (role a).level ≠ none
    · rw [hushed_of_table K hl] at h1 h2
      exact hp (h.page a h1 h2)
    · refine h2 ?_
      rw [hushed_of_data ⟨not_not.mp hl, fun hp' => absurd hp' hp⟩, if_pos (.inr hp)]
  wired := by
    refine ⟨fun b i l hb hv => ?_, fun a l b i ha => ?_, fun a b i ha => ?_⟩
    · rw [hushed_level] at hb
      obtain ⟨htable, hin⟩ := h.wired.down b i l hb hv
      exact ⟨by rw [hushed_of_table K (by simp [htable]), htable], hin⟩
    · have hl := hushed_level (L := L) role K a
      rw [ha, Role.level_table] at hl
      rw [hushed_of_table K (by simp [← hl])] at ha
      rw [hushed_level]
      exact h.wired.up a l b i ha
    · rw [hushed] at ha
      split_ifs at ha with h1
      obtain ⟨hb, hrest⟩ := h.wired.back a b i ha
      exact ⟨by rwa [hushed_level], hrest⟩

theorem Data.ne_top (h : Data L role a) (hr : role r = .top 2) : a ≠ r := by
  rintro rfl
  simp [Data, hr] at h

theorem Edit.hushed_data (h : Edit L s (hushed L role K) t role' r P)
    (hr : role r = .top 2) (ha : Data L role a) (hK : K a = true) : t.mem a = s.mem a := by
  have hrole : hushed L role K a = .other := by rw [hushed_of_data ha, if_pos (.inl hK)]
  exact h.frame.mem_eq a (ha.ne_top hr) (by rw [hrole]; rfl) (by rw [hrole]; rfl) (by rw [hrole]; decide)

theorem Vm.vmfault_data (h : Vm L s role) (hr : role p.pagetable = .top 2)
    (hok : vmfault L p p.pagetable va s = .ok (a, t)) (hx : Data L role x) : t.mem x = s.mem x := by
  have hr' : hushed L role (fun _ => true) p.pagetable = .top 2 := (hushed_of_table _ (by simp [hr])).trans hr
  have hfaults := (h.hush fun _ => true).vmfault_spec hr' p.pagetable va
  rw [hok] at hfaults
  cases hfaults with
  | failed edit => exact edit.hushed_data hr hx rfl
  | mapped nonzero page below max was edit new => exact edit.hushed_data hr hx rfl

theorem Vm.vmfault_zero (h : Vm L s role) (hr : role p.pagetable = .top 2)
    (hok : vmfault L p p.pagetable va s = .ok (a, t)) (ha : a ≠ 0) : ∀ i, t.mem a i = 0#64 := by
  have hfaults := h.vmfault_spec hr p.pagetable va
  rw [hok] at hfaults
  cases hfaults with
  | failed edit => exact absurd rfl ha
  | mapped nonzero page below max was edit new =>
    obtain ⟨hle, hlt, hal, hpage⟩ := pgrounddown_bounds va
    have hva0 := pgrounddown_lt max
    have hnone : leafPte s.mem 2 p.pagetable (PGROUNDDOWN va) = none := by
      rw [leafPte_congr_page (lt_39_of_lt_MAXVA max) (lt_39_of_lt_MAXVA hva0) hpage, was]
    simp only [vmfault, if_neg (Nat.not_le.mpr below), ismapped_eq hva0, ok_bind, hnone, ne_eq, not_true_eq_false,
      decide_false, Bool.false_eq_true, if_false] at hok
    obtain ⟨⟨ka, u⟩, hk, hok⟩ := bind_eq_ok.mp hok
    simp only at hok
    split at hok
    · rw [return_pair_eq_ok] at hok
      exact absurd hok.1.symm ha
    next hka =>
      rcases h.allocPage hk hka (fills_memset u ka 0) hr hva0 hal hnone
          (show IsFlags (PTE_W ||| PTE_U ||| PTE_R) by decide) with
        ⟨t', w, role', hm, hkf, -⟩ | ⟨t', role', hm, hmem, -⟩
      · simp only [hm, ok_bind, hkf, pure_eq_ok, if_pos (show (-1 : Int) ≠ 0 by decide), Except.ok.injEq,
          Prod.mk.injEq] at hok
        exact absurd hok.1.symm ha
      · simp only [hm, ok_bind, pure_eq_ok] at hok
        cases hok
        intro i
        rw [hmem]
        simp [Phys.memset, memsetWord]

theorem Current.vmfault_spec (h : Current L s role p tf) (va : Nat) :
    ∃ a t role', vmfault L p p.pagetable va s = .ok (a, t) ∧ (∀ va₀, Wrote L s role t role' p tf va₀ []) ∧
      (a = 0 ∨ va < p.sz ∧ leafPte s.mem 2 p.pagetable va = none ∧
        leafPte t.mem 2 p.pagetable va = some (PA2PTE a ||| (PTE_W ||| PTE_U ||| PTE_R) ||| PTE_V) ∧
        PTE2PA (PA2PTE a ||| (PTE_W ||| PTE_U ||| PTE_R) ||| PTE_V) = a) := by
  have hfaults := h.vm.vmfault_spec h.space.top p.pagetable va
  cases hres : vmfault L p p.pagetable va s with
  | error e =>
    rw [hres] at hfaults
    have := hfaults.not_stuck
    have := h.max
    omega
  | ok res =>
    obtain ⟨a, t⟩ := res
    have hdata : ∀ va' e, va' < TRAPFRAME → leafPte s.mem 2 p.pagetable va' = some e →
        t.mem (PTE2PA e) = s.mem (PTE2PA e) := by
      intro va' e hva' he
      exact h.vm.vmfault_data h.space.top hres (h.in_use hva' he).1
    rw [hres] at hfaults
    cases hfaults with
    | @failed _ role' edit =>
      refine ⟨0, t, role', rfl, fun _ => .of_alike h (edit.grows p.sz) fun va' hva' => ?_, .inl rfl⟩
      exact alike_of_pte (edit.same va' (high_not_user hva').1 not_false).pte fun e he => hdata va' e hva' he
    | @mapped _ _ role' nonzero page below max was edit new =>
      have hpa := PTE2PA_leaf page.lt_pow page.1 (show IsFlags (PTE_W ||| PTE_U ||| PTE_R) by decide)
      refine ⟨a, t, role', rfl, fun _ => .of_alike h ?_ fun va' hva' => ?_, .inr ⟨below, was, ?_, hpa⟩⟩
      · exact Edit.grows_page max below was edit fun va' h39 heq => (new va' h39 heq).1
      · have h39 := (high_not_user hva').1
        by_cases heq : va' / PGSIZE = va / PGSIZE
        · refine alike_of_zero ?_ (new va' h39 heq).2 ?_
          · rw [leafPte_congr_page (lt_39_of_lt_MAXVA max) h39 heq, was]
          · rw [hpa]
            exact h.vm.vmfault_zero h.space.top hres nonzero
        · exact alike_of_pte (edit.same va' h39 heq).pte fun e he => hdata va' e hva' he
      · exact (new va (lt_39_of_lt_MAXVA max) rfl).2

end Fault

section Opens

-- What copyin(), and copyout() where write is set, ask of the page of an address.
def Opens (m : Mem) (p : Self) (write : Bool) (va : Nat) : Prop :=
  va < MAXVA ∧ ((∃ e, leafPte m 2 p.pagetable va = some e ∧ hasFlag e PTE_U ∧ (write = true → hasFlag e PTE_W)) ∨
    leafPte m 2 p.pagetable va = none ∧ PGROUNDDOWN va < p.sz)

theorem opens_iff : Opens m p w va ↔ va < MAXVA ∧ (leafPte m 2 p.pagetable va = none → PGROUNDDOWN va < p.sz) ∧
    hasFlag (viewFlags m p.pagetable va) PTE_U ∧ (w = true → hasFlag (viewFlags m p.pagetable va) PTE_W) := by
  have hU : hasFlag EAGER PTE_U := by decide
  have hW : hasFlag EAGER PTE_W := by decide
  rw [Opens, viewFlags]
  cases leafPte m 2 p.pagetable va with
  | none => simp [hU, hW]
  | some e => simp

theorem opens_page (hpage : va' / PGSIZE = va / PGSIZE) : Opens m p w va' ↔ Opens m p w va := by
  have hmax : va' < MAXVA ↔ va < MAXVA := by
    simp only [MAXVA_eq, PGSIZE_eq] at *
    omega
  have hdown : PGROUNDDOWN va' = PGROUNDDOWN va := by rw [PGROUNDDOWN, hpage, PGROUNDDOWN]
  rw [Opens, Opens, hmax, hdown]
  refine and_congr_right fun hva => ?_
  rw [leafPte_congr_page (lt_39_of_lt_MAXVA hva) (lt_39_of_lt_MAXVA (hmax.mpr hva)) hpage]

theorem Current.opens_lt (h : Current L s role p tf) (ho : Opens s.mem p w va) : va < TRAPFRAME := by
  obtain ⟨hmax, ⟨e, he, hu, -⟩ | ⟨-, hlt⟩⟩ := ho
  · exact h.user_lt (lt_39_of_lt_MAXVA hmax) he hu
  · have := h.small
    have := pgrounddown_bounds va
    simp only [TRAPFRAME_eq, PGSIZE_eq] at *
    omega

theorem Wrote.opens (hw : Wrote L s role t role' p tf va bytes) (h : Current L s role p tf) :
    Opens t.mem p w va' ↔ Opens s.mem p w va' := by
  by_cases hva : va' < TRAPFRAME
  swap
  · exact iff_of_false (fun ho => hva (hw.now.opens_lt ho)) fun ho => hva (h.opens_lt ho)
  have h39 := (high_not_user hva).1
  rw [opens_iff, opens_iff, (hw.rights va' hva).2.1, (hw.rights va' hva).2.2]
  refine and_congr_right fun _ => and_congr_left fun _ => ?_
  cases hs : leafPte s.mem 2 p.pagetable va' with
  | none =>
    rcases hw.grows.new va' h39 hs with hn | ⟨hlt, -⟩
    · rw [hn]
    · exact iff_of_true (fun _ => hlt) fun _ => hlt
  | some e => rw [(hw.grows.keep va' h39 (by simp [hs])).1, hs]

theorem Current.userPage_spec (h : Current L s role p tf) (hround : PGROUNDDOWN va = va) :
    ∃ pa t role', userPage L p p.pagetable va s = .ok (pa, t) ∧ (∀ va₀, Wrote L s role t role' p tf va₀ []) ∧
      (pa = 0 ∧ (Opens s.mem p false va → Denied L p s va) ∨
        pa ≠ 0 ∧ Opens s.mem p false va ∧ ¬Denied L p s va ∧
          ∃ e, leafPte t.mem 2 p.pagetable va = some e ∧ PTE2PA e = pa) := by
  by_cases hmax : va < MAXVA
  swap
  · have hle := h.max
    refine ⟨0, s, role, ?_, .refl h, .inl ⟨rfl, fun ho => absurd ho.1 hmax⟩⟩
    simp only [userPage, walkaddr, if_pos (Nat.le_of_not_lt hmax), ok_bind, if_true, vmfault,
      if_pos (show p.sz ≤ va by omega)]
  obtain ⟨a, t, role', hok, hw, hcase⟩ := h.vmfault_spec va
  cases hpte : leafPte s.mem 2 p.pagetable va with
  | none =>
    have hfault : userPage L p p.pagetable va s = vmfault L p p.pagetable va s := by
      simp only [userPage, walkaddr_eq hmax, hpte, ok_bind, if_true]
    refine ⟨a, t, role', hfault.trans hok, hw, ?_⟩
    by_cases ha : a = 0
    · refine .inl ⟨ha, fun ho => ?_⟩
      rcases ho.2 with ⟨e, he, -⟩ | ⟨-, hlt⟩
      · simp [hpte] at he
      · exact ⟨hround ▸ hlt, by rw [hround, hpte], t, ha ▸ hok⟩
    · obtain ⟨hlt, -, hnew, hpa⟩ := hcase.resolve_left ha
      refine .inr ⟨ha, ⟨hmax, .inr ⟨hpte, by rwa [hround]⟩⟩, ?_, _, hnew, hpa⟩
      rintro ⟨-, -, u, hu⟩
      simp only [hok, Except.ok.injEq, Prod.mk.injEq] at hu
      exact ha hu.1
  | some e =>
    by_cases hu : hasFlag e PTE_U
    · have hne := Nat.ne_of_gt (h.in_use (h.user_lt (lt_39_of_lt_MAXVA hmax) hpte hu) hpte).2.pos
      refine ⟨PTE2PA e, s, role, userPage_mapped hmax hpte hu hne p, .refl h,
        .inr ⟨hne, ⟨hmax, .inl ⟨e, hpte, hu, by simp⟩⟩, ?_, e, hpte, rfl⟩⟩
      rintro ⟨-, hnone, -⟩
      simp [hround, hpte] at hnone
    · have hfault : userPage L p p.pagetable va s = vmfault L p p.pagetable va s := by
        simp only [userPage, walkaddr_eq hmax, hpte, ok_bind, if_neg hu, if_true]
      refine ⟨a, t, role', hfault.trans hok, hw, .inl ⟨hcase.resolve_right ?_, ?_⟩⟩
      · rintro ⟨-, hnone, -⟩
        simp [hpte] at hnone
      · rintro ⟨-, ⟨e', he', hu', -⟩ | ⟨hnone, -⟩⟩
        · rw [hpte, Option.some.injEq] at he'
          exact absurd (he' ▸ hu') hu
        · simp [hpte] at hnone

end Opens

section Copyin

theorem turn_pos (va : Nat) (h : len ≠ 0) : 0 < min (PGSIZE - (va - PGROUNDDOWN va)) len := by
  have := pgrounddown_bounds va
  simp only [PGSIZE_eq] at *
  omega

theorem copyinLoop_turns (L : Layout) (p : Self) (r va : Nat) (dst : List Byte) (s : Phys) (ha : len ≤ a)
    (hb : len ≤ b) : copyinLoop L p r a va len dst s = copyinLoop L p r b va len dst s := by
  induction a generalizing b va len dst s with
  | zero =>
    have hlen : len = 0 := by omega
    cases b <;> simp [copyinLoop, hlen]
  | succ a ih =>
    by_cases hlen : len = 0
    · cases b <;> simp [copyinLoop, hlen]
    obtain ⟨b, rfl⟩ : ∃ b', b = b' + 1 := ⟨b - 1, by omega⟩
    have hpos := turn_pos va hlen
    simp only [copyinLoop, if_neg hlen]
    cases userPage L p r (PGROUNDDOWN va) s with
    | error e => rfl
    | ok res =>
      simp only [ok_bind]
      split
      · rfl
      · exact ih _ _ _ (by omega) (by omega)

theorem copyinLoop_succ (hpage : userPage L p p.pagetable (PGROUNDDOWN va) s = .ok (pa, t)) (hpa : pa ≠ 0)
    (hn : 0 < n) (hmin : min (PGSIZE - (va - PGROUNDDOWN va)) (n + rest) = n) (turns : Nat) (dst : List Byte) :
    copyinLoop L p p.pagetable (turns + 1) va (n + rest) dst s =
      copyinLoop L p p.pagetable turns (wrap64 (PGROUNDDOWN va + PGSIZE)) rest
        (dst ++ t.readBytes pa (va - PGROUNDDOWN va) n) t := by
  simp only [copyinLoop, if_neg (show ¬n + rest = 0 by omega), hpage, ok_bind, if_neg hpa, hmin, Nat.add_sub_cancel_left]

theorem turn_page (hi : i < PGSIZE - (va - PGROUNDDOWN va)) : (va + i) / PGSIZE = PGROUNDDOWN va / PGSIZE := by
  simp only [PGROUNDDOWN, PGSIZE_eq] at *
  omega

theorem turn_off (va : Nat) : va - PGROUNDDOWN va = va % PGSIZE := by
  simp only [PGROUNDDOWN, PGSIZE_eq]
  omega

theorem turn_next (hva : va < MAXVA) (hn : min (PGSIZE - (va - PGROUNDDOWN va)) len = n) (hlt : n < len) :
    wrap64 (PGROUNDDOWN va + PGSIZE) = va + n := by
  have hbounds := pgrounddown_bounds va
  have hsum : PGROUNDDOWN va + PGSIZE = va + n := by omega
  rw [hsum, wrap64_eq_of_lt]
  simp only [MAXVA_eq, PGSIZE_eq] at *
  omega

theorem pgrounddown_idem (va : Nat) : PGROUNDDOWN (PGROUNDDOWN va) = PGROUNDDOWN va := by
  simp only [PGROUNDDOWN, PGSIZE_eq]
  omega

theorem pgrounddown_congr (h : va' / PGSIZE = va / PGSIZE) : PGROUNDDOWN va' = PGROUNDDOWN va := by
  rw [PGROUNDDOWN, h, PGROUNDDOWN]

theorem not_denied_of_mapped (hpte : leafPte s.mem 2 p.pagetable (PGROUNDDOWN va) = some e) : ¬Denied L p s (PGROUNDDOWN va) := by
  rintro ⟨-, hnone, -⟩
  simp [pgrounddown_idem, hpte] at hnone

theorem leafPte_page (hpage : va' / PGSIZE = va / PGSIZE) (hva : va < TRAPFRAME) :
    va' < TRAPFRAME ∧ leafPte m 2 r va' = leafPte m 2 r va := by
  have hva' : va' < TRAPFRAME := by
    simp only [TRAPFRAME_eq, PGSIZE_eq] at *
    omega
  exact ⟨hva', leafPte_congr_page (high_not_user hva).1 (high_not_user hva').1 hpage⟩

theorem readBytes_view (hpte : leafPte s.mem 2 r va = some e) (hva : va < TRAPFRAME) (hn : va % PGSIZE + n ≤ PGSIZE) :
    s.readBytes (PTE2PA e) (va % PGSIZE) n = readAt (viewByte s.mem r) va n := by
  rw [readBytes_eq]
  refine readAt_congr fun i hi => ?_
  have hpage : (va + i) / PGSIZE = va / PGSIZE := by
    simp only [PGSIZE_eq] at *
    omega
  rw [viewByte_some ((leafPte_page hpage hva).2.trans hpte)]
  congr 1
  simp only [PGSIZE_eq] at *
  omega

theorem Current.copyinLoop_spec (h : Current L s role p tf) (hturns : len ≤ turns) (va : Nat) (dst : List Byte) :
    ∃ n t role', n ≤ len ∧ Wrote L s role t role' p tf 0 [] ∧
      copyinLoop L p p.pagetable turns va len dst s =
        .ok (if n = len then 0 else -1, dst ++ readAt (viewByte s.mem p.pagetable) va n, t) ∧
      (∀ i, i < n → Opens s.mem p false (va + i) ∧ ∀ bytes u,
        copyinLoop L p p.pagetable turns va i dst s = .ok (0, bytes, u) → ¬Denied L p u (PGROUNDDOWN (va + i))) ∧
      (n < len → (n = 0 ∨ (va + n) % PGSIZE = 0) ∧ (Opens s.mem p false (va + n) → ∃ bytes u,
        copyinLoop L p p.pagetable turns va n dst s = .ok (0, bytes, u) ∧ Denied L p u (PGROUNDDOWN (va + n)))) := by
  induction turns generalizing s role va len dst with
  | zero =>
    obtain rfl : len = 0 := by omega
    exact ⟨0, s, role, Nat.le_refl 0, .refl h 0, by simp [copyinLoop, readAt], fun i hi => by omega, fun hlt => by omega⟩
  | succ turns ih =>
    by_cases hlen : len = 0
    · subst hlen
      exact ⟨0, s, role, Nat.le_refl 0, .refl h 0, by simp [copyinLoop, readAt], fun i hi => by omega,
        fun hlt => by omega⟩
    obtain ⟨hle, hlt, hal, hpg⟩ := pgrounddown_bounds va
    obtain ⟨pa, t, role', hpage, hw, ⟨rfl, hdenied⟩ | ⟨hpa, hopen, hnd, e, hpte, rfl⟩⟩ :=
      h.userPage_spec (pgrounddown_idem va)
    · refine ⟨0, t, role', Nat.zero_le _, hw 0, ?_, fun i hi => by omega,
        fun _ => ⟨.inl rfl, fun ho => ⟨dst, s, by simp [copyinLoop], ?_⟩⟩⟩
      · simp only [copyinLoop, if_neg hlen, hpage, ok_bind, if_true, pure_eq_ok, if_neg (Ne.symm hlen)]
        simp [readAt]
      · rw [Nat.add_zero] at ho ⊢
        exact hdenied ((opens_page hpg).mpr ho)
    generalize hn : min (PGSIZE - (va - PGROUNDDOWN va)) len = n
    have hn0 : 0 < n := hn ▸ turn_pos va hlen
    have hnle : n ≤ len := hn ▸ Nat.min_le_right ..
    obtain ⟨rest, rfl⟩ : ∃ rest, len = n + rest := ⟨len - n, by omega⟩
    have hsame : ∀ i, i < n → (va + i) / PGSIZE = PGROUNDDOWN va / PGSIZE := fun i hi => turn_page (by omega)
    have hlow := h.opens_lt hopen
    obtain ⟨hva, hpteva⟩ := leafPte_page (m := t.mem) (r := p.pagetable) hpg.symm hlow
    -- the faults have not changed what the user sees
    have hview : ∀ va' k, (∀ i, i < k → va' + i < TRAPFRAME) →
        readAt (viewByte t.mem p.pagetable) va' k = readAt (viewByte s.mem p.pagetable) va' k := fun va' k hk =>
      readAt_congr fun i hi => ((hw 0).alike (hk i hi)).byte
    have hread : t.readBytes (PTE2PA e) (va - PGROUNDDOWN va) n = readAt (viewByte s.mem p.pagetable) va n := by
      rw [turn_off, readBytes_view (hpteva.trans hpte) hva (by simp only [PGSIZE_eq] at *; omega)]
      exact hview va n fun i hi => (leafPte_page (m := t.mem) (r := p.pagetable) (hsame i hi) hlow).1
    have hstep : ∀ k, min (PGSIZE - (va - PGROUNDDOWN va)) (n + k) = n →
        copyinLoop L p p.pagetable (turns + 1) va (n + k) dst s =
          copyinLoop L p p.pagetable turns (wrap64 (PGROUNDDOWN va + PGSIZE)) k
            (dst ++ readAt (viewByte s.mem p.pagetable) va n) t := by
      intro k hk
      rw [copyinLoop_succ hpage hpa hn0 hk turns dst, hread]
    have hwrap : 0 < rest → wrap64 (PGROUNDDOWN va + PGSIZE) = va + n := fun hrest =>
      turn_next ((opens_page hpg).mp hopen).1 hn (by omega)
    obtain ⟨k, w, ρ, hk, hw', hok, hdone, hstop⟩ := ih (hw 0).now (by omega : rest ≤ turns)
      (wrap64 (PGROUNDDOWN va + PGSIZE)) (dst ++ readAt (viewByte s.mem p.pagetable) va n)
    refine ⟨n + k, w, ρ, by omega, (hw 0).trans hw', ?_, fun i hi => ?_, fun hlt' => ?_⟩
    · rw [hstep rest hn, hok, readAt_add, append_assoc]
      simp only [Nat.add_left_cancel_iff]
      rcases Nat.eq_zero_or_pos k with rfl | hkpos
      · simp [readAt]
      · rw [hwrap (by omega)] at hdone ⊢
        rw [hview _ k fun i hi => (hw 0).now.opens_lt (hdone i hi).1]
    · by_cases hin : i < n
      · refine ⟨(opens_page (hsame i hin)).mpr hopen, fun bytes u hu => ?_⟩
        rw [pgrounddown_congr (hsame i hin), pgrounddown_idem]
        rcases Nat.eq_zero_or_pos i with rfl | hipos
        · simp only [copyinLoop, if_true, Except.ok.injEq, Prod.mk.injEq] at hu
          exact hu.2.2 ▸ hnd
        · have hone := copyinLoop_succ hpage hpa hipos (show min _ (i + 0) = i by omega) turns dst
          simp only [Nat.add_zero, hu] at hone
          cases turns <;> simp only [copyinLoop, if_true, Except.ok.injEq, Prod.mk.injEq] at hone <;>
            exact hone.2.2 ▸ not_denied_of_mapped hpte
      · obtain ⟨j, rfl⟩ := Nat.exists_eq_add_of_le (Nat.le_of_not_lt hin)
        obtain ⟨hopenj, hdenj⟩ := hdone j (by omega)
        rw [hwrap (by omega), Nat.add_assoc] at hopenj hdenj
        exact ⟨((hw 0).opens h).mp hopenj, fun bytes u hu => hdenj bytes u (by rw [← hwrap (by omega), ← hstep j (by omega), hu])⟩
    · rw [← Nat.add_assoc, ← hwrap (by omega)]
      obtain ⟨hpart, hden⟩ := hstop (by omega)
      refine ⟨.inr ?_, fun ho => ?_⟩
      · rcases hpart with rfl | hpart
        · rw [Nat.add_zero, hwrap (by omega)]
          simp only [PGSIZE_eq] at *
          omega
        · exact hpart
      · obtain ⟨bytes, u, hu, hd⟩ := hden (((hw 0).opens h).mpr ho)
        exact ⟨bytes, u, by rw [hstep k (by omega), hu], hd⟩

end Copyin

section Copyout

theorem Current.write_spec (h : Current L s role p tf) (hpte : leafPte s.mem 2 p.pagetable va = some e)
    (hva : va < TRAPFRAME) (hlen : va % PGSIZE + bytes.length ≤ PGSIZE) :
    Wrote L s role (s.writeBytes (PTE2PA e) (va % PGSIZE) bytes) role p tf va bytes := by
  have hfill := fills_writeBytes s (PTE2PA e) (va % PGSIZE) bytes
  have hplain := (h.in_use hva hpte).1.1
  have huser : UserLeaf s.mem role 2 p.pagetable va ∨ role (PTE2PA e) = .shared := by
    refine (h.owner hva hpte).imp ?_ fun hs => hs.2
    rintro ⟨c, i, hl, hrole⟩
    obtain ⟨c', i', hl', hv, rfl⟩ := leafPte_eq_some.mp hpte
    cases hl.symm.trans hl'
    exact ⟨c, i, hl, hv, hrole⟩
  have hgrows := h.vm.writeUser h.space.top hpte huser hfill p.sz
  generalize ht : s.writeBytes (PTE2PA e) (va % PGSIZE) bytes = t at hfill hgrows
  have hptes : ∀ va', leafPte t.mem 2 p.pagetable va' = leafPte s.mem 2 p.pagetable va' := by
    intro va'
    refine h.vm.wired.leafPte_congr (fun b hb => hfill.2.2 b ?_) (by rw [h.space.top, Role.level_top])
    rintro rfl
    exact hb hplain
  refine ⟨h.grows hgrows, hgrows, fun va' _ => ?_, fun va' hva' => ?_⟩
  · rw [viewFlags, viewFlags, hptes]
    exact .refl _
  by_cases hpage : va' / PGSIZE = va / PGSIZE
  · have hpte' := ((leafPte_page hpage hva).2).trans hpte
    have hiff : va ≤ va' ↔ va % PGSIZE ≤ va' % PGSIZE := by
      simp only [PGSIZE_eq] at *
      omega
    have hsub : va' - va = va' % PGSIZE - va % PGSIZE := by
      simp only [PGSIZE_eq] at *
      omega
    rw [viewByte_some ((hptes va').trans hpte'), ← ht, pageByte_writeBytes s _ _ _ (Nat.mod_lt _ (by decide)), writeAt,
      writeAt, viewByte_some hpte']
    simp only [hiff, hsub]
  · have hout : va + bytes.length ≤ va' ∨ va' < va := by
      simp only [PGSIZE_eq] at *
      omega
    rw [writeAt_outside _ _ hout]
    cases hpte' : leafPte s.mem 2 p.pagetable va' with
    | none => rw [viewByte_none hpte', viewByte_none ((hptes va').trans hpte')]
    | some e' =>
      rw [viewByte_some hpte', viewByte_some ((hptes va').trans hpte'), hfill.2.2]
      intro heq
      exact hpage (h.page_inj hva hva' hpte hpte' heq)

theorem copyoutLoop_turns (L : Layout) (p : Self) (r va : Nat) (src : List Byte) (s : Phys) (ha : src.length ≤ a)
    (hb : src.length ≤ b) : copyoutLoop L p r a va src s = copyoutLoop L p r b va src s := by
  induction a generalizing b va src s with
  | zero =>
    have hsrc : src = [] := length_eq_zero_iff.mp (by omega)
    cases b <;> simp [copyoutLoop, hsrc]
  | succ a ih =>
    by_cases hsrc : src = []
    · cases b <;> simp [copyoutLoop, hsrc]
    have hlen : 0 < src.length := length_pos_iff.mpr hsrc
    obtain ⟨b, rfl⟩ : ∃ b', b = b' + 1 := ⟨b - 1, by omega⟩
    have hd := pgrounddown_bounds va
    have hshort : ∀ c, src.length ≤ c + 1 → (src.drop (PGSIZE - (va - PGROUNDDOWN va))).length ≤ c := by
      intro c hc
      rw [length_drop]
      simp only [PGSIZE_eq] at *
      omega
    simp only [copyoutLoop, if_neg hsrc]
    split
    · rfl
    cases userPage L p r (PGROUNDDOWN va) s with
    | error e => rfl
    | ok res =>
      simp only [ok_bind]
      split
      · rfl
      cases walk r (PGROUNDDOWN va) false res.2 with
      | error e => rfl
      | ok res' =>
        obtain ⟨loc, u⟩ := res'
        cases loc with
        | none => rfl
        | some loc =>
          simp only [ok_bind]
          split
          · rfl
          · exact ih _ _ _ (hshort a ha) (hshort b hb)

theorem copyoutLoop_append (hmax : PGROUNDDOWN va < MAXVA)
    (hpage : userPage L p p.pagetable (PGROUNDDOWN va) s = .ok (PTE2PA e, t)) (hpa : PTE2PA e ≠ 0)
    (hpte : leafPte t.mem 2 p.pagetable (PGROUNDDOWN va) = some e) (hw : hasFlag e PTE_W)
    (hxs : xs ≠ []) (ys : List Byte) (htake : (xs ++ ys).take (PGSIZE - (va - PGROUNDDOWN va)) = xs)
    (hdrop : (xs ++ ys).drop (PGSIZE - (va - PGROUNDDOWN va)) = ys) (turns : Nat) :
    copyoutLoop L p p.pagetable (turns + 1) va (xs ++ ys) s =
      copyoutLoop L p p.pagetable turns (wrap64 (PGROUNDDOWN va + PGSIZE)) ys
        (t.writeBytes (PTE2PA e) (va - PGROUNDDOWN va) xs) := by
  obtain ⟨b, i, hl, -, hbe⟩ := leafPte_eq_some.mp hpte
  rw [← hbe] at hw
  have hne : xs ++ ys ≠ [] := by simp [hxs]
  simp only [copyoutLoop, if_neg hne, if_neg (Nat.not_le.mpr hmax), hpage, ok_bind, if_neg hpa, walk_false hmax, hl, hw,
    not_true_eq_false, if_false, htake, hdrop]

-- copyout() writes to the user's memory, up to a page that the user cannot write or for
-- which there is no memory.
def CopyoutEnds (L : Layout) (s : Phys) (role : Nat → Role) (p : Self) (tf turns va : Nat) (src : List Byte) : Prop :=
  ∃ n t role', n ≤ src.length ∧ Wrote L s role t role' p tf va (src.take n) ∧
    copyoutLoop L p p.pagetable turns va src s = .ok (if n = src.length then 0 else -1, t) ∧
    (∀ i, i < n → Opens s.mem p true (va + i) ∧ ∀ u,
      copyoutLoop L p p.pagetable turns va (src.take i) s = .ok (0, u) → ¬Denied L p u (PGROUNDDOWN (va + i))) ∧
    (n < src.length → (n = 0 ∨ (va + n) % PGSIZE = 0) ∧ (Opens s.mem p true (va + n) → ∃ u,
      copyoutLoop L p p.pagetable turns va (src.take n) s = .ok (0, u) ∧ Denied L p u (PGROUNDDOWN (va + n))))

theorem Current.copyoutLoop_spec (h : Current L s role p tf) (hturns : src.length ≤ turns) (va : Nat) :
    CopyoutEnds L s role p tf turns va src := by
  induction turns generalizing s role va src with
  | zero =>
    obtain rfl : src = [] := length_eq_zero_iff.mp (by omega)
    exact ⟨0, s, role, Nat.le_refl 0, .refl h va, by simp [copyoutLoop], fun i hi => by omega, fun hlt => by simp at hlt⟩
  | succ turns ih =>
    by_cases hsrc : src = []
    · subst hsrc
      exact ⟨0, s, role, Nat.le_refl 0, .refl h va, by simp [copyoutLoop], fun i hi => by omega, fun hlt => by simp at hlt⟩
    have hlen0 : 0 < src.length := length_pos_iff.mpr hsrc
    obtain ⟨hle, hlt, hal, hpg⟩ := pgrounddown_bounds va
    -- a turn that fails at once
    have hfail : ∀ t role', (∀ va₀, Wrote L s role t role' p tf va₀ []) →
        copyoutLoop L p p.pagetable (turns + 1) va src s = .ok (-1, t) →
        (Opens s.mem p true va → Denied L p s (PGROUNDDOWN va)) → CopyoutEnds L s role p tf (turns + 1) va src := fun t role' hw hok hden =>
      ⟨0, t, role', Nat.zero_le _, hw va, by rw [hok, if_neg (by omega)], fun i hi => by omega,
        fun _ => ⟨.inl rfl, fun ho => ⟨s, by simp [copyoutLoop], hden ho⟩⟩⟩
    have hread : Opens s.mem p true va → Opens s.mem p false (PGROUNDDOWN va) := fun ho => by
      rw [opens_page hpg, opens_iff]
      have := opens_iff.mp ho
      exact ⟨this.1, this.2.1, this.2.2.1, by simp⟩
    by_cases hmax : MAXVA ≤ PGROUNDDOWN va
    · refine hfail s role (.refl h) (by simp only [copyoutLoop, if_neg hsrc, if_pos hmax]) fun ho => ?_
      have := (hread ho).1
      omega
    obtain ⟨pa, t, role', hpage, hw, ⟨rfl, hdenied⟩ | ⟨hpa, hopen, hnd, e, hpte, rfl⟩⟩ :=
      h.userPage_spec (pgrounddown_idem va)
    · refine hfail t role' hw ?_ fun ho => hdenied (hread ho)
      simp only [copyoutLoop, if_neg hsrc, if_neg hmax, hpage, ok_bind, if_true, pure_eq_ok]
    have hlow := h.opens_lt hopen
    have hopenW : ∀ va', va' / PGSIZE = PGROUNDDOWN va / PGSIZE → (Opens s.mem p true va' ↔ hasFlag e PTE_W) := by
      intro va' hpage'
      have hrights := (hw 0).rights _ hlow
      rw [viewFlags_some hpte] at hrights
      rw [opens_page hpage', opens_iff, hrights.2.1]
      have := opens_iff.mp hopen
      exact ⟨fun ho => ho.2.2.2 rfl, fun hW => ⟨this.1, this.2.1, this.2.2.1, fun _ => hW⟩⟩
    by_cases hW : hasFlag e PTE_W
    swap
    · refine hfail t role' hw ?_ fun ho => absurd ((hopenW va hpg.symm).mp ho) hW
      obtain ⟨b, i, hl, -, hbe⟩ := leafPte_eq_some.mp hpte
      rw [← hbe] at hW
      simp only [copyoutLoop, if_neg hsrc, if_neg hmax, hpage, ok_bind, if_neg hpa,
        walk_false (Nat.lt_of_not_le hmax), hl, hW, not_false_eq_true, if_true, pure_eq_ok]
    have hoff := turn_off va
    generalize hn : PGSIZE - (va - PGROUNDDOWN va) = n
    have hsame : ∀ i, i < n → (va + i) / PGSIZE = PGROUNDDOWN va / PGSIZE := fun i hi => turn_page (by omega)
    have htaken : (src.take n).length = min n src.length := length_take ..
    obtain ⟨hva, hpteva⟩ := leafPte_page (m := t.mem) (r := p.pagetable) hpg.symm hlow
    have hput : ∀ xs, xs.length ≤ n →
        Wrote L t role' (t.writeBytes (PTE2PA e) (va % PGSIZE) xs) role' p tf va xs := fun xs hxs =>
      (hw va).now.write_spec (hpteva.trans hpte) hva (by simp only [PGSIZE_eq] at *; omega)
    have hwrite : Wrote L s role (t.writeBytes (PTE2PA e) (va % PGSIZE) (src.take n)) role' p tf va (src.take n) :=
      (hw va).trans (hput (src.take n) (by omega))
    -- the rest after a first turn that takes xs
    have hstep : ∀ xs ys, xs ≠ [] → (xs ++ ys).take n = xs → (xs ++ ys).drop n = ys →
        copyoutLoop L p p.pagetable (turns + 1) va (xs ++ ys) s = copyoutLoop L p p.pagetable turns
          (wrap64 (PGROUNDDOWN va + PGSIZE)) ys (t.writeBytes (PTE2PA e) (va % PGSIZE) xs) := by
      intro xs ys hxs htake hdrop
      rw [← hoff]
      exact copyoutLoop_append (Nat.lt_of_not_le hmax) hpage hpa hpte hW hxs ys (by rw [hn, htake]) (by rw [hn, hdrop])
        turns
    have hxs : src.take n ≠ [] := by
      rw [← length_pos_iff, length_take]
      omega
    have hrest : ∀ k, n < src.length → src.take (n + k) = src.take n ++ (src.drop n).take k ∧
        copyoutLoop L p p.pagetable (turns + 1) va (src.take (n + k)) s = copyoutLoop L p p.pagetable turns
          (wrap64 (PGROUNDDOWN va + PGSIZE)) ((src.drop n).take k)
          (t.writeBytes (PTE2PA e) (va % PGSIZE) (src.take n)) := by
      intro k hlong
      have hfull : (src.take n).length = n := by omega
      rw [take_add]
      exact ⟨rfl, hstep _ _ hxs (take_left' hfull) (drop_left' hfull)⟩
    have hwrap : n < src.length → wrap64 (PGROUNDDOWN va + PGSIZE) = va + n := fun hlong =>
      turn_next ((opens_page hpg).mp hopen).1 (by omega) hlong
    have hfirst : ∀ i, i < min n src.length → Opens s.mem p true (va + i) ∧ ∀ u,
        copyoutLoop L p p.pagetable (turns + 1) va (src.take i) s = .ok (0, u) →
          ¬Denied L p u (PGROUNDDOWN (va + i)) := by
      intro i hi
      refine ⟨(hopenW _ (hsame i (by omega))).mpr hW, fun u hu => ?_⟩
      rw [pgrounddown_congr (hsame i (by omega)), pgrounddown_idem]
      rcases Nat.eq_zero_or_pos i with rfl | hipos
      · simp only [take_zero, copyoutLoop, if_true, Except.ok.injEq, Prod.mk.injEq] at hu
        exact hu.2 ▸ hnd
      · have hlast := hstep (src.take i) [] (by rw [← length_pos_iff, length_take]; omega)
          (by rw [append_nil, take_take, Nat.min_eq_right (by omega)])
          (by rw [append_nil, drop_eq_nil_of_le (by rw [length_take]; omega)])
        rw [append_nil, hu] at hlast
        have hpte' := ((hput (src.take i) (by rw [length_take]; omega)).grows.keep (PGROUNDDOWN va)
          (high_not_user hlow).1 (by simp [hpte])).1
        cases turns <;> simp only [copyoutLoop, if_true, Except.ok.injEq, Prod.mk.injEq] at hlast <;>
          exact hlast.2 ▸ not_denied_of_mapped (hpte'.trans hpte)
    by_cases hlong : n < src.length
    swap
    · -- the last turn
      have hall : src.take n = src := take_of_length_le (by omega)
      rw [hall] at hwrite
      have hlast := hstep src [] hsrc (by rw [append_nil, hall])
        (by rw [append_nil, drop_eq_nil_of_le (by omega)])
      rw [append_nil] at hlast
      refine ⟨src.length, _, role', Nat.le_refl _, by rwa [take_length], ?_, fun i hi => hfirst i (by omega),
        fun hlt => by omega⟩
      rw [hlast]
      cases turns <;> simp [copyoutLoop]
    obtain ⟨k, w, ρ, hk, hw', hok, hdone, hstop⟩ := ih hwrite.now (by rw [length_drop]; omega : (src.drop n).length ≤ turns)
      (wrap64 (PGROUNDDOWN va + PGSIZE))
    rw [hwrap hlong] at hw' hok hdone hstop
    rw [length_drop] at hk hok hstop
    have hall := (hrest (src.length - n) hlong).2
    rw [Nat.add_sub_cancel' (Nat.le_of_lt hlong), take_length, ← length_drop, take_length, hwrap hlong] at hall
    refine ⟨n + k, w, ρ, by omega, ?_, ?_, fun i hi => ?_, fun hlt' => ?_⟩
    · rw [(hrest k hlong).1]
      exact hwrite.trans (by rwa [htaken, Nat.min_eq_left (Nat.le_of_lt hlong)])
    · rw [hall, hok]
      simp only [show n + k = src.length ↔ k = src.length - n by omega]
    · by_cases hin : i < n
      · exact hfirst i (by omega)
      · obtain ⟨j, rfl⟩ := Nat.exists_eq_add_of_le (Nat.le_of_not_lt hin)
        obtain ⟨hopenj, hdenj⟩ := hdone j (by omega)
        rw [Nat.add_assoc] at hopenj hdenj
        refine ⟨(hwrite.opens h).mp hopenj, fun u hu => hdenj u ?_⟩
        rw [← hwrap hlong, ← (hrest j hlong).2, hu]
    · rw [← Nat.add_assoc]
      obtain ⟨hpart, hden⟩ := hstop (by omega)
      refine ⟨.inr ?_, fun ho => ?_⟩
      · rcases hpart with rfl | hpart
        · simp only [PGSIZE_eq] at *
          omega
        · exact hpart
      · obtain ⟨u, hu, hd⟩ := hden ((hwrite.opens h).mpr ho)
        exact ⟨u, by rw [(hrest k hlong).2, hwrap hlong, hu], hd⟩

end Copyout

end Xv6
