import Xv6.Vm.Copy
import Xv6.Lib.Memory

namespace Xv6

open Lib

variable {L : Layout} {s t u : Phys} {m : Mem} {role role' ρ : Nat → Role} {r sz : Nat}

theorem Vm.uvmclear_spec (h : Vm L s role) (hr : role r = .top 2) (va : Nat) :
    (∃ e, uvmclear r va s = .error e ∧
      (MAXVA ≤ va ∧ e = .walk ∨ leafPte s.mem 2 r va = none ∧ e = .uvmclear)) ∨
    ∃ t, uvmclear r va s = .ok t ∧ va < MAXVA ∧
      Edit L s role t role r (fun va' => va' / PGSIZE = va / PGSIZE) ∧
      ∀ va', va' < 2 ^ 39 → va' / PGSIZE = va / PGSIZE →
        leafPte t.mem 2 r va' = (leafPte s.mem 2 r va').map (· &&& ~~~PTE_U) ∧
        (UserLeaf s.mem role 2 r va' → UserLeaf t.mem role 2 r va') := by
  by_cases hhigh : MAXVA ≤ va
  · left
    exact ⟨.walk, by rw [uvmclear, walk, if_pos hhigh, error_bind], .inl ⟨hhigh, rfl⟩⟩
  have hva : va < MAXVA := by omega
  have h39 := lt_39_of_lt_MAXVA hva
  cases hl : lookup s.mem va 2 r with
  | none =>
    left
    refine ⟨.uvmclear, by rw [uvmclear, walk_false hva, ok_bind, hl], .inr ⟨?_, rfl⟩⟩
    rw [leafPte, hl]
  | some loc =>
    right
    obtain ⟨b, i⟩ := loc
    have htop : (role r).level = some 2 := by rw [hr, Role.level_top]
    have hb := h.wired.lookup_level htop hl
    have hvalid : hasFlag (s.mem b i &&& ~~~PTE_U) PTE_V ↔ hasFlag (s.mem b i) PTE_V :=
      has_clear (by decide)
    have hwired : Wired (s.store b i (s.mem b i &&& ~~~PTE_U)).mem role := by
      by_cases hv : hasFlag (s.mem b i) PTE_V
      · exact h.wired.setFlags hb (hvalid.mpr hv) (PTE2PA_clear _)
      · exact h.wired.setForeign hb fun x hx => hv (h.wired.back x b i hx).2.1
    obtain ⟨hedit, hpte⟩ := h.storeEntry hr h39 hl hwired
    refine ⟨_, by rw [uvmclear, walk_false hva, ok_bind, hl]; rfl, hva, hedit, ?_⟩
    intro va' h39' heq
    have hl' : lookup s.mem va' 2 r = some (b, i) :=
      (h.wired.lookup_eq_iff hr hl h39 h39').mpr heq
    constructor
    · rw [hpte va' h39' heq, leafPte, hl']
      simp only [hvalid]
      split_ifs <;> rfl
    · rintro ⟨c, j, hlc, hvc, hrole⟩
      cases hl'.symm.trans hlc
      have hentry : (s.store b i (s.mem b i &&& ~~~PTE_U)).mem b i = s.mem b i &&& ~~~PTE_U := by
        show setEntry s.mem b i _ b i = _
        rw [setEntry_apply, if_pos ⟨rfl, rfl⟩]
      refine ⟨b, i, ?_, ?_, ?_⟩
      · rw [← hl']
        exact h.wired.lookup_store hb (fun _ _ => rfl) htop
      · rw [hentry]
        exact hvalid.mpr hvc
      · rw [hentry, PTE2PA_clear, hrole]

theorem ismapped_eq (hva : va < MAXVA) (r : Nat) (s : Phys) :
    ismapped r va s = .ok (decide (leafPte s.mem 2 r va ≠ none)) := by
  rw [ismapped, walk_false hva, ok_bind]
  cases hl : lookup s.mem va 2 r with
  | none => simp [leafPte, hl]
  | some loc =>
    obtain ⟨b, i⟩ := loc
    by_cases hv : hasFlag (s.mem b i) PTE_V <;> simp [leafPte, hl, hv]

inductive Faults (L : Layout) (s : Phys) (role : Nat → Role) (p : Self) (pagetable va : Nat) :
    Except Panic (Nat × Phys) → Prop
  | stuck {e : Panic} (panic : e = .walk ∨ e = .mappagesRemap) (below : va < p.sz)
      (why : MAXVA ≤ va ∨ leafPte s.mem 2 pagetable (PGROUNDDOWN va) = none ∧
        leafPte s.mem 2 p.pagetable (PGROUNDDOWN va) ≠ none) : Faults L s role p pagetable va (.error e)
  | failed {t : Phys} {role' : Nat → Role} (edit : Edit L s role t role' p.pagetable fun _ => False) :
      Faults L s role p pagetable va (.ok (0, t))
  | mapped {a : Nat} {t : Phys} {role' : Nat → Role} (nonzero : a ≠ 0) (page : IsPage L a)
      (below : va < p.sz) (max : va < MAXVA) (was : leafPte s.mem 2 p.pagetable va = none)
      (edit : Edit L s role t role' p.pagetable fun va' => va' / PGSIZE = va / PGSIZE)
      (new : ∀ va', va' < 2 ^ 39 → va' / PGSIZE = va / PGSIZE →
        UserLeaf t.mem role' 2 p.pagetable va' ∧
        leafPte t.mem 2 p.pagetable va' = some (PA2PTE a ||| (PTE_W ||| PTE_U ||| PTE_R) ||| PTE_V)) :
      Faults L s role p pagetable va (.ok (a, t))

theorem pgrounddown_lt (h : va < MAXVA) : PGROUNDDOWN va < MAXVA := by
  have := pgrounddown_bounds va
  omega

theorem Vm.vmfault_spec (h : Vm L s role) {p : Self} (hr : role p.pagetable = .top 2)
    (pagetable va : Nat) : Faults L s role p pagetable va (vmfault L p pagetable va s) := by
  by_cases hsz : p.sz ≤ va
  · rw [vmfault, if_pos hsz]
    exact .failed (.refl h hr _)
  obtain ⟨hle, hlt, hal, hpage⟩ := pgrounddown_bounds va
  by_cases hhigh : MAXVA ≤ va
  · have hhigh' : MAXVA ≤ PGROUNDDOWN va := by
      simp only [MAXVA_eq, PGSIZE_eq] at *
      omega
    simp only [vmfault, if_neg hsz, ismapped, walk, if_pos hhigh', error_bind]
    exact .stuck (.inl rfl) (by omega) (.inl hhigh)
  have hva0 : PGROUNDDOWN va < MAXVA := pgrounddown_lt (by omega)
  have hva039 := lt_39_of_lt_MAXVA hva0
  by_cases hmap : leafPte s.mem 2 pagetable (PGROUNDDOWN va) = none
  swap
  · simp only [vmfault, if_neg hsz, ismapped_eq hva0, ok_bind, hmap, ne_eq, not_false_eq_true,
      decide_true, if_true, pure_eq_ok]
    exact .failed (.refl h hr _)
  simp only [vmfault, if_neg hsz, ismapped_eq hva0, ok_bind, hmap, ne_eq, not_true_eq_false, decide_false,
    Bool.false_eq_true, if_false]
  rcases h.kalloc_spec with ⟨hk, -⟩ | ⟨a, u, hk, ha0, -⟩
  · simp only [hk, ok_bind, if_true, pure_eq_ok]
    exact .failed (.refl h hr _)
  have hfill := fills_memset u a 0
  have hp := (h.kalloc_fill hk ha0 hfill).2.1
  by_cases hown : leafPte s.mem 2 p.pagetable (PGROUNDDOWN va) = none
  swap
  · have hm := h.allocPage_remap hk ha0 hfill hr hva0 hal hown (PTE_W ||| PTE_U ||| PTE_R)
    simp only [hk, ok_bind, if_neg ha0, hm, error_bind]
    exact .stuck (.inr rfl) (by omega) (.inr ⟨hmap, hown⟩)
  rcases h.allocPage hk ha0 hfill hr hva0 hal hown
      (show IsFlags (PTE_W ||| PTE_U ||| PTE_R) by decide) with
    ⟨t, w, role', hm, hkf, hedit⟩ | ⟨t, role', hm, -, hedit, hleaf, hpte⟩
  · simp only [hk, ok_bind, if_neg ha0, hm, hkf, pure_eq_ok]
    exact .failed hedit
  · simp only [hk, ok_bind, if_neg ha0, hm, pure_eq_ok]
    rw [hpage] at hedit hpte
    refine .mapped ha0 hp (by omega) (by omega) ?_ hedit fun va' h39 heq => ⟨?_, hpte va' h39 heq⟩
    · rw [leafPte_congr_page hva039 (lt_39_of_lt_MAXVA (by omega)) hpage.symm, hown]
    · exact userLeaf_congr_page hva039 h39 (heq.trans hpage.symm) hleaf

theorem walkaddr_eq (hva : va < MAXVA) (r : Nat) (s : Phys) :
    walkaddr r va s = .ok (match leafPte s.mem 2 r va with
      | none => 0
      | some e => if hasFlag e PTE_U then PTE2PA e else 0) := by
  rw [walkaddr, if_neg (by omega), walk_false hva, ok_bind]
  cases hl : lookup s.mem va 2 r with
  | none => simp [leafPte, hl]
  | some loc =>
    obtain ⟨b, i⟩ := loc
    by_cases hv : hasFlag (s.mem b i) PTE_V
    · by_cases hu : hasFlag (s.mem b i) PTE_U <;> simp [leafPte, hl, hv, hu]
    · simp [leafPte, hl, hv]

-- The page table r has kept what it maps, and has at most got new user pages below sz.
structure Grows (L : Layout) (s : Phys) (role : Nat → Role) (t : Phys) (role' : Nat → Role)
    (r sz : Nat) : Prop where
  edit : Edit L s role t role' r fun _ => True
  keep : ∀ va, va < 2 ^ 39 → leafPte s.mem 2 r va ≠ none →
    leafPte t.mem 2 r va = leafPte s.mem 2 r va ∧
    (UserLeaf s.mem role 2 r va → UserLeaf t.mem role' 2 r va)
  new : ∀ va, va < 2 ^ 39 → leafPte s.mem 2 r va = none →
    leafPte t.mem 2 r va = none ∨ PGROUNDDOWN va < sz ∧ UserLeaf t.mem role' 2 r va

theorem Edit.grows (h : Edit L s role t role' r fun _ => False) (sz : Nat) :
    Grows L s role t role' r sz where
  edit := h.mono fun _ hx => hx.elim
  keep := fun va h39 _ => ⟨(h.same va h39 not_false).pte, (h.same va h39 not_false).user⟩
  new := fun va h39 hnone => .inl ((h.same va h39 not_false).pte.trans hnone)

theorem Grows.refl (h : Vm L s role) (hr : role r = .top 2) (sz : Nat) : Grows L s role s role r sz :=
  (Edit.refl h hr _).grows sz

theorem Grows.trans (h : Grows L s role t role' r sz) (h' : Grows L t role' u ρ r sz) :
    Grows L s role u ρ r sz where
  edit := h.edit.trans h'.edit
  keep := by
    intro va h39 hne
    obtain ⟨hpte, huser⟩ := h.keep va h39 hne
    obtain ⟨hpte', huser'⟩ := h'.keep va h39 (hpte ▸ hne)
    exact ⟨hpte'.trans hpte, fun hu => huser' (huser hu)⟩
  new := by
    intro va h39 hnone
    rcases h.new va h39 hnone with hn | ⟨hlt, hu⟩
    · exact h'.new va h39 hn
    · obtain ⟨e, he⟩ := hu.exists_pte
      exact .inr ⟨hlt, (h'.keep va h39 (by simp [he])).2 hu⟩

theorem Edit.grows_page (max : va < MAXVA) (below : va < sz) (was : leafPte s.mem 2 r va = none)
    (edit : Edit L s role t role' r fun va' => va' / PGSIZE = va / PGSIZE)
    (new : ∀ va', va' < 2 ^ 39 → va' / PGSIZE = va / PGSIZE → UserLeaf t.mem role' 2 r va') :
    Grows L s role t role' r sz := by
  have hpage : ∀ va', va' < 2 ^ 39 → va' / PGSIZE = va / PGSIZE → leafPte s.mem 2 r va' = none := by
    intro va' h39 heq
    rw [leafPte_congr_page (lt_39_of_lt_MAXVA max) h39 heq, was]
  refine ⟨edit.mono fun _ _ => trivial, fun va' h39 hne => ?_, fun va' h39 hnone => ?_⟩
  · have hfar : ¬va' / PGSIZE = va / PGSIZE := fun heq => hne (hpage va' h39 heq)
    exact ⟨(edit.same va' h39 hfar).pte, (edit.same va' h39 hfar).user⟩
  · by_cases heq : va' / PGSIZE = va / PGSIZE
    · have hd := pgrounddown_bounds va
      have hd' : PGROUNDDOWN va' = PGROUNDDOWN va := by rw [PGROUNDDOWN, heq, PGROUNDDOWN]
      exact .inr ⟨by omega, new va' h39 heq⟩
    · exact .inl ((edit.same va' h39 heq).pte.trans hnone)

theorem Faults.not_stuck (h : Faults L s role p p.pagetable va (.error e)) : MAXVA < p.sz := by
  cases h with
  | stuck panic below why =>
    rcases why with why | why
    · omega
    · exact absurd why.1 why.2

theorem userPage_mapped (hva : va < MAXVA) (hpte : leafPte s.mem 2 r va = some e)
    (hu : hasFlag e PTE_U) (hne : PTE2PA e ≠ 0) (p : Self) :
    userPage L p r va s = .ok (PTE2PA e, s) := by
  simp only [userPage, walkaddr_eq hva, hpte, hu, if_true, ok_bind, if_neg hne, pure_eq_ok]

section

variable {p : Self} (h : Vm L s role) (hr : role p.pagetable = .top 2) (hsz : p.sz ≤ MAXVA)
include h hr hsz

theorem Vm.userPage_spec (va : Nat) :
    ∃ pa0 t role', userPage L p p.pagetable va s = .ok (pa0, t) ∧
      Grows L s role t role' p.pagetable p.sz ∧
      (pa0 ≠ 0 → va < MAXVA ∧
        ∃ e, leafPte t.mem 2 p.pagetable va = some e ∧ hasFlag e PTE_U ∧ PTE2PA e = pa0) := by
  by_cases hdirect : ∃ pa, pa ≠ 0 ∧ walkaddr p.pagetable va s = .ok pa
  · obtain ⟨pa, hne, hpa⟩ := hdirect
    have hva : va < MAXVA := by
      by_contra hhigh
      rw [walkaddr, if_pos (by omega), Except.ok.injEq] at hpa
      exact hne hpa.symm
    refine ⟨pa, s, role, ?_, .refl h hr _, fun _ => ⟨hva, ?_⟩⟩
    · simp only [userPage, hpa, ok_bind, if_neg hne, pure_eq_ok]
    · rw [walkaddr_eq hva, Except.ok.injEq] at hpa
      cases hpte : leafPte s.mem 2 p.pagetable va with
      | none =>
        rw [hpte] at hpa
        exact absurd hpa.symm hne
      | some e =>
        simp only [hpte] at hpa
        split_ifs at hpa with hu
        · exact ⟨e, rfl, hu, hpa⟩
        · exact absurd hpa.symm hne
  · have hzero : walkaddr p.pagetable va s = .ok 0 := by
      by_cases hva : va < MAXVA
      · rw [walkaddr_eq hva] at hdirect ⊢
        by_contra hne
        exact hdirect ⟨_, fun h0 => hne (congrArg Except.ok h0), rfl⟩
      · rw [walkaddr, if_pos (by omega)]
    have hfault := h.vmfault_spec hr p.pagetable va
    have huser : userPage L p p.pagetable va s = vmfault L p p.pagetable va s := by
      simp only [userPage, hzero, ok_bind, if_true]
    rw [huser]
    cases hres : vmfault L p p.pagetable va s with
    | error e =>
      rw [hres] at hfault
      have := hfault.not_stuck
      omega
    | ok res =>
      obtain ⟨pa0, t⟩ := res
      rw [hres] at hfault
      cases hfault with
      | failed edit => exact ⟨0, t, _, rfl, edit.grows p.sz, fun hne => absurd rfl hne⟩
      | @mapped _ _ role' nonzero page below max was edit new =>
        refine ⟨pa0, t, role', rfl, ?_, fun _ => ⟨max, ?_⟩⟩
        · exact Edit.grows_page max below was edit fun va' h39 heq => (new va' h39 heq).1
        · refine ⟨_, (new va (lt_39_of_lt_MAXVA max) rfl).2, ?_, ?_⟩
          · rw [has_leaf (by decide) (by decide)]
            decide
          · exact PTE2PA_leaf page.lt_pow page.1 (by decide)

theorem Vm.copyinLoop_spec (turns srcva len : Nat) (dst : List Byte) :
    ∃ res dst' t role', copyinLoop L p p.pagetable turns srcva len dst s = .ok (res, dst', t) ∧
      Grows L s role t role' p.pagetable p.sz := by
  induction turns generalizing s role srcva len dst with
  | zero => exact ⟨_, _, s, role, rfl, .refl h hr _⟩
  | succ turns ih =>
    by_cases hlen : len = 0
    · exact ⟨_, _, s, role, by rw [copyinLoop, if_pos hlen], .refl h hr _⟩
    obtain ⟨pa0, t, role', hok, hgrows, -⟩ := h.userPage_spec hr hsz (PGROUNDDOWN srcva)
    by_cases hpa0 : pa0 = 0
    · refine ⟨-1, dst, t, role', ?_, hgrows⟩
      simp only [copyinLoop, if_neg hlen, hok, ok_bind, if_pos hpa0, pure_eq_ok]
    · obtain ⟨res, dst', w, ρ, hok', hgrows'⟩ := ih hgrows.edit.vm hgrows.edit.top
        (wrap64 (PGROUNDDOWN srcva + PGSIZE))
        (len - min (PGSIZE - (srcva - PGROUNDDOWN srcva)) len)
        (dst ++ t.readBytes pa0 (srcva - PGROUNDDOWN srcva)
          (min (PGSIZE - (srcva - PGROUNDDOWN srcva)) len))
      refine ⟨res, dst', w, ρ, ?_, hgrows.trans hgrows'⟩
      simp only [copyinLoop, if_neg hlen, hok, ok_bind, if_neg hpa0]
      exact hok'

theorem Vm.copyin_spec (srcva len : Nat) :
    ∃ res dst t role', copyin L p p.pagetable srcva len s = .ok (res, dst, t) ∧
      Grows L s role t role' p.pagetable p.sz :=
  h.copyinLoop_spec hr hsz len srcva len []

end

-- What a user can reach is a page of the user's own or the shared page.
def Guarded (m : Mem) (role : Nat → Role) (r : Nat) : Prop :=
  ∀ va e, va < 2 ^ 39 → leafPte m 2 r va = some e → hasFlag e PTE_U →
    UserLeaf m role 2 r va ∨ role (PTE2PA e) = .shared

theorem Grows.guarded (h : Grows L s role t role' r sz) (hr : role r = .top 2)
    (hg : Guarded s.mem role r) : Guarded t.mem role' r := by
  intro va e h39 he hu
  by_cases hnone : leafPte s.mem 2 r va = none
  · rcases h.new va h39 hnone with hn | hn
    · simp [hn] at he
    · exact .inl hn.2
  · obtain ⟨hpte, huser⟩ := h.keep va h39 hnone
    rcases hg va e h39 (hpte ▸ he) hu with hl | hs
    · exact .inl (huser hl)
    · right
      have hne : PTE2PA e ≠ r := by
        intro heq
        simp [heq, hr] at hs
      rw [h.edit.frame.role_eq _ hne (.inl (by rw [hs]; rfl)), hs]

theorem Vm.writeUser (h : Vm L s role) (hr : role r = .top 2) (he : leafPte s.mem 2 r va = some e)
    (huser : UserLeaf s.mem role 2 r va ∨ role (PTE2PA e) = .shared) (hf : Fills s (PTE2PA e) t)
    (sz : Nat) : Grows L s role t role r sz := by
  have hown : (∃ b i, lookup s.mem va 2 r = some (b, i) ∧ role (PTE2PA e) = .leaf b i) ∨
      role (PTE2PA e) = .shared := huser.imp_left fun hu => hu.owner he
  generalize PTE2PA e = pa at hown hf
  have hplain : role pa ≠ .free ∧ (role pa).level = none := by
    rcases hown with ⟨b, i, -, hrole⟩ | hrole <;> simp [hrole, Role.level]
  have hm : ∀ b, (role b).level ≠ none → t.mem b = s.mem b := by
    intro b hb
    apply hf.2.2
    intro hbpa
    exact hb (hbpa ▸ hplain.2)
  have hlook : ∀ x l va', role x = .top l → lookup t.mem va' l x = lookup s.mem va' l x :=
    fun x l va' hx => h.wired.lookup_congr hm (by rw [hx, Role.level_top])
  have hpte : ∀ x l va', role x = .top l → leafPte t.mem l x va' = leafPte s.mem l x va' :=
    fun x l va' hx => h.wired.leafPte_congr hm (by rw [hx, Role.level_top])
  have hentry : ∀ x l va' c j, role x = .top l → lookup s.mem va' l x = some (c, j) →
      t.mem c j = s.mem c j := by
    intro x l va' c j hx hl
    have hc := h.wired.lookup_level (by rw [hx, Role.level_top]) hl
    rw [hm c (by simp [hc])]
  have huserEq : ∀ va', UserLeaf s.mem role 2 r va' → UserLeaf t.mem role 2 r va' := by
    rintro va' ⟨c, j, hl, hv, hrole⟩
    refine ⟨c, j, (hlook r 2 va' hr).trans hl, ?_⟩
    rw [hentry r 2 va' c j hr hl]
    exact ⟨hv, hrole⟩
  refine ⟨⟨?_, hr, ⟨fun _ _ _ => rfl, ?_, ?_⟩, fun _ _ hx => absurd trivial hx⟩,
    fun va' _ _ => ⟨hpte r 2 va' hr, huserEq va'⟩, fun va' _ hnone => .inl ?_⟩
  · apply h.write hf.1 hf.2.1
    intro a ha
    rcases ha with ha | ha
    · apply hf.2.2
      intro hapa
      exact hplain.1 (hapa ▸ ha)
    · exact hm a ha
  · intro x _ hpin _ hs
    apply hf.2.2
    intro hxpa
    rcases hown with ⟨b, i, -, hrole⟩ | hrole
    · simp [hxpa, hrole, Role.pinned] at hpin
    · exact hs (hxpa ▸ hrole)
  · intro x l va' hxr hx
    apply Same.of_lookup (hpte x l va' hx)
    intro c j hl _ hleaf
    refine ⟨(hlook x l va' hx).trans hl, hentry x l va' c j hx hl, hleaf, hf.2.2 _ ?_⟩
    intro hpa
    rw [hpa] at hleaf
    rcases hown with ⟨b, i, hlb, hrole⟩ | hrole
    · rw [hrole, Role.leaf.injEq] at hleaf
      rw [← hleaf.1, ← hleaf.2] at hl
      exact hxr (h.wired.lookup_inj hx hr hl hlb).2.1
    · simp [hrole] at hleaf
  · rw [hpte r 2 va' hr, hnone]

theorem fills_writeBytes (s : Phys) (pa off : Nat) (bytes : List Byte) :
    Fills s pa (s.writeBytes pa off bytes) :=
  ⟨rfl, rfl, fun _ hx => by simp [Phys.writeBytes, hx]⟩

section

variable {p : Self} (h : Vm L s role) (hr : role p.pagetable = .top 2) (hg : Guarded s.mem role p.pagetable)
  (hsz : p.sz ≤ MAXVA)
include h hr hg hsz

theorem Vm.copyoutLoop_spec (turns dstva : Nat) (src : List Byte) :
    ∃ res t role', copyoutLoop L p p.pagetable turns dstva src s = .ok (res, t) ∧
      Grows L s role t role' p.pagetable p.sz := by
  induction turns generalizing s role dstva src with
  | zero => exact ⟨_, s, role, rfl, .refl h hr _⟩
  | succ turns ih =>
    by_cases hsrc : src = []
    · exact ⟨_, s, role, by rw [copyoutLoop, if_pos hsrc], .refl h hr _⟩
    by_cases hhigh : MAXVA ≤ PGROUNDDOWN dstva
    · exact ⟨-1, s, role, by simp only [copyoutLoop, if_neg hsrc, if_pos hhigh], .refl h hr _⟩
    have hva : PGROUNDDOWN dstva < MAXVA := by omega
    obtain ⟨pa0, t, role', hok, hgrows, hres⟩ := h.userPage_spec hr hsz (PGROUNDDOWN dstva)
    by_cases hpa0 : pa0 = 0
    · refine ⟨-1, t, role', ?_, hgrows⟩
      simp only [copyoutLoop, if_neg hsrc, if_neg hhigh, hok, ok_bind, if_pos hpa0, pure_eq_ok]
    obtain ⟨-, e, he, hu, rfl⟩ := hres hpa0
    obtain ⟨b, i, hl, hv, hbe⟩ := leafPte_eq_some.mp he
    by_cases hw : hasFlag (t.mem b i) PTE_W
    swap
    · refine ⟨-1, t, role', ?_, hgrows⟩
      simp only [copyoutLoop, if_neg hsrc, if_neg hhigh, hok, ok_bind, if_neg hpa0,
        walk_false hva, hl, hw, not_false_eq_true, if_true, pure_eq_ok]
    have hg' := hgrows.guarded hr hg
    have hr' := hgrows.edit.top
    generalize hn : PGSIZE - (dstva - PGROUNDDOWN dstva) = n
    have hwrite := hgrows.edit.vm.writeUser hr' he (hg' _ e (lt_39_of_lt_MAXVA hva) he hu)
      (fills_writeBytes t (PTE2PA e) (dstva - PGROUNDDOWN dstva) (src.take n)) p.sz
    obtain ⟨res, w, ρ, hok', hgrows'⟩ := ih hwrite.edit.vm hr' (hwrite.guarded hr' hg')
      (wrap64 (PGROUNDDOWN dstva + PGSIZE)) (src.drop n)
    refine ⟨res, w, ρ, ?_, (hgrows.trans hwrite).trans hgrows'⟩
    simp only [copyoutLoop, if_neg hsrc, if_neg hhigh, hok, ok_bind, if_neg hpa0,
      walk_false hva, hl, hw, not_true_eq_false, if_false, hn]
    exact hok'

theorem Vm.copyout_spec (dstva : Nat) (src : List Byte) :
    ∃ res t role', copyout L p p.pagetable dstva src s = .ok (res, t) ∧
      Grows L s role t role' p.pagetable p.sz :=
  h.copyoutLoop_spec hr hg hsz src.length dstva src

end

section Bytes

theorem byteOf_packBytes (g : Nat → Byte) (hk : k < 8) : byteOf (packBytes g) k = g k := by
  apply BitVec.eq_of_getLsbD_eq
  intro i hi
  have hcases : k = 0 ∨ k = 1 ∨ k = 2 ∨ k = 3 ∨ k = 4 ∨ k = 5 ∨ k = 6 ∨ k = 7 := by omega
  rcases hcases with rfl | rfl | rfl | rfl | rfl | rfl | rfl | rfl <;>
    simp [byteOf, packBytes, hi] <;> grind

theorem pageByte_zero (h : ∀ i, page i = 0#64) (off : Nat) : pageByte page off = 0 := by
  rw [pageByte, h, byteOf]
  simp

theorem readBytes_eq (s : Phys) (pa off n : Nat) : s.readBytes pa off n = readAt (pageByte (s.mem pa)) off n := rfl

theorem pageByte_writeBytes (s : Phys) (pa off : Nat) (bytes : List Byte) (hj : j < PGSIZE) :
    pageByte ((s.writeBytes pa off bytes).mem pa) j = writeAt (pageByte (s.mem pa)) off bytes j := by
  have hval : (Fin.ofNat 512 (j / 8) : Fin 512).val = j / 8 := by
    rw [Fin.val_ofNat]
    simp only [PGSIZE_eq] at hj
    omega
  have hword : 8 * (j / 8) + j % 8 = j := by omega
  simp only [pageByte, Phys.writeBytes, Function.update_self, writeAt]
  rw [byteOf_packBytes _ (by omega), hval, hword]

end Bytes

theorem copyout_page (hpte : leafPte s.mem 2 r (PGROUNDDOWN va) = some e) (hmax : va < MAXVA)
    (hu : hasFlag e PTE_U) (hw : hasFlag e PTE_W) (hne : PTE2PA e ≠ 0)
    (hsrc : src ≠ []) (hfit : va - PGROUNDDOWN va + src.length ≤ PGSIZE) (p : Self) :
    copyout L p r va src s = .ok (0, s.writeBytes (PTE2PA e) (va - PGROUNDDOWN va) src) := by
  have hmax' : PGROUNDDOWN va < MAXVA := Nat.lt_of_le_of_lt (pgrounddown_bounds va).1 hmax
  obtain ⟨b, i, hl, hv, rfl⟩ := leafPte_eq_some.mp hpte
  obtain ⟨n, hn⟩ := Nat.exists_eq_succ_of_ne_zero (Nat.ne_of_gt (List.length_pos_iff.mpr hsrc))
  have hrest : ∀ turns va t, copyoutLoop L p r turns va [] t = .ok (0, t) := by
    intro turns va t
    cases turns <;> simp [copyoutLoop]
  rw [copyout, hn]
  simp only [copyoutLoop, if_neg hsrc, if_neg (Nat.not_le.mpr hmax'), userPage_mapped hmax' hpte hu hne,
    ok_bind, if_neg hne, walk_false hmax', hl, hw, not_true_eq_false, if_false]
  rw [List.drop_eq_nil_of_le (by omega), List.take_of_length_le (by omega), hrest]

end Xv6
