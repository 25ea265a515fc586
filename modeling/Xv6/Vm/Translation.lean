import Xv6.Vm.Unmap
import Xv6.Lib.Reach

namespace Xv6

open Lib Function

-- What a page table translates an address to: walk() without alloc, and the entry that
-- it finds, if it is valid.
def translate (pagetable va : Nat) (s : Phys) : Except Panic (Option (Nat × Pte)) := do
  let (loc, s) ← walk pagetable va false s
  match loc with
  | none => return none
  | some (b, i) =>
    if hasFlag (s.mem b i) PTE_V then return some (PTE2PA (s.mem b i), PTE_FLAGS (s.mem b i))
    else return none

def TablePage (m : Mem) (r c : Nat) : Prop :=
  c = r ∨ ∃ i, hasFlag (m r i) PTE_V ∧ (c = PTE2PA (m r i) ∨
    ∃ j, hasFlag (m (PTE2PA (m r i)) j) PTE_V ∧ c = PTE2PA (m (PTE2PA (m r i)) j))

-- A uvmunmap() with do_free gives up pages that are allocated, and none of the page table.
def FreesLeaves (L : Layout) (r last : Nat) (do_free : Bool) : Nat → Nat → Phys → Prop
  | 0, _, _ => True
  | n + 1, a, s =>
    a < last →
      (do_free = true → ∀ pa flags, translate r a s = .ok (some (pa, flags)) →
        IsPage L pa ∧ 0 < s.refcount (pa / PGSIZE) ∧ ¬TablePage s.mem r pa) ∧
      ∀ t, unmapPage L r a do_free s = .ok t → FreesLeaves L r last do_free n (wrap64 (a + PGSIZE)) t

-- The calls on one page table, and what the rest of the kernel does meanwhile: it
-- leaves the pages of the page table alone, and the allocator in order.
inductive TableStep (L : Layout) (r : Nat) : Phys → Phys → Prop
  | map (h : mappages r va size pa perm s = .ok (res, s')) (hperm : IsFlags perm) (hal : pa % PGSIZE = 0)
      (hpa : pa + size ≤ 2 ^ 56) : TableStep L r s s'
  | unmap (h : uvmunmap L r va n do_free s = .ok s')
      (hfree : FreesLeaves L r (wrap64 (va + n * PGSIZE)) do_free n va s) : TableStep L r s s'
  | rest (halloc : AllocInv L s' free refs)
      (htable : ∀ c, TablePage s.mem r c → s'.mem c = s.mem c ∧ 0 < s'.refcount (c / PGSIZE)) :
      TableStep L r s s'

-- uvmcreate() has made the page table, in any state of the allocator.
def TableStart (L : Layout) (r : Nat) (s : Phys) : Prop :=
  ∃ s₀ free refs, AllocInv L s₀ free refs ∧ uvmcreate s₀ = .ok (r, s) ∧ r ≠ 0

-- The page table is a tree with root r, of pages that are allocated. Its leaves may point anywhere.
structure Tree (L : Layout) (r : Nat) (s : Phys) (role : Nat → Role) : Prop where
  alloc : ∃ free refs, AllocInv L s free refs ∧ ∀ a, (role a).level ≠ none → IsPage L a ∧ 0 < refs a
  wired : Wired s.mem role
  top : role r = .top 2
  shape : ∀ a, a ≠ r → role a = .other ∨ ∃ l b i, l < 2 ∧ role a = .table l b i

variable {L : Layout} {r : Nat} {s t : Phys} {role role' : Nat → Role}

namespace Tree

section

variable (h : Tree L r s role)
include h

theorem not_leaf (a b : Nat) (i : Fin 512) : role a ≠ .leaf b i := by
  intro hl
  by_cases ha : a = r
  · rw [ha, h.top] at hl
    simp at hl
  · rcases h.shape a ha with ho | ⟨l, c, j, -, ht⟩
    · simp [ho] at hl
    · simp [ht] at hl

theorem other_of_level (ha : (role a).level = none) : role a = .other := by
  have har : a ≠ r := by
    rintro rfl
    simp [h.top] at ha
  rcases h.shape a har with ho | ⟨l, b, i, -, ht⟩
  · exact ho
  · simp [ht] at ha

theorem tablePage (hc : (role c).level ≠ none) : TablePage s.mem r c := by
  -- a page of level 2 is the root
  have hroot : ∀ b, (role b).level = some 2 → b = r := by
    intro b hb
    by_contra hbr
    rcases h.shape b hbr with ho | ⟨l, d, i, hl, ht⟩
    · simp [ho, Role.level] at hb
    · simp only [ht, Role.level_table, Option.some.injEq] at hb
      omega
  by_cases hcr : c = r
  · exact .inl hcr
  rcases h.shape c hcr with ho | ⟨l, b, i, hl, ht⟩
  · simp [ho, Role.level] at hc
  obtain ⟨hb, hv, hpa⟩ := h.wired.up c l b i ht
  have hcases : l = 1 ∨ l = 0 := by omega
  rcases hcases with rfl | rfl
  · obtain rfl := hroot b hb
    exact .inr ⟨i, hv, .inl hpa.symm⟩
  · have hbr : b ≠ r := by
      rintro rfl
      simp [h.top] at hb
    rcases h.shape b hbr with ho | ⟨l, d, j, -, ht'⟩
    · simp [ho, Role.level] at hb
    · obtain rfl : l = 1 := by simpa [ht'] using hb
      obtain ⟨hd, hv', hpa'⟩ := h.wired.up b 1 d j ht'
      obtain rfl := hroot d hd
      exact .inr ⟨j, hv', .inr ⟨i, hpa' ▸ hv, by rw [hpa', hpa]⟩⟩

theorem congr (hinv : AllocInv L t free refs) (hrefs : ∀ a, (role a).level ≠ none → 0 < refs a)
    (hm : ∀ a, (role a).level ≠ none → t.mem a = s.mem a) : Tree L r t role := by
  obtain ⟨_, _, -, hpage⟩ := h.alloc
  exact ⟨⟨free, refs, hinv, fun a ha => ⟨(hpage a ha).1, hrefs a ha⟩⟩, h.wired.congr hm, h.top, h.shape⟩

theorem leafPte_congr (hm : ∀ a, (role a).level ≠ none → t.mem a = s.mem a) (va : Nat) :
    leafPte t.mem 2 r va = leafPte s.mem 2 r va :=
  h.wired.leafPte_congr hm (by rw [h.top, Role.level_top])

theorem kalloc :
    Xv6.kalloc s = .ok (0, s) ∨
    ∃ a u free refs, Xv6.kalloc s = .ok (a, u) ∧ a ≠ 0 ∧ IsPage L a ∧ role a = .other ∧
      AllocInv L u free refs ∧ 0 < refs a ∧ (∀ x, (role x).level ≠ none → 0 < refs x) ∧
      ∀ x, x ≠ a → u.mem x = s.mem x := by
  obtain ⟨free, refs, hinv, hpage⟩ := h.alloc
  cases free with
  | nil => exact .inl (kalloc_empty hinv)
  | cons a rest =>
    obtain ⟨u, hk, hinv', hmem⟩ := kalloc_cons hinv
    have hp := hinv.page a (by simp)
    have hzero : refs a = 0 := (hinv.mem_free a hp).mp (by simp)
    have hlevel : ∀ x, (role x).level ≠ none → x ≠ a := by
      rintro x hx rfl
      have := (hpage x hx).2
      omega
    have hother : role a = .other := by
      apply h.other_of_level
      by_contra hl
      exact hlevel a hl rfl
    refine .inr ⟨a, u, rest, _, hk, Nat.ne_of_gt hp.pos, hp, hother, hinv', by simp, ?_, ?_⟩
    · intro x hx
      rw [update_of_ne (hlevel x hx)]
      exact (hpage x hx).2
    · intro x hx
      rw [hmem, update_of_ne hx]

theorem grow (hb : (role b).level = some (l + 1))
    (hfree : ¬hasFlag (s.mem b i) PTE_V) (hp : IsPage L a) (ha : role a = .other) (hinv : AllocInv L u free refs)
    (href : 0 < refs a) (hrefs : ∀ x, (role x).level ≠ none → 0 < refs x) (hm : ∀ x, x ≠ a → u.mem x = s.mem x) :
    Tree L r ((u.memset a 0).store b i (PA2PTE a ||| PTE_V)) (update role a (.table l b i)) ∧
    ∀ va, leafPte ((u.memset a 0).store b i (PA2PTE a ||| PTE_V)).mem 2 r va = leafPte s.mem 2 r va := by
  have hloose : (role a).loose = true := by rw [ha]; rfl
  have hlevel : ∀ x, (role x).level ≠ none → x ≠ a := by
    rintro x hx rfl
    simp [ha, Role.level] at hx
  have hzero : ∀ x, x ≠ a → (u.memset a 0).mem x = s.mem x := by
    intro x hx
    simp [Phys.memset, hx, hm x hx]
  have hempty := memset_zero_empty u a
  have hw : Wired (u.memset a 0).mem role := h.wired.congr fun x hx => hzero x (hlevel x hx)
  have hba : b ≠ a := hlevel b (by simp [hb])
  have hfree' : ¬hasFlag ((u.memset a 0).mem b i) PTE_V := by rwa [hzero b hba]
  have hentry : hasFlag (PA2PTE a ||| PTE_V) PTE_V ∧ innerPte (PA2PTE a ||| PTE_V) ∧
      PTE2PA (PA2PTE a ||| PTE_V) = a := ⟨has_V_table a, inner_table a, PTE2PA_table hp.lt_pow hp.1⟩
  -- neither of the two pages that change is free
  have hkeep : ∀ x, IsPage L x → 0 < refs x → x ∉ free := by
    intro x hx hr hmem
    have := (hinv.mem_free x hx).mp hmem
    omega
  obtain ⟨_, _, -, hpage⟩ := h.alloc
  have halloc : AllocInv L ((u.memset a 0).store b i (PA2PTE a ||| PTE_V)) free refs := by
    refine hinv.frame rfl rfl fun x hx => ?_
    have hxa : x ≠ a := by
      rintro rfl
      exact hkeep x hp href hx
    have hxb : x ≠ b := by
      rintro rfl
      exact hkeep x (hpage x (by simp [hb])).1 (hrefs x (by simp [hb])) hx
    simp [Phys.store, Phys.memset, hxa, hxb]
  have htop : a ≠ r := (hlevel r (by simp [h.top])).symm
  refine ⟨⟨⟨free, refs, halloc, fun x hx => ?_⟩, hw.link hloose hempty hb hfree' hentry, ?_, fun x hx => ?_⟩,
    fun va => ?_⟩
  · by_cases hxa : x = a
    · subst hxa
      exact ⟨hp, href⟩
    · rw [update_of_ne hxa] at hx
      exact ⟨(hpage x hx).1, hrefs x hx⟩
  · rw [update_of_ne htop.symm, h.top]
  · by_cases hxa : x = a
    · subst hxa
      refine .inr ⟨l, b, i, ?_, update_self ..⟩
      by_cases hbr : b = r
      · simp only [hbr, h.top, Role.level_top, Option.some.injEq] at hb
        omega
      · rcases h.shape b hbr with ho | ⟨k, d, j, hk, ht⟩
        · simp [ho, Role.level] at hb
        · simp only [ht, Role.level_table, Option.some.injEq] at hb
          omega
    · rw [update_of_ne hxa]
      exact h.shape x hx
  · have hlink : leafPte (setEntry (u.memset a 0).mem b i (PA2PTE a ||| PTE_V)) 2 r va =
        leafPte (u.memset a 0).mem 2 r va :=
      hw.leafPte_link hloose hempty hb hfree' hentry.2.2 (by rw [h.top, Role.level_top])
    exact hlink.trans (h.leafPte_congr (fun x hx => hzero x (hlevel x hx)) va)

theorem walkFrom (va : Nat) (hb : (role b).level = some l) :
    ∃ res t role', Xv6.walkFrom va true l b s = .ok (res, t) ∧ Tree L r t role' ∧
      (∀ x, (role x).level ≠ none → role' x = role x) ∧
      (∀ va', leafPte t.mem 2 r va' = leafPte s.mem 2 r va') ∧
      ∀ loc, res = some loc → lookup t.mem va l b = some loc := by
  induction l generalizing b s role with
  | zero => exact ⟨_, s, role, rfl, h, fun _ _ => rfl, fun _ => rfl, fun _ hloc => hloc⟩
  | succ l ih =>
    -- the entry for va points to the page c of the walk, then and later
    have hstep : ∀ c t role' res, Tree L r t role' → role' c = .table l b (PX (l + 1) va) →
        (∀ loc, res = some loc → lookup t.mem va l c = some loc) →
        ∀ loc, res = some loc → lookup t.mem va (l + 1) b = some loc := by
      intro c t role' res ht hc hres loc hloc
      obtain ⟨-, hv, hpa⟩ := ht.wired.up c l b _ hc
      rw [lookup, if_pos hv, hpa]
      exact hres loc hloc
    by_cases hv : hasFlag (s.mem b (PX (l + 1) va)) PTE_V
    · have hchild := (h.wired.down b _ l hb hv).1
      obtain ⟨res, t, role', hok, ht, hrole, hpte, hres⟩ := ih h (by rw [hchild, Role.level_table])
      refine ⟨res, t, role', ?_, ht, hrole, hpte, hstep _ t role' res ht ?_ hres⟩
      · simp only [Xv6.walkFrom, if_pos hv]
        exact hok
      · rw [hrole _ (by simp [hchild]), hchild]
    · rcases h.kalloc with hk | ⟨a, u, free, refs, hk, ha0, hp, ha, hinv, href, hrefs, hm⟩
      · refine ⟨none, s, role, ?_, h, fun _ _ => rfl, fun _ => rfl, by simp⟩
        simp only [Xv6.walkFrom, if_neg hv, if_true, hk, ok_bind, pure_eq_ok]
      · obtain ⟨hgrow, hsame⟩ := h.grow hb hv hp ha hinv href hrefs hm
        obtain ⟨res, t, role', hok, ht, hrole, hpte, hres⟩ := ih (b := a) hgrow (by simp)
        have hupd : ∀ x, (role x).level ≠ none →
            update role a (.table l b (PX (l + 1) va)) x = role x := by
          intro x hx
          apply update_of_ne
          rintro rfl
          simp [ha, Role.level] at hx
        refine ⟨res, t, role', ?_, ht, fun x hx => ?_, fun va' => (hpte va').trans (hsame va'),
          hstep a t role' res ht ?_ hres⟩
        · simp only [Xv6.walkFrom, if_neg hv, if_true, hk, ok_bind, if_neg ha0]
          exact hok
        · rw [hrole x (by rwa [hupd x hx]), hupd x hx]
        · rw [hrole a (by simp), update_self]

theorem store (hva : va < 2 ^ 39) (hloc : lookup s.mem va 2 r = some (b, i)) (w : Pte) :
    Tree L r (s.store b i w) role ∧
    ∀ va', va' < 2 ^ 39 → leafPte (s.store b i w).mem 2 r va' =
      if va' / PGSIZE = va / PGSIZE then if hasFlag w PTE_V then some w else none else leafPte s.mem 2 r va' := by
  have hb := h.wired.lookup_level (by rw [h.top, Role.level_top]) hloc
  obtain ⟨free, refs, hinv, hpage⟩ := h.alloc
  -- page 0 stands for the page that changes with the entry
  have hloose : (role 0).loose = true := by
    rw [h.other_of_level (a := 0)]
    · rfl
    · by_contra hl
      have := (hpage 0 hl).1.pos
      omega
  have hremap : Remap s.mem role (s.store b i w).mem role r va (if hasFlag w PTE_V then some w else none) :=
    h.wired.remap (s.store b i w).mem h.top hloc hva (.inl hloose) (fun _ _ => rfl) fun _ _ => rfl
  refine ⟨⟨⟨free, refs, ?_, hpage⟩, h.wired.setForeign hb fun x => h.not_leaf x b i, h.top, h.shape⟩, hremap.pte⟩
  refine hinv.frame rfl rfl fun a ha => setEntry_of_ne ?_ _ _
  rintro rfl
  have hab := hpage a (by simp [hb])
  have := (hinv.mem_free a hab.1).mp ha
  omega

theorem kfree (hp : IsPage L a) (href : 0 < s.refcount (a / PGSIZE)) (ha : (role a).level = none) :
    ∃ t, Xv6.kfree L a s = .ok t ∧ Tree L r t role ∧ ∀ x, x ≠ a → t.mem x = s.mem x := by
  obtain ⟨free, refs, hinv, hpage⟩ := h.alloc
  have hlevel : ∀ x, (role x).level ≠ none → x ≠ a := by
    rintro x hx rfl
    exact hx ha
  have hupd : ∀ n, ∀ x, (role x).level ≠ none → 0 < update refs a n x := by
    intro n x hx
    rw [update_of_ne (hlevel x hx)]
    exact (hpage x hx).2
  rw [hinv.count a hp] at href
  by_cases hlast : refs a = 1
  · obtain ⟨t, hk, hinv', hm⟩ := kfree_last hinv hp hlast
    exact ⟨t, hk, h.congr hinv' (hupd 0) fun x hx => hm x (hlevel x hx), hm⟩
  · obtain ⟨t, hk, hinv', hm⟩ := kfree_shared hinv hp (by omega)
    exact ⟨t, hk, h.congr hinv' (hupd _) fun x _ => by rw [hm], fun x _ => by rw [hm]⟩

end

end Tree

theorem PTE_FLAGS_leaf (hperm : IsFlags perm) :
    PTE_FLAGS (PA2PTE pa ||| perm ||| PTE_V) = perm ||| PTE_V := by
  have hzero : PA2PTE pa &&& 0x3FF = 0#64 := by
    by_contra hne
    have hflag : hasFlag (PA2PTE pa ||| 0#64) 0x3FF := by
      rw [BitVec.or_zero]
      exact hne
    exact absurd ((has_PA2PTE_or (by decide)).mp hflag) (not_has_zero _)
  have hlow : (perm ||| PTE_V) &&& 0x3FF = perm ||| PTE_V := by
    have hlt : (perm ||| PTE_V).toNat < 2 ^ 10 := hperm.or (by decide)
    apply BitVec.eq_of_toNat_eq
    rw [BitVec.toNat_and]
    exact (Nat.and_two_pow_sub_one_eq_mod _ 10).trans (Nat.mod_eq_of_lt hlt)
  rw [PTE_FLAGS, BitVec.or_assoc, BitVec.and_comm, BitVec.and_or_distrib_left, BitVec.and_comm, hzero,
    BitVec.zero_or, BitVec.and_comm, hlow]

theorem translate_eq_leafPte (hva : va < MAXVA) (r : Nat) (s : Phys) :
    translate r va s = .ok ((leafPte s.mem 2 r va).map fun e => (PTE2PA e, PTE_FLAGS e)) := by
  rw [translate, walk_false hva, ok_bind, leafPte]
  cases lookup s.mem va 2 r with
  | none => rfl
  | some loc =>
    obtain ⟨b, i⟩ := loc
    by_cases hv : hasFlag (s.mem b i) PTE_V
    · simp only [if_pos hv, pure_eq_ok, Option.map_some]
    · simp only [if_neg hv, pure_eq_ok, Option.map_none]

namespace Tree

theorem mappagesLoop (h : Tree L r s role) (hal : a % PGSIZE = 0) (hpa : pa + n * PGSIZE ≤ 2 ^ 56)
    (hok : Xv6.mappagesLoop r perm n a pa s = .ok (res, t)) :
    ∃ role' k, Tree L r t role' ∧ (res = 0 ∧ k = n ∨ res = -1 ∧ k < n) ∧ (k ≠ 0 → a + k * PGSIZE ≤ MAXVA) ∧
      ∀ va, va < 2 ^ 39 → leafPte t.mem 2 r va =
        if a ≤ va ∧ va < a + k * PGSIZE then some (PA2PTE (pa + (va / PGSIZE * PGSIZE - a)) ||| perm ||| PTE_V)
        else leafPte s.mem 2 r va := by
  induction n generalizing a pa s role with
  | zero =>
    cases hok
    refine ⟨role, 0, h, .inl ⟨rfl, rfl⟩, by simp, fun va _ => ?_⟩
    rw [if_neg (by omega)]
  | succ n ih =>
    rw [Xv6.mappagesLoop] at hok
    have hva : a < MAXVA := by
      by_contra hge
      rw [walk, if_pos (by omega), error_bind] at hok
      simp at hok
    obtain ⟨loc, u, role₁, hwalk, hu, -, hpte, hloc⟩ := h.walkFrom a (b := r) (l := 2)
      (by rw [h.top, Role.level_top])
    rw [walk, if_neg (by omega), hwalk, ok_bind] at hok
    cases loc with
    | none =>
      cases hok
      refine ⟨role₁, 0, hu, .inr ⟨rfl, by omega⟩, by simp, fun va _ => ?_⟩
      rw [if_neg (by omega), hpte]
    | some loc =>
      obtain ⟨b, i⟩ := loc
      simp only at hok
      split_ifs at hok with hv
      obtain ⟨hstore, hleaf⟩ := hu.store (lt_39_of_lt_MAXVA hva) (hloc _ rfl)
        (PA2PTE pa ||| perm ||| PTE_V)
      simp only [MAXVA_eq, PGSIZE_eq] at hva hal hpa
      have ha' : wrap64 (a + PGSIZE) = a + PGSIZE := wrap64_eq_of_lt (by simp only [PGSIZE_eq]; omega)
      have hpa' : wrap64 (pa + PGSIZE) = pa + PGSIZE := wrap64_eq_of_lt (by simp only [PGSIZE_eq]; omega)
      -- an address is on the first page, on one of the others, or elsewhere
      have hsplit : ∀ k va, a ≤ va ∧ va < a + (k + 1) * PGSIZE ↔
          va / PGSIZE = a / PGSIZE ∨ a + PGSIZE ≤ va ∧ va < a + PGSIZE + k * PGSIZE := by
        intro k va
        simp only [PGSIZE_eq]
        omega
      rw [ha', hpa'] at hok
      obtain ⟨role', k, ht, hres, hmax, hnext⟩ := ih hstore (by simp only [PGSIZE_eq]; omega)
        (by simp only [PGSIZE_eq]; omega) hok
      refine ⟨role', k + 1, ht, by omega, fun _ => ?_, fun va hva39 => ?_⟩
      · by_cases hk : k = 0
        · subst hk
          simp only [MAXVA_eq, PGSIZE_eq]
          omega
        · have := hmax hk
          simp only [MAXVA_eq, PGSIZE_eq] at this ⊢
          omega
      · rw [hnext va hva39, hleaf va hva39, hpte, if_pos (has_V_leaf pa perm)]
        by_cases hfirst : va / PGSIZE = a / PGSIZE
        · have hnot : ¬(a + PGSIZE ≤ va ∧ va < a + PGSIZE + k * PGSIZE) := by
            simp only [PGSIZE_eq] at hfirst ⊢
            omega
          have hoff : pa + (va / PGSIZE * PGSIZE - a) = pa := by
            simp only [PGSIZE_eq] at hfirst ⊢
            omega
          rw [if_neg hnot, if_pos hfirst, if_pos ((hsplit k va).mpr (.inl hfirst)), hoff]
        · rw [if_neg hfirst]
          by_cases hlater : a + PGSIZE ≤ va ∧ va < a + PGSIZE + k * PGSIZE
          · have hoff : pa + PGSIZE + (va / PGSIZE * PGSIZE - (a + PGSIZE)) = pa + (va / PGSIZE * PGSIZE - a) := by
              simp only [PGSIZE_eq] at hlater hfirst ⊢
              omega
            rw [if_pos hlater, if_pos ((hsplit k va).mpr (.inr hlater)), hoff]
          · rw [if_neg hlater, if_neg (mt (hsplit k va).mp (not_or.mpr ⟨hfirst, hlater⟩))]

theorem unmapPage (h : Tree L r s role) (hva : va < MAXVA) (hok : Xv6.unmapPage L r va do_free s = .ok t)
    (hfree : do_free = true → ∀ pa flags, translate r va s = .ok (some (pa, flags)) →
      IsPage L pa ∧ 0 < s.refcount (pa / PGSIZE) ∧ ¬TablePage s.mem r pa) :
    Tree L r t role ∧ ∀ va', va' < 2 ^ 39 → leafPte t.mem 2 r va' =
      if va' / PGSIZE = va / PGSIZE then none else leafPte s.mem 2 r va' := by
  have hva39 := lt_39_of_lt_MAXVA hva
  cases hpte : leafPte s.mem 2 r va with
  | none =>
    rw [unmapPage_unmapped hva hpte, Except.ok.injEq] at hok
    subst hok
    refine ⟨h, fun va' hva' => ?_⟩
    split
    next heq => rw [leafPte_congr_page hva39 hva' heq, hpte]
    next => rfl
  | some e =>
    obtain ⟨b, i, hloc, hv, rfl⟩ := leafPte_eq_some.mp hpte
    rw [Xv6.unmapPage, walk_false hva, ok_bind, hloc] at hok
    simp only [hv, not_true_eq_false, if_false] at hok
    cases hdo : do_free with
    | false =>
      simp only [hdo, Bool.false_eq_true, if_false] at hok
      cases hok
      have hstore := h.store hva39 hloc 0#64
      rwa [if_neg (not_has_zero PTE_V)] at hstore
    | true =>
      obtain ⟨hp, href, htable⟩ := hfree hdo (PTE2PA (s.mem b i)) (PTE_FLAGS (s.mem b i)) (by
        rw [translate_eq_leafPte hva, hpte, Option.map_some])
      have hlevel : (role (PTE2PA (s.mem b i))).level = none := by
        by_contra hl
        exact htable (h.tablePage hl)
      obtain ⟨u, hk, hu, hm⟩ := h.kfree hp href hlevel
      have hsame : ∀ x, (role x).level ≠ none → u.mem x = s.mem x := by
        intro x hx
        apply hm
        rintro rfl
        exact hx hlevel
      simp only [hdo, if_true, hk, ok_bind] at hok
      cases hok
      have hloc' : lookup u.mem va 2 r = some (b, i) := by
        rw [h.wired.lookup_congr hsame (by rw [h.top, Role.level_top]), hloc]
      obtain ⟨hstore, hleaf⟩ := hu.store hva39 hloc' 0#64
      refine ⟨hstore, fun va' hva' => ?_⟩
      rw [hleaf va' hva', if_neg (not_has_zero PTE_V), h.leafPte_congr hsame]

theorem uvmunmapLoop (h : Tree L r s role) (hal : a % PGSIZE = 0) (hlast : last % PGSIZE = 0)
    (hturns : last ≤ a + n * PGSIZE) (hok : Xv6.uvmunmapLoop L r do_free last n a s = .ok t)
    (hfree : FreesLeaves L r last do_free n a s) :
    Tree L r t role ∧ ∀ va, va < 2 ^ 39 → leafPte t.mem 2 r va =
      if a ≤ va ∧ va < last then none else leafPte s.mem 2 r va := by
  induction n generalizing a s with
  | zero =>
    cases hok
    refine ⟨h, fun va _ => ?_⟩
    rw [if_neg (by omega)]
  | succ n ih =>
    rw [Xv6.uvmunmapLoop] at hok
    split_ifs at hok with hlt
    · obtain ⟨u, hpage, hok⟩ := bind_eq_ok.mp hok
      obtain ⟨hpre, hrest⟩ := hfree hlt
      have hva : a < MAXVA := by
        by_contra hge
        rw [Xv6.unmapPage, walk, if_pos (by omega), error_bind] at hpage
        simp at hpage
      obtain ⟨hu, hpte⟩ := h.unmapPage hva hpage hpre
      have hrest := hrest u hpage
      simp only [MAXVA_eq, PGSIZE_eq] at hva hal hturns hlast
      have ha' : wrap64 (a + PGSIZE) = a + PGSIZE := wrap64_eq_of_lt (by simp only [PGSIZE_eq]; omega)
      rw [ha'] at hok hrest
      obtain ⟨ht, hnext⟩ := ih hu (by simp only [PGSIZE_eq]; omega) (by simp only [PGSIZE_eq]; omega) hok hrest
      refine ⟨ht, fun va hva39 => ?_⟩
      rw [hnext va hva39, hpte va hva39]
      by_cases hfirst : va / PGSIZE = a / PGSIZE
      · have hin : a ≤ va ∧ va < last := by
          simp only [PGSIZE_eq] at hfirst
          omega
        rw [if_pos hfirst, if_pos hin, ite_self]
      · have hlater : a + PGSIZE ≤ va ∧ va < last ↔ a ≤ va ∧ va < last := by
          simp only [PGSIZE_eq] at hfirst ⊢
          omega
        rw [if_neg hfirst]
        simp only [hlater]
    · cases hok
      refine ⟨h, fun va _ => ?_⟩
      rw [if_neg (by omega)]

theorem mappages (h : Tree L r s role) (hpa : pa + size ≤ 2 ^ 56)
    (hok : Xv6.mappages r va size pa perm s = .ok (res, t)) :
    ∃ role' k, Tree L r t role' ∧ va % PGSIZE = 0 ∧ (res = 0 ∧ k = size / PGSIZE ∨ res = -1 ∧ k < size / PGSIZE) ∧
      (res = 0 → va + size ≤ MAXVA) ∧
      ∀ va', va' < 2 ^ 39 → leafPte t.mem 2 r va' =
        if va ≤ va' ∧ va' < va + k * PGSIZE then some (PA2PTE (pa + (va' / PGSIZE * PGSIZE - va)) ||| perm ||| PTE_V)
        else leafPte s.mem 2 r va' := by
  rw [Xv6.mappages] at hok
  split_ifs at hok with hal hsize hzero
  have hal' : va % PGSIZE = 0 := by omega
  have hdiv : size / PGSIZE * PGSIZE = size := by
    simp only [PGSIZE_eq] at hsize ⊢
    omega
  obtain ⟨role', k, ht, hres, hmax, hpte⟩ := h.mappagesLoop hal' (by rwa [hdiv]) hok
  refine ⟨role', k, ht, hal', hres, fun h0 => ?_, hpte⟩
  have hk : k = size / PGSIZE := by omega
  have hle := hmax (by simp only [PGSIZE_eq] at hsize hk; omega)
  rwa [hk, hdiv] at hle

theorem uvmunmap (h : Tree L r s role) (hok : Xv6.uvmunmap L r va n do_free s = .ok t)
    (hfree : FreesLeaves L r (wrap64 (va + n * PGSIZE)) do_free n va s) :
    Tree L r t role ∧ ∀ va', va' < 2 ^ 39 → leafPte t.mem 2 r va' =
      if va ≤ va' ∧ va' < wrap64 (va + n * PGSIZE) then none else leafPte s.mem 2 r va' := by
  rw [Xv6.uvmunmap] at hok
  split_ifs at hok with hal
  refine h.uvmunmapLoop (by omega) ?_ ?_ hok hfree
  · simp only [wrap64, PGSIZE_eq] at hal ⊢
    omega
  · exact Nat.mod_le _ _

theorem start (h : TableStart L r s) : ∃ role, Tree L r s role := by
  obtain ⟨s₀, free, refs, hinv, hcreate, hr⟩ := h
  cases free with
  | nil =>
    simp only [uvmcreate, kalloc_empty hinv, ok_bind, if_true, pure_eq_ok, Except.ok.injEq, Prod.mk.injEq] at hcreate
    exact absurd hcreate.1.symm hr
  | cons a rest =>
    obtain ⟨u, hk, hinv', hmem⟩ := kalloc_cons hinv
    have hp := hinv.page a (by simp)
    have hnot : a ∉ rest := (List.nodup_cons.mp hinv.nodup).1
    simp only [uvmcreate, hk, ok_bind, Nat.ne_of_gt hp.pos, if_false, pure_eq_ok, Except.ok.injEq,
      Prod.mk.injEq] at hcreate
    obtain ⟨rfl, rfl⟩ := hcreate
    have hinv'' : AllocInv L (u.memset a 0) rest (update refs a 1) := by
      refine hinv'.frame rfl rfl fun x hx => ?_
      have hxa : x ≠ a := by
        rintro rfl
        exact hnot hx
      simp [Phys.memset, hxa]
    have hempty : Wired (u.memset a 0).mem fun _ => .other :=
      ⟨fun _ _ _ hb => by simp [Role.level] at hb, fun _ _ _ _ ha => by simp at ha, fun _ _ _ ha => by simp at ha⟩
    refine ⟨update (fun _ => .other) a (.top 2), ⟨rest, _, hinv'', fun x hx => ?_⟩,
      hempty.newTop rfl (memset_zero_empty u a) 2, by simp, fun x hx => ?_⟩
    · by_cases hxa : x = a
      · subst hxa
        exact ⟨hp, by simp⟩
      · rw [update_of_ne hxa] at hx
        simp [Role.level] at hx
    · rw [update_of_ne hx]
      exact .inl rfl

theorem step (h : Tree L r s role) (hs : TableStep L r s t) : ∃ role', Tree L r t role' := by
  cases hs with
  | map hok hperm hal hpa =>
    obtain ⟨role', -, ht, -⟩ := h.mappages hpa hok
    exact ⟨role', ht⟩
  | unmap hok hfree => exact ⟨role, (h.uvmunmap hok hfree).1⟩
  | rest halloc htable =>
    refine ⟨role, h.congr halloc (fun a ha => ?_) fun a ha => (htable a (h.tablePage ha)).1⟩
    obtain ⟨_, _, -, hpage⟩ := h.alloc
    rw [← halloc.count a (hpage a ha).1]
    exact (htable a (h.tablePage ha)).2

theorem reach (h : Reach (TableStart L r) (TableStep L r) s) : ∃ role, Tree L r s role := by
  refine h.invariant (I := fun s => ∃ role, Tree L r s role) (fun s hs => start hs) fun s t _ hi hs => ?_
  obtain ⟨role, hr⟩ := hi
  exact hr.step hs

end Tree

-- A page table is a map from pages to physical pages and flags, and these calls change
-- it at their own pages alone.
theorem page_table_is_map (h : Reach (TableStart L r) (TableStep L r) s) :
    (∀ va, va < MAXVA → ∃ o, translate r va s = .ok o) ∧
    (∀ va va', va < MAXVA → va' < MAXVA → va' / PGSIZE = va / PGSIZE → translate r va' s = translate r va s) ∧
    (∀ va size pa perm res t, IsFlags perm → pa % PGSIZE = 0 → pa + size ≤ 2 ^ 56 →
      mappages r va size pa perm s = .ok (res, t) →
      ∃ k, (res = 0 ∧ k = size / PGSIZE ∧ va + size ≤ MAXVA ∨ res = -1 ∧ k < size / PGSIZE) ∧
        ∀ va', va' < MAXVA → translate r va' t =
          if va ≤ va' ∧ va' < va + k * PGSIZE then .ok (some (pa + (va' / PGSIZE * PGSIZE - va), perm ||| PTE_V))
          else translate r va' s) ∧
    ∀ va n do_free t, FreesLeaves L r (wrap64 (va + n * PGSIZE)) do_free n va s → uvmunmap L r va n do_free s = .ok t →
      ∀ va', va' < MAXVA → translate r va' t =
        if va ≤ va' ∧ va' < wrap64 (va + n * PGSIZE) then .ok none else translate r va' s := by
  obtain ⟨role, htree⟩ := Tree.reach h
  refine ⟨fun va hva => ⟨_, translate_eq_leafPte hva r s⟩, fun va va' hva hva' heq => ?_,
    fun va size pa perm res t hperm hal hpa hok => ?_, fun va n do_free t hfree hok va' hva' => ?_⟩
  · rw [translate_eq_leafPte hva, translate_eq_leafPte hva',
      leafPte_congr_page (lt_39_of_lt_MAXVA hva) (lt_39_of_lt_MAXVA hva') heq]
  · obtain ⟨-, k, -, hva, hres, hmax, hpte⟩ := htree.mappages hpa hok
    refine ⟨k, by omega, fun va' hva' => ?_⟩
    rw [translate_eq_leafPte hva', translate_eq_leafPte hva', hpte va' (lt_39_of_lt_MAXVA hva')]
    split
    next hin =>
      -- each of the pages lies below 2^56, where the entry keeps the address
      have hoff : pa + (va' / PGSIZE * PGSIZE - va) < 2 ^ 56 ∧ (pa + (va' / PGSIZE * PGSIZE - va)) % PGSIZE = 0 := by
        simp only [PGSIZE_eq] at *
        omega
      rw [Option.map_some, PTE2PA_leaf hoff.1 hoff.2 hperm, PTE_FLAGS_leaf hperm]
    next => rfl
  · rw [translate_eq_leafPte hva', translate_eq_leafPte hva', (htree.uvmunmap hok hfree).2 va' (lt_39_of_lt_MAXVA hva')]
    split <;> rfl

-- An allocator with five free pages.
def samplePages : List Nat := [0x80023000, 0x80024000, 0x80025000, 0x80026000, 0x80027000]

def samplePhys : Phys where
  mem := fun a _ => if a + PGSIZE ∈ samplePages then BitVec.ofNat 64 (a + PGSIZE) else 0
  freelist := 0x80023000
  refcount := fun i => if i * PGSIZE ∈ samplePages then 0 else 1

theorem samplePhys_alloc :
    AllocInv sampleLayout samplePhys samplePages fun a => if a ∈ samplePages then 0 else 1 where
  chain := by
    repeat' first | constructor | decide
  nodup := by decide
  page := by decide
  count := by
    intro a ha
    have hal : a / PGSIZE * PGSIZE = a := Nat.div_mul_cancel (Nat.dvd_of_mod_eq_zero ha.1)
    simp only [samplePhys, hal]
  mem_free := by
    intro a _
    by_cases h : a ∈ samplePages <;> simp [h]
  nonneg := by
    intro a _
    split <;> decide
  bound := by
    intro a _
    split <;> decide

theorem page_table_is_map_two : ∃ r s t, mappages r 0x1000 0x2000 0x80100000 (PTE_R ||| PTE_U) s = .ok (0, t) ∧
    translate r 0x2abc t = .ok (some (0x80101000, PTE_R ||| PTE_U ||| PTE_V)) := by
  have hrun : (match uvmcreate samplePhys with
      | .ok (r, s) =>
        match mappages r 0x1000 0x2000 0x80100000 (PTE_R ||| PTE_U) s with
        | .ok (res, _) => decide (r ≠ 0 ∧ res = 0)
        | .error _ => false
      | .error _ => false) = true := by
    decide +kernel
  cases hcreate : uvmcreate samplePhys with
  | error e => simp [hcreate] at hrun
  | ok rs =>
    obtain ⟨r, s⟩ := rs
    simp only [hcreate] at hrun
    cases hmap : mappages r 0x1000 0x2000 0x80100000 (PTE_R ||| PTE_U) s with
    | error e => simp [hmap] at hrun
    | ok rt =>
      obtain ⟨res, t⟩ := rt
      simp only [hmap] at hrun
      obtain ⟨hr, rfl⟩ := of_decide_eq_true hrun
      have hreach : Reach (TableStart sampleLayout r) (TableStep sampleLayout r) s :=
        .start ⟨samplePhys, _, _, samplePhys_alloc, hcreate, hr⟩
      obtain ⟨k, hk, htr⟩ := (page_table_is_map hreach).2.2.1 _ _ _ _ _ _ (by decide) (by decide) (by decide) hmap
      obtain rfl : k = 2 := by
        rcases hk with ⟨-, hk, -⟩ | ⟨hres, -⟩
        · exact hk
        · simp at hres
      exact ⟨r, s, t, hmap, (htr 0x2abc (by decide)).trans (if_pos (by decide))⟩

end Xv6
