import Xv6.System.Ordinary

namespace Xv6

open Lib

variable {L : Layout} {used : List Nat} {k : Kernel} {s : Phys} {m : Mem} {role : Nat → Role}

theorem Leads.le (h : Leads m va l b n c) : n ≤ l := by
  induction h with
  | here => exact Nat.le_refl _
  | next _ _ ih => omega

theorem Leads.congr (h : Leads m va l b n c) (hpx : ∀ j, n < j → j ≤ l → PX j va' = PX j va) :
    Leads m va' l b n c := by
  induction h with
  | here => exact .here
  | @next n c hup hv ih =>
    have hup' : Leads m va' l b (n + 1) c := ih fun j hj => hpx j (by omega)
    rw [← hpx (n + 1) (by omega) hup.le] at hv ⊢
    exact hup'.next hv

theorem lookup_of_leads (h : Leads m va l b n c) : lookup m va l b = lookup m va n c := by
  induction h with
  | here => rfl
  | next _ hv ih => rw [ih, lookup, if_pos hv]

theorem exists_px_above (hl : l < 2) (i : Fin 512) (hva : va < 2 ^ 39) :
    ∃ va', va' < 2 ^ 39 ∧ PX (l + 1) va' = i ∧ ∀ j, l + 1 < j → j ≤ 2 → PX j va' = PX j va := by
  have hi := i.isLt
  have hcases : l = 0 ∨ l = 1 := by omega
  rcases hcases with rfl | rfl
  · refine ⟨va / 0x40000000 * 0x40000000 + i * 0x200000, by omega, Fin.ext ?_, fun j h1 h2 => Fin.ext ?_⟩
    · rw [PX_one]
      omega
    · have hj : j = 2 := by omega
      rw [hj, PX_two, PX_two]
      omega
  · refine ⟨i * 0x40000000, by omega, Fin.ext ?_, fun j h1 h2 => by omega⟩
    rw [PX_two]
    omega

-- There are not enough pages for page tables of more than three levels.
theorem Vm.table_level (h : Vm L s role) (htop : ∀ a l, role a = .top l → l = 2)
    (ha : role a = .table l b i) : l ≤ 1 := by
  by_contra hl
  have hchain : ∀ n, ∃ a, a < PHYSTOP ∧ ∃ b i, role a = .table (l + n) b i := by
    intro n
    induction n with
    | zero => exact ⟨a, (h.page a (by simp [ha]) (by simp [ha])).2.2, b, i, ha⟩
    | succ n ih =>
      obtain ⟨a', -, b', i', ha'⟩ := ih
      have hlevel := (h.wired.up _ _ _ _ ha').1
      cases hb : role b' with
      | top l' =>
        rw [hb, Role.level_top, Option.some.injEq] at hlevel
        have := htop b' l' hb
        omega
      | table l' b'' i'' =>
        rw [hb, Role.level_table, Option.some.injEq] at hlevel
        rw [hlevel] at hb
        exact ⟨b', (h.page b' (by simp [hb]) (by simp [hb])).2.2, b'', i'', hb⟩
      | free | held | leaf _ _ | frame | shared | other =>
        rw [hb] at hlevel
        simp [Role.level] at hlevel
  choose page hpage htable using hchain
  apply not_injective_infinite_finite fun n => (⟨page n, hpage n⟩ : Fin PHYSTOP)
  intro n n' heq
  obtain ⟨b₁, i₁, h₁⟩ := htable n
  obtain ⟨b₂, i₂, h₂⟩ := htable n'
  rw [(Fin.mk.inj heq : page n = page n'), h₂, Role.table.injEq] at h₁
  omega

theorem Vm.leads_to (h : Vm L s role) (htop : ∀ a l, role a = .top l → l = 2) (ha : (role a).level = some l) :
    ∃ r va, role r = .top 2 ∧ va < 2 ^ 39 ∧ Leads s.mem va 2 r l a := by
  generalize hn : 2 - l = n
  induction n generalizing a l with
  | zero =>
    cases hrole : role a with
    | top l' =>
      rw [hrole, Role.level_top, Option.some.injEq] at ha
      have hl' := htop a l' hrole
      subst ha
      subst hl'
      exact ⟨a, 0, hrole, by omega, .here⟩
    | table l' b i =>
      have hl' := h.table_level htop hrole
      rw [hrole, Role.level_table, Option.some.injEq] at ha
      omega
    | free | held | leaf _ _ | frame | shared | other =>
      rw [hrole] at ha
      simp [Role.level] at ha
  | succ n ih =>
    cases hrole : role a with
    | top l' =>
      rw [hrole, Role.level_top, Option.some.injEq] at ha
      have hl' := htop a l' hrole
      omega
    | table l' b i =>
      rw [hrole, Role.level_table, Option.some.injEq] at ha
      subst ha
      obtain ⟨hlevel, hv, rfl⟩ := h.wired.up _ _ _ _ hrole
      obtain ⟨r, va, hr, hva, hleads⟩ := ih hlevel (by omega)
      obtain ⟨va', hva', hi, hpx⟩ := exists_px_above (l := l') (by omega) i hva
      refine ⟨r, va', hr, hva', ?_⟩
      rw [← hi] at hv ⊢
      exact (hleads.congr hpx).next hv
    | free | held | leaf _ _ | frame | shared | other =>
      rw [hrole] at ha
      simp [Role.level] at ha

theorem block_eq (hl : l ≤ 2) (hva : va < 2 ^ 39) (hva' : va' < 2 ^ 39)
    (hpx : ∀ j, l < j → j ≤ 2 → PX j va = PX j va') :
    va / 2 ^ (12 + 9 * (l + 1)) = va' / 2 ^ (12 + 9 * (l + 1)) := by
  have hcases : l = 0 ∨ l = 1 ∨ l = 2 := by omega
  rcases hcases with rfl | rfl | rfl
  · have h1 := congrArg Fin.val (hpx 1 (by omega) (by omega))
    have h2 := congrArg Fin.val (hpx 2 (by omega) (by omega))
    rw [PX_one, PX_one] at h1
    rw [PX_two, PX_two] at h2
    omega
  · have h2 := congrArg Fin.val (hpx 2 (by omega) (by omega))
    rw [PX_two, PX_two] at h2
    omega
  · omega

-- Who can have a page: a trapframe, the page-table page of a process for a block of
-- addresses, or the mapping of one of its user pages.
inductive Owner where
  | trapframe (p : Fin NPROC)
  | table (p : Fin NPROC) (level block : Nat)
  | user (p : Fin NPROC) (page : Nat)

def Kernel.Owns (k : Kernel) : Owner → Nat → Prop
  | .trapframe p, a => k.Live p ∧ a = (k.procs p).trapframe
  | .table p level block, a => k.Live p ∧ ∃ va, va < 2 ^ 39 ∧ va / 2 ^ (12 + 9 * (level + 1)) = block ∧
      Leads k.phys.mem va 2 (k.procs p).pagetable level a
  | .user p page, a => k.Live p ∧ page * PGSIZE < PGROUNDUP (k.procs p).sz ∧
      ∃ e, leafPte k.phys.mem 2 (k.procs p).pagetable (page * PGSIZE) = some e ∧ a = PTE2PA e

def OwnerRole (k : Kernel) (role : Nat → Role) (a : Nat) : Owner → Prop
  | .trapframe _ => role a = .frame
  | .table _ level _ => (role a).level = some level
  | .user p page => ∃ c i, lookup k.phys.mem (page * PGSIZE) 2 (k.procs p).pagetable = some (c, i) ∧
      role a = .leaf c i

theorem KInv.top_level (h : KInv L used sized k role) (ha : role a = .top l) :
    l = 2 ∧ ∃ p, k.Live p ∧ a = (k.procs p).pagetable := by
  rcases h.whole a (by rw [ha]; rfl) with hcommon | ⟨p, hp, rfl | rfl⟩
  · simp [ha] at hcommon
  · have htop := (h.space p hp).top
    rw [ha, Role.top.injEq] at htop
    exact ⟨htop, p, hp, rfl⟩
  · have hframe := h.frame p hp
    simp [ha] at hframe

section

variable (h : KInv L used true k role)
include h

theorem KInv.userLeaf (hshm : k.shm.allocated = false) (hp : k.Live p) (hva : va < TRAPFRAME)
    (hpte : leafPte k.phys.mem 2 (k.procs p).pagetable va = some e) :
    va < PGROUNDUP (k.procs p).sz ∧ UserLeaf k.phys.mem role 2 (k.procs p).pagetable va := by
  rcases (h.space p hp).user va hva with hnone | hu | ⟨-, pa, hpa, -⟩
  · simp [hnone] at hpte
  · rwa [limit_true] at hu
  · have hshared := (h.shared pa).mp hpa
    simp [hshm] at hshared

theorem KInv.page_lt (hlt : va < PGROUNDUP (k.procs p).sz) : va < 2 ^ 39 := by
  have hle : limit true (k.procs p).sz ≤ TRAPFRAME := limit_le fun _ => h.size rfl p
  rw [limit_true] at hle
  simp only [TRAPFRAME_eq] at hle
  omega

theorem KInv.ownerRole (hshm : k.shm.allocated = false) (ho : k.Owns o a) : OwnerRole k role a o := by
  cases o with
  | trapframe p =>
    obtain ⟨hp, rfl⟩ := ho
    exact h.frame p hp
  | table p level block =>
    obtain ⟨hp, va, -, -, hleads⟩ := ho
    exact hleads.level h.vm.wired (by rw [(h.space p hp).top, Role.level_top])
  | user p page =>
    obtain ⟨hp, hlt, e, hpte, rfl⟩ := ho
    have hle : limit true (k.procs p).sz ≤ TRAPFRAME := limit_le fun _ => h.size rfl p
    rw [limit_true] at hle
    exact (h.userLeaf hshm hp (by omega) hpte).2.owner hpte

theorem KInv.owner_unique (hshm : k.shm.allocated = false) (ho : k.Owns o a) (ho' : k.Owns o' a) : o = o' := by
  have hrole := h.ownerRole hshm ho
  have hrole' := h.ownerRole hshm ho'
  cases o with
  | trapframe p =>
    have hframe : role a = .frame := hrole
    cases o' with
    | trapframe p' =>
      rw [h.frame_inj p p' ho.1 ho'.1 (ho.2.symm.trans ho'.2)]
    | table p' level block => simp [OwnerRole, hframe, Role.level] at hrole'
    | user p' page =>
      obtain ⟨c, i, -, hleaf⟩ := hrole'
      simp [hframe] at hleaf
  | table p level block =>
    cases o' with
    | trapframe p' =>
      have hframe : role a = .frame := hrole'
      simp [OwnerRole, hframe, Role.level] at hrole
    | table p' level' block' =>
      obtain ⟨hp, va, hva, rfl, hleads⟩ := ho
      obtain ⟨hp', va', hva', rfl, hleads'⟩ := ho'
      obtain ⟨rfl, -, hroot, hpx⟩ := hleads.inj h.vm.wired (h.space p hp).top (h.space p' hp').top hleads'
      rw [h.root_inj p p' hp hp' hroot, block_eq hleads.le hva hva' hpx]
    | user p' page =>
      obtain ⟨c, i, -, hleaf⟩ := hrole'
      simp [OwnerRole, hleaf] at hrole
  | user p page =>
    obtain ⟨c, i, hl, hleaf⟩ := hrole
    cases o' with
    | trapframe p' =>
      have hframe : role a = .frame := hrole'
      simp [hframe] at hleaf
    | table p' level block => simp [OwnerRole, hleaf] at hrole'
    | user p' page' =>
      obtain ⟨c', i', hl', hleaf'⟩ := hrole'
      rw [hleaf, Role.leaf.injEq] at hleaf'
      obtain ⟨rfl, rfl⟩ := hleaf'
      obtain ⟨hp, hlt, -⟩ := ho
      obtain ⟨hp', hlt', -⟩ := ho'
      obtain ⟨-, hroot, hpx⟩ := h.vm.wired.lookup_inj (h.space p hp).top (h.space p' hp').top hl hl'
      rw [px_eq_iff (h.page_lt hlt) (h.page_lt hlt')] at hpx
      simp only [PGSIZE_eq, Nat.mul_div_cancel _ (show 0 < 4096 by omega)] at hpx
      rw [h.root_inj p p' hp hp' hroot, hpx]

theorem KInv.table_owner (ha : (role a).level = some l) : ∃ o, k.Owns o a := by
  obtain ⟨r, va, hr, hva, hleads⟩ := h.vm.leads_to (fun _ _ htop => (h.top_level htop).1) ha
  obtain ⟨-, p, hp, rfl⟩ := h.top_level hr
  exact ⟨.table p l _, hp, va, hva, rfl, hleads⟩

theorem KInv.userLeaf_lt (hp : k.Live p) (hva : va < 2 ^ 39)
    (hu : UserLeaf k.phys.mem role 2 (k.procs p).pagetable va) : va < TRAPFRAME := by
  have hsp := h.space p hp
  have hframe := h.frame p hp
  rcases layout_cases hva with hlow | hpage | hpage | hhigh
  · exact hlow
  · refine absurd hu (not_userLeaf_frame (h.vm.page _ (by simp [hframe]) (by simp [hframe])) ?_
      (hsp.frame va hva hpage))
    simp [hframe]
  · exact absurd hu (h.vm.not_userLeaf_tramp (hsp.tramp va hva hpage))
  · exact absurd (hsp.high va hhigh hva) hu.mapped

theorem KInv.user_owner (hshm : k.shm.allocated = false) (ha : role a = .leaf b i) : ∃ o, k.Owns o a := by
  obtain ⟨hb, hv, rfl⟩ := h.vm.wired.back _ _ _ ha
  obtain ⟨r, va, hr, hva, hleads⟩ := h.vm.leads_to (fun _ _ htop => (h.top_level htop).1) hb
  obtain ⟨-, p, hp, rfl⟩ := h.top_level hr
  -- the address that the entry i of b is for
  have hi := i.isLt
  obtain ⟨page, hlt, hi0, hpx⟩ : ∃ page, page * PGSIZE < 2 ^ 39 ∧ PX 0 (page * PGSIZE) = i ∧
      ∀ j, 0 < j → j ≤ 2 → PX j (page * PGSIZE) = PX j va := by
    refine ⟨va / 0x200000 * 512 + i, by simp only [PGSIZE_eq]; omega, Fin.ext ?_, fun j h1 h2 => Fin.ext ?_⟩
    · rw [PX_zero, PGSIZE_eq]
      omega
    · have hcases : j = 1 ∨ j = 2 := by omega
      rcases hcases with rfl | rfl
      · rw [PX_one, PX_one, PGSIZE_eq]
        omega
      · rw [PX_two, PX_two, PGSIZE_eq]
        omega
  have hl : lookup k.phys.mem (page * PGSIZE) 2 (k.procs p).pagetable = some (b, i) := by
    rw [lookup_of_leads (hleads.congr hpx), lookup, hi0]
  have hpte := leafPte_of_lookup hl hv
  have hlow := h.userLeaf_lt hp hlt ⟨b, i, hl, hv, ha⟩
  exact ⟨.user p page, hp, (h.userLeaf hshm hp hlow hpte).1, _, hpte, rfl⟩

theorem KInv.owned_page (hshm : k.shm.allocated = false) (ho : k.Owns o a) :
    IsPage L a ∧ role a ≠ .free ∧ role a ≠ .other := by
  have hrole := h.ownerRole hshm ho
  have hne : role a ≠ .free ∧ role a ≠ .other := by
    cases o with
    | trapframe p =>
      have hframe : role a = .frame := hrole
      simp [hframe]
    | table p level block =>
      have hlevel : (role a).level = some level := hrole
      constructor
      · intro hfree
        simp [hfree, Role.level] at hlevel
      · intro hother
        simp [hother, Role.level] at hlevel
    | user p page =>
      obtain ⟨c, i, -, hleaf⟩ := hrole
      simp [hleaf]
  exact ⟨h.vm.page a hne.1 hne.2, hne⟩

theorem KInv.exists_owner (hshm : k.shm.allocated = false) (hused : a ∉ used) (hfree : role a ≠ .free) :
    ∃ o, k.Owns o a := by
  have hwhole := h.whole a
  cases hrole : role a with
  | free => exact absurd hrole hfree
  | other => exact absurd ((h.kernel a).mp hrole) hused
  | shared =>
    have hshared := (h.shared a).mp hrole
    simp [hshm] at hshared
  | table l b i => exact h.table_owner (by rw [hrole, Role.level_table])
  | leaf b i => exact h.user_owner hshm hrole
  | top l => exact h.table_owner (by rw [hrole, Role.level_top])
  | held | frame =>
    rw [hrole] at hwhole
    obtain ⟨p, hp, rfl | rfl⟩ := (hwhole rfl).resolve_left (by simp)
    · simp [(h.space p hp).top] at hrole
    · exact ⟨.trapframe p, hp, rfl⟩

end

-- Every page is free or has exactly one owner, and nothing panics that would show otherwise.
theorem pages_conserved (h : Reach (Start L used) (Step L Bounded) k) :
    (∀ a, IsPage L a → a ∉ used →
      k.FreePage a ∧ (∀ o, ¬k.Owns o a) ∨ ¬k.FreePage a ∧ ∃! o, k.Owns o a) ∧
    (∀ o a, k.Owns o a → IsPage L a ∧ a ∉ used) ∧
    ∀ e : Event, e.enabled k → Bounded k e →
      e.next L k ≠ .error .freewalkLeaf ∧ e.next L k ≠ .error .mappagesRemap := by
  obtain ⟨⟨role, hinv⟩, hshm⟩ := bounded_inv h
  refine ⟨fun a hpage hused => ?_, fun o a ho => ?_, fun e he hb => ?_⟩
  · rw [hinv.freePage_iff]
    by_cases hfree : role a = .free
    · exact .inl ⟨⟨hpage, hfree⟩, fun o ho => (hinv.owned_page hshm ho).2.1 hfree⟩
    · obtain ⟨o, ho⟩ := hinv.exists_owner hshm hused hfree
      exact .inr ⟨fun hf => hfree hf.2, o, ho, fun o' ho' => hinv.owner_unique hshm ho' ho⟩
  · obtain ⟨hpage, -, hother⟩ := hinv.owned_page hshm ho
    exact ⟨hpage, fun hused => hother ((hinv.kernel a).mpr hused)⟩
  · have hends := hinv.next_spec he (hb.tame hshm)
    generalize e.next L k = res at hends
    cases hends with
    | done inv shm => simp
    | exiting => simp
    | remap p call =>
      subst call
      exact hb.elim

theorem pages_conserved_forked : ∃ k : Kernel, k.Live ⟨1, by decide⟩ ∧
    ∀ a, IsPage sampleLayout a →
      k.FreePage a ∧ (∀ o, ¬k.Owns o a) ∨ ¬k.FreePage a ∧ ∃! o, k.Owns o a := by
  obtain ⟨k, hreach, hlive⟩ := exists_forked
  exact ⟨k, hlive, fun a ha => (pages_conserved hreach).1 a ha (by simp)⟩

end Xv6
