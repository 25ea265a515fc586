import Xv6.Vm

namespace Xv6

open Lib Function

abbrev Mem := Nat → Fin 512 → BitVec 64

-- What a physical page is in use for. A page-table page or a user page has one
-- entry that points to it, and its role says which.
inductive Role where
  | free
  | held                                      -- in the hands of a running kernel function
  | top (level : Nat)                         -- a page table that no entry points to
  | table (level parent : Nat) (i : Fin 512)  -- a lower page-table page
  | leaf (parent : Nat) (i : Fin 512)         -- a user page
  | frame                                     -- a trapframe
  | shared                                    -- the page of the shared segment
  | other                                     -- in use elsewhere in the kernel
  deriving DecidableEq

namespace Role

def level : Role → Option Nat
  | .top l | .table l _ _ => some l
  | _ => none

def loose : Role → Bool
  | .free | .held | .frame | .shared | .other => true
  | _ => false

def pinned : Role → Bool
  | .free | .table _ _ _ | .leaf _ _ => false
  | _ => true

@[simp] theorem level_top : (top l).level = some l := rfl
@[simp] theorem level_table : (table l b i).level = some l := rfl
@[simp] theorem level_leaf : (leaf b i).level = none := rfl

theorem level_of_loose {ρ : Role} (h : ρ.loose = true) : ρ.level = none := by
  cases ρ with
  | free | held | frame | shared | other => rfl
  | top _ | table _ _ _ | leaf _ _ => simp [loose] at h

end Role

-- The entry for va that walk() finds below page b of the given level.
def lookup (m : Mem) (va : Nat) : Nat → Nat → Option (Nat × Fin 512)
  | 0, b => some (b, PX 0 va)
  | l + 1, b =>
    if hasFlag (m b (PX (l + 1) va)) PTE_V then lookup m va l (PTE2PA (m b (PX (l + 1) va)))
    else none

-- The valid leaf entry for va, if there is one: the address space as a map.
def leafPte (m : Mem) (l b va : Nat) : Option Pte :=
  match lookup m va l b with
  | none => none
  | some (c, i) => if hasFlag (m c i) PTE_V then some (m c i) else none

def setEntry (m : Mem) (b : Nat) (i : Fin 512) (w : Pte) : Mem :=
  update m b (update (m b) i w)

theorem setEntry_apply (m : Mem) (b c : Nat) (i j : Fin 512) (w : Pte) :
    setEntry m b i w c j = if c = b ∧ j = i then w else m c j := by
  by_cases hc : c = b
  · subst hc
    by_cases hj : j = i
    · subst hj
      simp [setEntry]
    · simp [setEntry, hj]
  · simp [setEntry, hc]

theorem setEntry_of_ne (h : c ≠ b) (i : Fin 512) (w : Pte) :
    setEntry m b i w c = m c := by
  simp [setEntry, h]

-- Entries of the upper levels point to the page-table pages whose roles name
-- them, and a page-table page or user page is pointed to by the entry its role names.
structure Wired (m : Mem) (role : Nat → Role) : Prop where
  down : ∀ b i l, (role b).level = some (l + 1) → hasFlag (m b i) PTE_V →
    role (PTE2PA (m b i)) = .table l b i ∧ innerPte (m b i)
  up : ∀ a l b i, role a = .table l b i →
    (role b).level = some (l + 1) ∧ hasFlag (m b i) PTE_V ∧ PTE2PA (m b i) = a
  back : ∀ a b i, role a = .leaf b i →
    (role b).level = some 0 ∧ hasFlag (m b i) PTE_V ∧ PTE2PA (m b i) = a

variable {m m' : Mem} {role : Nat → Role}

-- The walk for va from page b of level l passes page c of level k.
inductive Leads (m : Mem) (va l b : Nat) : Nat → Nat → Prop
  | here : Leads m va l b l b
  | next {k c : Nat} (h : Leads m va l b (k + 1) c) (hv : hasFlag (m c (PX (k + 1) va)) PTE_V) :
      Leads m va l b k (PTE2PA (m c (PX (k + 1) va)))

theorem Leads.lookup (h : Leads m va l b k c) (hl : lookup m va k c = some (d, i)) :
    Leads m va l b 0 d ∧ i = PX 0 va := by
  induction k generalizing c with
  | zero =>
    simp only [Xv6.lookup, Option.some.injEq, Prod.mk.injEq] at hl
    exact ⟨hl.1 ▸ h, hl.2.symm⟩
  | succ k ih =>
    simp only [Xv6.lookup] at hl
    split_ifs at hl with hv
    exact ih (h.next hv) hl

theorem leads_of_lookup (h : lookup m va l b = some (c, i)) : Leads m va l b 0 c ∧ i = PX 0 va :=
  Leads.lookup .here h

theorem Leads.level (hw : Wired m role) (hb : (role b).level = some l) (h : Leads m va l b k c) :
    (role c).level = some k := by
  induction h with
  | here => exact hb
  | next _ hv ih => rw [(hw.down _ _ _ ih hv).1, Role.level_table]

-- A page is passed by the walks from one page table only, and only for the
-- addresses that agree above its level.
theorem Leads.inj (hw : Wired m role) (hb : role b = .top l) (hb' : role b' = .top l')
    (h : Leads m va l b k c) (h' : Leads m va' l' b' k' c) :
    k = k' ∧ l = l' ∧ b = b' ∧ ∀ j, k < j → j ≤ l → PX j va = PX j va' := by
  have hlevel : (role b).level = some l := by rw [hb, Role.level_top]
  have hlevel' : (role b').level = some l' := by rw [hb', Role.level_top]
  induction h generalizing k' with
  | here =>
    cases h' with
    | here =>
      have hl : l = l' := by simpa [hb] using hb'
      exact ⟨hl, hl, rfl, fun j h1 h2 => absurd h1 (by omega)⟩
    | next h' hv =>
      have hrole := (hw.down _ _ _ (h'.level hw hlevel') hv).1
      simp [hb] at hrole
  | @next k c h hv ih =>
    have hrole := (hw.down _ _ _ (h.level hw hlevel) hv).1
    generalize htarget : PTE2PA (m c (PX (k + 1) va)) = t at h' hrole
    cases h' with
    | here => simp [hb'] at hrole
    | @next k' c' h' hv' =>
      have hrole' := (hw.down _ _ _ (h'.level hw hlevel') hv').1
      rw [hrole] at hrole'
      simp only [Role.table.injEq] at hrole'
      obtain ⟨hk, hc, hpx⟩ := hrole'
      subst hk
      subst hc
      obtain ⟨-, hl, hbb, hrest⟩ := ih h'
      refine ⟨rfl, hl, hbb, fun j h1 h2 => ?_⟩
      by_cases hj : j = k + 1
      · subst hj
        exact hpx
      · exact hrest j (by omega) h2

theorem Wired.lookup_inj (hw : Wired m role) (hb : role b = .top l) (hb' : role b' = .top l')
    (h : lookup m va l b = some (c, i)) (h' : lookup m va' l' b' = some (c, i)) :
    l = l' ∧ b = b' ∧ ∀ j, j ≤ l → PX j va = PX j va' := by
  obtain ⟨hlead, hi⟩ := leads_of_lookup h
  obtain ⟨hlead', hi'⟩ := leads_of_lookup h'
  obtain ⟨-, hl, hbb, hpx⟩ := hlead.inj hw hb hb' hlead'
  refine ⟨hl, hbb, fun j hj => ?_⟩
  by_cases h0 : j = 0
  · subst h0
    exact hi.symm.trans hi'
  · exact hpx j (by omega) hj

theorem Wired.lookup_level (hw : Wired m role) (hb : (role b).level = some l)
    (h : lookup m va l b = some (c, i)) : (role c).level = some 0 :=
  (leads_of_lookup h).1.level hw hb

theorem leafPte_zero : leafPte m 0 b va =
    if hasFlag (m b (PX 0 va)) PTE_V then some (m b (PX 0 va)) else none := rfl

theorem leafPte_succ : leafPte m (l + 1) b va =
    if hasFlag (m b (PX (l + 1) va)) PTE_V then leafPte m l (PTE2PA (m b (PX (l + 1) va))) va
    else none := by
  simp only [leafPte, lookup]
  split_ifs <;> rfl

theorem leafPte_eq_some : leafPte m l b va = some e ↔
    ∃ c i, lookup m va l b = some (c, i) ∧ hasFlag (m c i) PTE_V ∧ m c i = e := by
  unfold leafPte
  cases h : lookup m va l b with
  | none => simp
  | some loc =>
    obtain ⟨c, i⟩ := loc
    by_cases hv : hasFlag (m c i) PTE_V
    · simp [hv]
    · simp [hv]

theorem leafPte_of_lookup (h : lookup m va l b = some (c, i)) (hv : hasFlag (m c i) PTE_V) :
    leafPte m l b va = some (m c i) :=
  leafPte_eq_some.mpr ⟨c, i, h, hv, rfl⟩

theorem leafPte_of_empty (h : ∀ j, ¬hasFlag (m b j) PTE_V) : leafPte m l b va = none := by
  cases l with
  | zero => rw [leafPte_zero, if_neg (h _)]
  | succ l => rw [leafPte_succ, if_neg (h _)]

theorem lookup_congr_px (h : ∀ j, j ≤ l → PX j va = PX j va') :
    lookup m va l b = lookup m va' l b := by
  induction l generalizing b with
  | zero => simp only [lookup, h 0 (Nat.le_refl 0)]
  | succ l ih =>
    simp only [lookup, h (l + 1) (Nat.le_refl _)]
    split_ifs with hv
    · exact ih fun j hj => h j (by omega)
    · rfl

theorem leafPte_congr_px (h : ∀ j, j ≤ l → PX j va = PX j va') :
    leafPte m l b va = leafPte m l b va' := by
  unfold leafPte
  rw [lookup_congr_px h]

section

variable (hw : Wired m role) (hm : ∀ b, (role b).level ≠ none → m' b = m b)
include hw hm

theorem Wired.congr :
    Wired m' role where
  down := by
    intro b i l hb hv
    rw [hm b (by simp [hb])] at hv ⊢
    exact hw.down b i l hb hv
  up := by
    intro a l b i ha
    have h := hw.up a l b i ha
    rwa [← hm b (by simp [h.1])] at h
  back := by
    intro a b i ha
    have h := hw.back a b i ha
    rwa [← hm b (by simp [h.1])] at h

theorem Wired.lookup_congr (hb : (role b).level = some l) : lookup m' va l b = lookup m va l b := by
  induction l generalizing b with
  | zero => rfl
  | succ l ih =>
    simp only [lookup, hm b (by simp [hb])]
    split_ifs with hv
    · apply ih
      rw [(hw.down b _ l hb hv).1, Role.level_table]
    · rfl

theorem Wired.leafPte_congr (hb : (role b).level = some l) : leafPte m' l b va = leafPte m l b va := by
  unfold leafPte
  rw [hw.lookup_congr hm hb]
  cases h : lookup m va l b with
  | none => rfl
  | some loc =>
    obtain ⟨c, i⟩ := loc
    have hc := hw.lookup_level hb h
    simp only [hm c (by simp [hc])]

end

theorem Wired.setRole (hw : Wired m role) (ha : (role a).level = none) (hρ : ρ.level = none)
    (hleaf : ∀ b i, ρ = .leaf b i → (role b).level = some 0 ∧ hasFlag (m b i) PTE_V ∧ PTE2PA (m b i) = a) :
    Wired m (update role a ρ) := by
  have hlevel : ∀ c, (update role a ρ c).level = (role c).level := by
    intro c
    by_cases hc : c = a
    · rw [hc, update_self, ha, hρ]
    · rw [update_of_ne hc]
  constructor
  · intro b i l hb hv
    rw [hlevel] at hb
    have h := hw.down b i l hb hv
    rwa [update_of_ne]
    intro heq
    simp [← heq, h.1] at ha
  · intro x l b i hx
    rw [hlevel]
    by_cases hxa : x = a
    · rw [hxa, update_self] at hx
      simp [hx] at hρ
    · exact hw.up x l b i (by simpa [hxa] using hx)
  · intro x b i hx
    rw [hlevel]
    by_cases hxa : x = a
    · rw [hxa, update_self] at hx
      exact hxa ▸ hleaf b i hx
    · exact hw.back x b i (by simpa [hxa] using hx)

theorem Wired.relabel (hw : Wired m role) (ha : (role a).loose = true) (hρ : ρ.loose = true) :
    Wired m (update role a ρ) :=
  hw.setRole (Role.level_of_loose ha) (Role.level_of_loose hρ) fun b i heq => by simp [heq, Role.loose] at hρ

theorem Wired.newTop (hw : Wired m role) (ha : (role a).loose = true)
    (hempty : ∀ j, ¬hasFlag (m a j) PTE_V) (l : Nat) : Wired m (update role a (.top l)) where
  down := by
    intro b i k hb hv
    have hba : b ≠ a := by
      intro hba
      exact hempty i (hba ▸ hv)
    have h := hw.down b i k (by simpa [hba] using hb) hv
    rwa [update_of_ne]
    intro heq
    rw [← heq, h.1] at ha
    simp [Role.loose] at ha
  up := by
    intro x k b i hx
    have hxa : x ≠ a := by
      intro hxa
      simp [hxa] at hx
    have h := hw.up x k b i (by simpa [hxa] using hx)
    have hba : b ≠ a := by
      intro hba
      exact hempty i (hba ▸ h.2.1)
    rwa [update_of_ne hba]
  back := by
    intro x b i hx
    have hxa : x ≠ a := by
      intro hxa
      simp [hxa] at hx
    have h := hw.back x b i (by simpa [hxa] using hx)
    have hba : b ≠ a := by
      intro hba
      exact hempty i (hba ▸ h.2.1)
    rwa [update_of_ne hba]

section Link

variable {a b l : Nat} {i : Fin 512} {e : Pte}

section

variable (hw : Wired m role) (ha : (role a).loose = true) (hempty : ∀ j, ¬hasFlag (m a j) PTE_V)
  (hb : (role b).level = some (l + 1)) (hfree : ¬hasFlag (m b i) PTE_V)
include hw ha hempty hb hfree

theorem Wired.link (he : hasFlag e PTE_V ∧ innerPte e ∧ PTE2PA e = a) :
    Wired (setEntry m b i e) (update role a (.table l b i)) := by
  have hab : b ≠ a := by
    intro hba
    rw [hba, Role.level_of_loose ha] at hb
    simp at hb
  have hother : ∀ c j, hasFlag (m c j) PTE_V → setEntry m b i e c j = m c j := by
    intro c j hv
    rw [setEntry_apply, if_neg]
    intro hcj
    exact hfree (hcj.1 ▸ hcj.2 ▸ hv)
  constructor
  · intro c j k hc hv
    by_cases hca : c = a
    · rw [hca, setEntry_of_ne hab.symm] at hv
      exact absurd hv (hempty j)
    rw [update_of_ne hca] at hc
    rw [setEntry_apply] at hv ⊢
    split_ifs at hv ⊢ with hcj
    · obtain ⟨hcb, hji⟩ := hcj
      subst hcb
      subst hji
      have hk : l = k := by simpa [hb] using hc
      rw [he.2.2, update_self, hk]
      exact ⟨rfl, he.2.1⟩
    · have h := hw.down c j k hc hv
      rwa [update_of_ne]
      intro heq
      rw [← heq, h.1] at ha
      simp [Role.loose] at ha
  · intro x k c j hx
    by_cases hxa : x = a
    · rw [hxa, update_self] at hx
      cases hx
      rw [update_of_ne hab, setEntry_apply, if_pos ⟨rfl, rfl⟩, hxa]
      exact ⟨hb, he.1, he.2.2⟩
    · have h := hw.up x k c j (by simpa [hxa] using hx)
      have hca : c ≠ a := by
        intro hca
        exact hempty j (hca ▸ h.2.1)
      rwa [update_of_ne hca, hother c j h.2.1]
  · intro x c j hx
    have hxa : x ≠ a := by
      intro hxa
      simp [hxa] at hx
    have h := hw.back x c j (by simpa [hxa] using hx)
    have hca : c ≠ a := by
      intro hca
      exact hempty j (hca ▸ h.2.1)
    rwa [update_of_ne hca, hother c j h.2.1]

theorem Wired.leafPte_link (he : PTE2PA e = a) (hy : (role y).level = some k) :
    leafPte (setEntry m b i e) k y va = leafPte m k y va := by
  have hab : b ≠ a := by
    intro hba
    rw [hba, Role.level_of_loose ha] at hb
    simp at hb
  induction k generalizing y with
  | zero =>
    have hyb : y ≠ b := by
      intro hyb
      simp [hyb, hb] at hy
    simp only [leafPte_zero, setEntry_of_ne hyb]
  | succ k ih =>
    rw [leafPte_succ, leafPte_succ, setEntry_apply]
    by_cases hyi : y = b ∧ PX (k + 1) va = i
    · obtain ⟨rfl, rfl⟩ := hyi
      have hnew : leafPte (setEntry m y (PX (k + 1) va) e) k a va = none := by
        apply leafPte_of_empty
        rw [setEntry_of_ne hab.symm]
        exact hempty
      simp only [and_self, if_true, he, hnew, ite_self, if_neg hfree]
    · rw [if_neg hyi]
      split_ifs with hv
      · apply ih
        rw [(hw.down y _ k hy hv).1, Role.level_table]
      · rfl

end

end Link

section Entry

variable {a b l : Nat} {i : Fin 512} {w : Pte}

section

variable (hw : Wired m role)
include hw

theorem Wired.lookup_store (hb : (role b).level = some 0)
    (hm : ∀ c, (role c).level ≠ none → m' c = setEntry m b i w c) (hy : (role y).level = some l) :
    lookup m' va l y = lookup m va l y := by
  induction l generalizing y with
  | zero => rfl
  | succ l ih =>
    have hyb : y ≠ b := by
      intro hyb
      simp [hyb, hb] at hy
    simp only [lookup, hm y (by simp [hy]), setEntry_of_ne hyb]
    split_ifs with hv
    · apply ih
      rw [(hw.down y _ l hy hv).1, Role.level_table]
    · rfl

theorem Wired.setLeaf (hb : (role b).level = some 0)
    (hback : ∀ x, role x = .leaf b i → hasFlag w PTE_V ∧ PTE2PA w = x) : Wired (setEntry m b i w) role where
  down := by
    intro c j l hc hv
    have hcb : c ≠ b := by
      intro hcb
      simp [hcb, hb] at hc
    rw [setEntry_of_ne hcb] at hv ⊢
    exact hw.down c j l hc hv
  up := by
    intro x l c j hx
    have h := hw.up x l c j hx
    have hcb : c ≠ b := by
      intro hcb
      simp [hcb, hb] at h
    rwa [setEntry_of_ne hcb]
  back := by
    intro x c j hx
    have h := hw.back x c j hx
    rw [setEntry_apply]
    split_ifs with hcj
    · exact ⟨h.1, hback x (hcj.1 ▸ hcj.2 ▸ hx)⟩
    · exact h

theorem Wired.setForeign (hb : (role b).level = some 0) (hnone : ∀ x, role x ≠ .leaf b i) :
    Wired (setEntry m b i w) role :=
  hw.setLeaf hb fun x hx => absurd hx (hnone x)

theorem Wired.leaf_unique (ha : role a = .leaf b i) (hx : role x = .leaf b i) : x = a :=
  (hw.back x b i hx).2.2.symm.trans (hw.back a b i ha).2.2

theorem Wired.map (ha : (role a).loose = true) (hb : (role b).level = some 0) (hfree : ¬hasFlag (m b i) PTE_V)
    (hv : hasFlag w PTE_V) (hpa : PTE2PA w = a) :
    Wired (setEntry m b i w) (update role a (.leaf b i)) := by
  have hw' : Wired (setEntry m b i w) role := hw.setForeign hb fun x hx => hfree (hw.back x b i hx).2.1
  refine hw'.setRole (Role.level_of_loose ha) rfl fun c j heq => ?_
  obtain ⟨rfl, rfl⟩ := Role.leaf.inj heq
  rw [setEntry_apply, if_pos ⟨rfl, rfl⟩]
  exact ⟨hb, hv, hpa⟩

theorem Wired.setFlags (hb : (role b).level = some 0) (hv : hasFlag w PTE_V) (hpa : PTE2PA w = PTE2PA (m b i)) :
    Wired (setEntry m b i w) role :=
  hw.setLeaf hb fun x hx => ⟨hv, hpa.trans (hw.back x b i hx).2.2⟩

end

end Entry

section Detach

variable {b l : Nat}

-- freewalk() takes a page table apart: the page itself is in its hands, and the
-- page tables one level down are on their own.
def detach (role : Nat → Role) (b : Nat) : Nat → Role := fun x =>
  if x = b then .held
  else match role x with
    | .table k c j => if c = b then .top k else .table k c j
    | ρ => ρ

theorem detach_self : detach role b b = .held := by
  simp [detach]

theorem detach_child (hx : x ≠ b) (h : role x = .table k b j) : detach role b x = .top k := by
  simp [detach, hx, h]

theorem detach_of_ne (hx : x ≠ b) (h : ∀ k j, role x ≠ .table k b j) : detach role b x = role x := by
  unfold detach
  rw [if_neg hx]
  cases hr : role x with
  | table k c j =>
    have hcb : c ≠ b := by
      intro hcb
      exact h k j (hcb ▸ hr)
    simp [hcb]
  | free | held | top _ | leaf _ _ | frame | shared | other => rfl

theorem level_detach (hx : x ≠ b) : (detach role b x).level = (role x).level := by
  unfold detach
  rw [if_neg hx]
  cases hr : role x with
  | table k c j => by_cases hcb : c = b <;> simp [hcb]
  | free | held | top _ | leaf _ _ | frame | shared | other => rfl

theorem ne_of_level_detach (h : (detach role b x).level = some k) : x ≠ b := by
  intro hx
  rw [hx, detach_self] at h
  simp [Role.level] at h

theorem Wired.detached (hw : Wired m role) (hb : role b = .top l)
    (hleaf : ∀ x i, role x ≠ .leaf b i) : Wired m (detach role b) where
  down := by
    intro c j k hc hv
    have hcb := ne_of_level_detach hc
    rw [level_detach hcb] at hc
    have h := hw.down c j k hc hv
    have hne : PTE2PA (m c j) ≠ b := by
      intro heq
      rw [heq, hb] at h
      simp at h
    rw [detach_of_ne hne]
    · exact h
    · intro k' j' h'
      rw [h.1] at h'
      simp only [Role.table.injEq] at h'
      exact hcb h'.2.1
  up := by
    intro x k c j hx
    have hxb : x ≠ b := by
      intro hxb
      rw [hxb, detach_self] at hx
      simp at hx
    have hold : role x = .table k c j ∧ c ≠ b := by
      unfold detach at hx
      rw [if_neg hxb] at hx
      cases hr : role x with
      | table k' c' j' =>
        rw [hr] at hx
        by_cases hcb : c' = b
        · simp [hcb] at hx
        · simp only [hcb, if_false] at hx
          simp only [Role.table.injEq] at hx
          rw [hx.1, hx.2.1, hx.2.2]
          exact ⟨rfl, hx.2.1 ▸ hcb⟩
      | free | held | top _ | leaf _ _ | frame | shared | other => simp [hr] at hx
    rw [level_detach hold.2]
    exact hw.up x k c j hold.1
  back := by
    intro x c j hx
    have hxb : x ≠ b := by
      intro hxb
      rw [hxb, detach_self] at hx
      simp at hx
    have hold : role x = .leaf c j := by
      unfold detach at hx
      rw [if_neg hxb] at hx
      cases hr : role x with
      | table k' c' j' =>
        rw [hr] at hx
        by_cases hcb : c' = b <;> simp [hcb] at hx
      | free | held | top _ | leaf _ _ | frame | shared | other =>
        rw [hr] at hx
        exact hx
    have hcb : c ≠ b := by
      intro hcb
      exact hleaf x j (hcb ▸ hold)
    rw [level_detach hcb]
    exact hw.back x c j hold

theorem exists_px (l : Nat) (hl : l < 2) (i : Fin 512) (va : Nat) :
    ∃ va', PX (l + 1) va' = i ∧ ∀ j, j ≤ l → PX j va' = PX j va := by
  have hi := i.isLt
  have hcases : l = 0 ∨ l = 1 := by omega
  rcases hcases with hl0 | hl1
  · subst hl0
    refine ⟨va % 0x200000 + i * 0x200000, Fin.ext ?_, fun j hj => Fin.ext ?_⟩
    · rw [PX_one]
      omega
    · have hj0 : j = 0 := by omega
      rw [hj0, PX_zero, PX_zero]
      omega
  · subst hl1
    refine ⟨va % 0x40000000 + i * 0x40000000, Fin.ext ?_, fun j hj => Fin.ext ?_⟩
    · rw [PX_two]
      omega
    · have hj01 : j = 0 ∨ j = 1 := by omega
      rcases hj01 with hj0 | hj1
      · rw [hj0, PX_zero, PX_zero]
        omega
      · rw [hj1, PX_one, PX_one]
        omega

theorem exists_leafPte_child (hl : l < 2) (hv : hasFlag (m b i) PTE_V) (va : Nat) :
    ∃ va', leafPte m (l + 1) b va' = leafPte m l (PTE2PA (m b i)) va := by
  obtain ⟨va', hi, hpx⟩ := exists_px l hl i va
  refine ⟨va', ?_⟩
  rw [leafPte_succ, hi, if_pos hv]
  exact leafPte_congr_px hpx

end Detach

end Xv6
