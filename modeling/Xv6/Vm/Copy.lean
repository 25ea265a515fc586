import Xv6.Vm.Alloc

namespace Xv6

open Lib

variable {L : Layout} {s t u : Phys} {m : Mem} {D : Nat → Prop} {role role' ρ : Nat → Role} {old new sz i : Nat}

-- A source of uvmcopy(): whatever is done to the page table new keeps K, and under K
-- old maps what it maps in m and the pages in D are in use and as they are in m.
structure Source (m : Mem) (D : Nat → Prop) (old new : Nat) (K : Mem → (Nat → Role) → Prop) : Prop where
  pte : ∀ {m' ρ}, K m' ρ → ∀ va, leafPte m' 2 old va = leafPte m 2 old va
  data : ∀ {m' ρ}, K m' ρ → ∀ a, D a → ρ a ≠ .free ∧ m' a = m a
  edit : ∀ {m' ρ m'' ρ'}, K m' ρ → ρ new = .top 2 → old ≠ new → Frame (· = new) m' ρ m'' ρ' → K m'' ρ'

-- The user pages of a page table.
def userPages (m : Mem) (role : Nat → Role) (r a : Nat) : Prop :=
  ∃ va e, UserLeaf m role 2 r va ∧ leafPte m 2 r va = some e ∧ PTE2PA e = a

theorem source_top (m : Mem) (role : Nat → Role) (old new : Nat) : Source m (userPages m role old) old new
    fun m' ρ => ρ old = .top 2 ∧ ∀ va, Same m role m' ρ 2 old va where
  pte h va := (h.2 va).pte
  data := by
    rintro m' ρ ⟨-, h⟩ a ⟨va, e, hu, he, rfl⟩
    refine ⟨?_, (h va).data hu e he⟩
    obtain ⟨c, i, -, hrole⟩ := ((h va).user hu).owner ((h va).pte.trans he)
    simp [hrole]
  edit h _ hne hf := ⟨hf.top hne h.1, fun va => (h.2 va).trans (hf.same old 2 va hne h.1)⟩

-- What uvmcopy() leaves at va: nothing new where the old page table has nothing,
-- and otherwise a user page with the old page's flags and contents.
structure CopiedAt (m : Mem) (D : Nat → Prop) (s : Phys) (role : Nat → Role) (t : Phys) (role' : Nat → Role)
    (old new va : Nat) : Prop where
  skip : leafPte m 2 old va = none → Same s.mem role t.mem role' 2 new va
  copy : ∀ e, leafPte m 2 old va = some e → ∃ pa,
    leafPte t.mem 2 new va = some (PA2PTE pa ||| PTE_FLAGS e ||| PTE_V) ∧ UserLeaf t.mem role' 2 new va ∧
    (D (PTE2PA e) → t.mem (PTE2PA (PA2PTE pa ||| PTE_FLAGS e ||| PTE_V)) = m (PTE2PA e))

theorem CopiedAt.later (h : CopiedAt m D s role u ρ old new va)
    (hsame : Same u.mem ρ t.mem role' 2 new va) : CopiedAt m D s role t role' old new va where
  skip := fun hnone => (h.skip hnone).trans hsame
  copy := by
    intro e he
    obtain ⟨pa, hpte, huser, hdata⟩ := h.copy e he
    refine ⟨pa, hsame.pte.trans hpte, hsame.user huser, fun hu => ?_⟩
    rw [hsame.data huser _ hpte, hdata hu]

theorem CopiedAt.earlier (h : CopiedAt m D u ρ t role' old new va)
    (hnew : Same s.mem role u.mem ρ 2 new va) : CopiedAt m D s role t role' old new va :=
  ⟨fun hnone => hnew.trans (h.skip hnone), h.copy⟩

-- How the loop of uvmcopy() can end: with a panic at page i', as it is out of
-- range or mapped in both page tables; out of memory at page i'; or with all copied.
inductive Copies (L : Layout) (m : Mem) (D : Nat → Prop) (s : Phys) (role : Nat → Role) (old new sz i : Nat) :
    Except Panic (Option Nat × Phys) → Prop
  | stuck {e : Panic} (i' : Nat) (panic : e = .walk ∨ e = .mappagesRemap) (ahead : Ahead i sz i')
      (why : MAXVA ≤ i' ∨ leafPte m 2 old i' ≠ none ∧ leafPte s.mem 2 new i' ≠ none) :
      Copies L m D s role old new sz i (.error e)
  | full {t : Phys} {role' : Nat → Role} (i' : Nat) (ahead : Ahead i sz i')
      (aligned : i' % PGSIZE = 0) (below : i' < MAXVA)
      (edit : Edit L s role t role' new fun va => i ≤ va ∧ va < i')
      (was : ∀ va, i ≤ va → va < i' → leafPte m 2 old va ≠ none → leafPte s.mem 2 new va = none)
      (copied : ∀ va, i ≤ va → va < i' → CopiedAt m D s role t role' old new va) :
      Copies L m D s role old new sz i (.ok (some i', t))
  | done {t : Phys} {role' : Nat → Role} (edit : Edit L s role t role' new (Ahead i sz))
      (was : ∀ va, Ahead i sz va →
        va < MAXVA ∧ (leafPte m 2 old va ≠ none → leafPte s.mem 2 new va = none))
      (copied : ∀ va, Ahead i sz va → CopiedAt m D s role t role' old new va) :
      Copies L m D s role old new sz i (.ok (none, t))

theorem Copies.next (hal : i % PGSIZE = 0) (hlt : i < sz) (hmax : i < MAXVA)
    (hedit : Edit L s role u ρ new fun va => va / PGSIZE = i / PGSIZE)
    (hwas : leafPte m 2 old i ≠ none → leafPte s.mem 2 new i = none)
    (hcopied : ∀ va, va < 2 ^ 39 → va / PGSIZE = i / PGSIZE → CopiedAt m D s role u ρ old new va)
    (h : Copies L m D u ρ old new sz (i + PGSIZE) res) : Copies L m D s role old new sz i res := by
  have hpage : ∀ va, va / PGSIZE = i / PGSIZE → va < MAXVA := by
    intro va hva
    rw [page_iff hal] at hva
    simp only [PGSIZE_eq, MAXVA_eq] at *
    omega
  have hwas' : ∀ va, va / PGSIZE = i / PGSIZE → leafPte m 2 old va ≠ none →
      leafPte s.mem 2 new va = none := by
    intro va hva
    have h39 := lt_39_of_lt_MAXVA (hpage va hva)
    rw [leafPte_congr_page (lt_39_of_lt_MAXVA hmax) h39 hva,
      leafPte_congr_page (lt_39_of_lt_MAXVA hmax) h39 hva]
    exact hwas
  cases h with
  | stuck i' panic ahead why =>
    refine .stuck i' panic ((ahead_iff hal hlt).mpr (.inr ahead)) ?_
    by_cases hi' : MAXVA ≤ i'
    · exact .inl hi'
    · have hfar : ¬i' / PGSIZE = i / PGSIZE := by
        rw [page_iff hal]
        have := ahead.1
        omega
      obtain ⟨h1, h2⟩ := why.resolve_left hi'
      rw [(hedit.same i' (lt_39_of_lt_MAXVA (by omega)) hfar).pte] at h2
      exact .inr ⟨h1, h2⟩
  | @full t role' i' ahead aligned below edit was copied =>
    have hge := ahead.1
    have hcases : ∀ va, i ≤ va → va < i' → va / PGSIZE = i / PGSIZE ∨ i + PGSIZE ≤ va := by
      intro va h1 h2
      rw [page_iff hal]
      omega
    have hnear : ∀ va, i + PGSIZE ≤ va → ¬va / PGSIZE = i / PGSIZE := by
      intro va h1
      rw [page_iff hal]
      omega
    refine .full i' ((ahead_iff hal hlt).mpr (.inr ahead)) aligned below
      ((hedit.mono fun va hva => ?_).trans (edit.mono fun va hva => ?_)) ?_ ?_
    · rw [page_iff hal] at hva
      omega
    · omega
    · intro va h1 h2
      rcases hcases va h1 h2 with hva | hva
      · exact hwas' va hva
      · have h39 := lt_39_of_lt_MAXVA (show va < MAXVA by omega)
        rw [← (hedit.same va h39 (hnear va hva)).pte]
        exact was va hva h2
    · intro va h1 h2
      have h39 := lt_39_of_lt_MAXVA (show va < MAXVA by omega)
      rcases hcases va h1 h2 with hva | hva
      · refine (hcopied va h39 hva).later (edit.same va h39 ?_)
        rw [page_iff hal] at hva
        omega
      · exact (copied va hva h2).earlier (hedit.same va h39 (hnear va hva))
  | @done t role' edit was copied =>
    have hnear : ∀ va, Ahead (i + PGSIZE) sz va → ¬va / PGSIZE = i / PGSIZE := by
      intro va hva
      rw [page_iff hal]
      have := hva.1
      omega
    refine .done ((hedit.mono fun va hva => (ahead_iff hal hlt).mpr (.inl hva)).trans
      (edit.mono fun va hva => (ahead_iff hal hlt).mpr (.inr hva))) ?_ ?_
    · intro va hva
      rcases (ahead_iff hal hlt).mp hva with hva | hva
      · exact ⟨hpage va hva, hwas' va hva⟩
      · obtain ⟨h1, h2⟩ := was va hva
        have h39 := lt_39_of_lt_MAXVA h1
        rw [(hedit.same va h39 (hnear va hva)).pte] at h2
        exact ⟨h1, h2⟩
    · intro va hva
      rcases (ahead_iff hal hlt).mp hva with hva | hva
      · have h39 := lt_39_of_lt_MAXVA (hpage va hva)
        refine (hcopied va h39 hva).later (edit.same va h39 ?_)
        intro hahead
        exact hnear va hahead hva
      · have h39 := lt_39_of_lt_MAXVA (was va hva).1
        exact (copied va hva).earlier (hedit.same va h39 (hnear va hva))

theorem uvmcopyLoop_skip (hlt : i < sz) (hmax : i < MAXVA) (hnone : leafPte s.mem 2 old i = none)
    (n : Nat) : uvmcopyLoop L old new sz (n + 1) i s =
      uvmcopyLoop L old new sz n (wrap64 (i + PGSIZE)) s := by
  rw [uvmcopyLoop, if_pos hlt, walk_false hmax, ok_bind]
  cases hl : lookup s.mem i 2 old with
  | none => rfl
  | some loc =>
    obtain ⟨b, k⟩ := loc
    have hv : ¬hasFlag (s.mem b k) PTE_V := by
      intro hv
      simp [leafPte_of_lookup hl hv] at hnone
    simp only [hv, not_false_eq_true, if_true]

theorem uvmcopyLoop_copy (hlt : i < sz) (hmax : i < MAXVA) (hpte : leafPte s.mem 2 old i = some e)
    (n : Nat) : uvmcopyLoop L old new sz (n + 1) i s = (do
      let (mem, s) ← kalloc s
      if mem = 0 then return (some i, s) else do
        let (r, s) ← mappages new i PGSIZE mem (PTE_FLAGS e) (s.copyPage mem (PTE2PA e))
        if r ≠ 0 then do
          let s ← kfree L mem s
          return (some i, s)
        else uvmcopyLoop L old new sz n (wrap64 (i + PGSIZE)) s) := by
  obtain ⟨b, k, hl, hv, he⟩ := leafPte_eq_some.mp hpte
  rw [he] at hv
  simp only [uvmcopyLoop, if_pos hlt, walk_false hmax, ok_bind, hl, he, hv, not_true_eq_false, if_false]

-- uvmcopy() between page tables that have a trapframe mapped, as all have.
inductive Copied (L : Layout) (m : Mem) (D : Nat → Prop) (s : Phys) (role : Nat → Role) (old new sz : Nat) :
    Except Panic (Int × Phys) → Prop
  | stuck {e : Panic} (panic : e = .walk ∨ e = .mappagesRemap)
      (why : TRAPFRAME < sz ∨ ∃ va, va < TRAPFRAME ∧ leafPte s.mem 2 new va ≠ none) :
      Copied L m D s role old new sz (.error e)
  | full {t : Phys} {role' : Nat → Role} (i : Nat) (below : i ≤ TRAPFRAME)
      (edit : Edit L s role t role' new (· < i)) (none : ∀ va, va < i → leafPte t.mem 2 new va = none) :
      Copied L m D s role old new sz (.ok (-1, t))
  | done {t : Phys} {role' : Nat → Role} (below : sz ≤ TRAPFRAME)
      (edit : Edit L s role t role' new (Ahead 0 sz))
      (was : ∀ va, Ahead 0 sz va → leafPte m 2 old va ≠ none → leafPte s.mem 2 new va = none)
      (copied : ∀ va, Ahead 0 sz va → CopiedAt m D s role t role' old new va) :
      Copied L m D s role old new sz (.ok (0, t))

section

variable {K : Mem → (Nat → Role) → Prop} (hsrc : Source m D old new K) (h : Vm L s role) (hK : K s.mem role)
  (hnew : role new = .top 2)
include hsrc h hK hnew

theorem Vm.uvmcopyLoop_spec (sz : Nat) (hal : i % PGSIZE = 0) (hn : sz ≤ i + n * PGSIZE) :
    Copies L m D s role old new sz i (uvmcopyLoop L old new sz n i s) := by
  induction n generalizing i s role with
  | zero =>
    have hnot := not_ahead hal (show sz ≤ i by omega)
    exact .done (.refl h hnew _) (fun va hva => absurd hva (hnot va))
      fun va hva => absurd hva (hnot va)
  | succ n ih =>
    by_cases hlt : i < sz
    swap
    · have hnot := not_ahead hal (show sz ≤ i by omega)
      rw [uvmcopyLoop, if_neg hlt]
      exact .done (.refl h hnew _) (fun va hva => absurd hva (hnot va))
        fun va hva => absurd hva (hnot va)
    have hahead : Ahead i sz i := (ahead_iff hal hlt).mpr (.inl rfl)
    by_cases hhigh : MAXVA ≤ i
    · rw [uvmcopyLoop, if_pos hlt, walk, if_pos hhigh, error_bind]
      exact .stuck i (.inl rfl) hahead (.inl hhigh)
    have hmax : i < MAXVA := by omega
    have hi39 := lt_39_of_lt_MAXVA hmax
    have hwrap : wrap64 (i + PGSIZE) = i + PGSIZE := by
      apply wrap64_eq_of_lt
      simp only [MAXVA_eq, PGSIZE_eq] at *
      omega
    have hal' : (i + PGSIZE) % PGSIZE = 0 := by rw [Nat.add_mod_right, hal]
    have hn' : sz ≤ i + PGSIZE + n * PGSIZE := by
      rw [Nat.succ_mul] at hn
      omega
    have hpte := hsrc.pte hK i
    cases hpte' : leafPte m 2 old i with
    | none =>
      rw [hpte'] at hpte
      have hrest := ih h hK hnew hal' hn'
      rw [uvmcopyLoop_skip hlt hmax hpte, hwrap]
      refine hrest.next hal hlt hmax (.refl h hnew _) (by simp [hpte']) ?_
      intro va h39 hva
      have hnone : leafPte m 2 old va = none := by
        rw [leafPte_congr_page hi39 h39 hva, hpte']
      exact ⟨fun _ => .refl .., by simp [hnone]⟩
    | some e =>
      rw [hpte'] at hpte
      have hfull : ∀ t role', Edit L s role t role' new (fun _ => False) →
          Copies L m D s role old new sz i (.ok (some i, t)) := fun t role' hedit =>
        .full i hahead hal hmax (hedit.mono fun _ hx => hx.elim) (by omega) (by omega)
      rw [uvmcopyLoop_copy hlt hmax hpte, hwrap]
      rcases h.kalloc_spec with ⟨hk, -⟩ | ⟨pg, u, hk, hpg0, -⟩
      · simp only [hk, ok_bind, if_true, pure_eq_ok]
        exact hfull s role (.refl h hnew _)
      have hfill := fills_copyPage u pg (PTE2PA e)
      by_cases hmapped : leafPte s.mem 2 new i = none
      swap
      · have hm := h.allocPage_remap hk hpg0 hfill hnew hmax hal hmapped (PTE_FLAGS e)
        simp only [hk, ok_bind, if_neg hpg0, hm, error_bind]
        exact .stuck i (.inr rfl) hahead (.inr ⟨by simp [hpte'], hmapped⟩)
      rcases h.allocPage hk hpg0 hfill hnew hmax hal hmapped (isFlags_PTE_FLAGS e) with
        ⟨t, w, role', hm, hkf, hedit⟩ | ⟨t, role', hm, hmem, hedit, hleaf, hnewpte⟩
      · simp only [hk, ok_bind, if_neg hpg0, hm, hkf, pure_eq_ok]
        exact hfull w role' hedit
      have hne : old ≠ new := by
        intro hne
        simp [← hne, hpte] at hmapped
      have hrest := ih hedit.vm (hsrc.edit hK hnew hne hedit.frame) hedit.top hal' hn'
      simp only [hk, ok_bind, if_neg hpg0, hm]
      refine hrest.next hal hlt hmax hedit (fun _ => hmapped) ?_
      intro va h39 hva
      have hva' : leafPte m 2 old va = some e := by
        rw [leafPte_congr_page hi39 h39 hva, hpte']
      refine ⟨by simp [hva'], fun e' he' => ?_⟩
      obtain rfl : e = e' := by rwa [hva', Option.some.injEq] at he'
      refine ⟨pg, hnewpte va h39 hva, userLeaf_congr_page hi39 h39 hva hleaf, fun hD => ?_⟩
      obtain ⟨hpgfree, hp, -, hmu, -⟩ := h.kalloc_fill hk hpg0 (v := u) ⟨rfl, rfl, fun _ _ => rfl⟩
      obtain ⟨hused, hdata⟩ := hsrc.data hK _ hD
      have hsrcpg : PTE2PA e ≠ pg := by
        rintro rfl
        exact hused hpgfree
      rw [PTE2PA_leaf hp.lt_pow hp.1 (isFlags_PTE_FLAGS e), hmem, ← hdata, ← hmu _ hsrcpg]
      simp [Phys.copyPage]

theorem Vm.uvmcopy_spec (sz : Nat) (hframe : leafPte m 2 old TRAPFRAME ≠ none) (hframe' : leafPte s.mem 2 new TRAPFRAME ≠ none)
    (huser : ∀ va, va < TRAPFRAME → leafPte s.mem 2 new va = none ∨ UserLeaf s.mem role 2 new va) :
    Copied L m D s role old new sz (uvmcopy L old new sz s) := by
  have hloop := Vm.uvmcopyLoop_spec hsrc h hK hnew (i := 0) (n := (sz + (PGSIZE - 1)) / PGSIZE) sz
    (Nat.zero_mod _) (by simp only [PGSIZE_eq]; omega)
  rw [uvmcopy]
  generalize uvmcopyLoop L old new sz ((sz + (PGSIZE - 1)) / PGSIZE) 0 s = res at hloop
  cases hloop with
  | stuck i' panic ahead why =>
    rw [error_bind]
    refine .stuck panic ?_
    by_cases hsz : TRAPFRAME < sz
    · exact .inl hsz
    · have hi' : i' < TRAPFRAME := by
        have hd := pgrounddown_bounds i'
        have hlt := ahead.2
        simp only [TRAPFRAME_eq, PGSIZE_eq] at *
        omega
      have hnot : ¬MAXVA ≤ i' := by
        simp only [TRAPFRAME_eq, MAXVA_eq] at *
        omega
      exact .inr ⟨i', hi', (why.resolve_left hnot).2⟩
  | @full t role' i' ahead aligned below edit was copied =>
    have hle : i' ≤ TRAPFRAME := by
      by_contra hgt
      exact hframe' (was TRAPFRAME (Nat.zero_le _) (by omega) hframe)
    have hend : 0 + i' / PGSIZE * PGSIZE = i' := by
      simp only [PGSIZE_eq] at *
      omega
    have hrange : ∀ va, Range 0 (i' / PGSIZE) va ↔ va < i' := by
      intro va
      rw [Range, hend]
      omega
    obtain ⟨w, ρ, hok, hedit, hnone⟩ := edit.vm.uvmunmap_spec (n := i' / PGSIZE) edit.top
      (Nat.zero_mod PGSIZE) (by omega) (by
        intro va hva
        rw [hrange] at hva
        have hcopied := copied va (Nat.zero_le _) hva
        cases hpte : leafPte m 2 old va with
        | none =>
          have hsame := hcopied.skip hpte
          rcases huser va (by omega) with hn | hu
          · exact .inl (hsame.pte.trans hn)
          · exact .inr (hsame.user hu)
        | some e =>
          obtain ⟨pa, -, hu, -⟩ := hcopied.copy e hpte
          exact .inr hu)
    simp only [ok_bind, hok, pure_eq_ok]
    refine .full i' hle ((edit.mono fun va hva => hva.2).trans
      (hedit.mono fun va hva => (hrange va).mp hva)) ?_
    intro va hva
    exact hnone va (lt_39_of_lt_MAXVA (by omega)) ((hrange va).mpr hva)
  | @done t role' edit was copied =>
    simp only [ok_bind, pure_eq_ok]
    refine .done ?_ edit (fun va hva => (was va hva).2) copied
    by_contra hgt
    have hahead : Ahead 0 sz TRAPFRAME := by
      have hd := pgrounddown_bounds TRAPFRAME
      exact ⟨Nat.zero_le _, by omega⟩
    exact hframe' ((was TRAPFRAME hahead).2 hframe)

end

end Xv6
