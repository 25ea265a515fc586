import Xv6.Kalloc

namespace Xv6

open Lib Function

def IsPage (L : Layout) (a : Nat) : Prop := a % PGSIZE = 0 ∧ L.kend ≤ a ∧ a < PHYSTOP

instance (L : Layout) (a : Nat) : Decidable (IsPage L a) := inferInstanceAs (Decidable (_ ∧ _ ∧ _))

-- `free` is the list threaded through the free pages, `refs a` the number of
-- references that the users of the allocator hold on page `a`.
structure AllocInv (L : Layout) (s : Phys) (free : List Nat) (refs : Nat → Int) : Prop where
  chain : Chain s.next 0 s.freelist free
  nodup : free.Nodup
  page : ∀ a ∈ free, IsPage L a
  count : ∀ a, IsPage L a → s.refcount (a / PGSIZE) = refs a
  mem_free : ∀ a, IsPage L a → (a ∈ free ↔ refs a = 0)
  nonneg : ∀ a, IsPage L a → 0 ≤ refs a
  bound : ∀ a, IsPage L a → refs a < 0x80000000

variable {L : Layout} {s : Phys} {free : List Nat} {refs : Nat → Int}

theorem IsPage.pos (h : IsPage L a) : 0 < a := by
  have hb := L.base_le
  have := L.below
  have := h.2.1
  simp only [KERNBASE] at hb
  omega

theorem IsPage.index_inj (ha : IsPage L a) (hb : IsPage L b) : a / PGSIZE = b / PGSIZE ↔ a = b := by
  have h1 := ha.1
  have h2 := hb.1
  simp only [PGSIZE_eq] at *
  omega

theorem pa2pageindex_page (h : IsPage L a) : pa2pageindex a = .ok (a / PGSIZE) := by
  have hu := h.2.2
  simp only [PHYSTOP_eq] at hu
  have hw : wrap32 ((a : Int) / PGSIZE) = (a / PGSIZE : Nat) := by
    rw [wrap32_eq] <;> simp only [PGSIZE_eq] <;> omega
  unfold pa2pageindex
  rw [if_neg]
  · rw [hw, Int.toNat_natCast]
  · rw [hw]
    simp only [PGSIZE_eq, MAXPAGES_eq]
    omega

theorem AllocInv.frame (h : AllocInv L s free refs) (hf : t.freelist = s.freelist)
    (hr : t.refcount = s.refcount) (hm : ∀ a ∈ free, t.mem a = s.mem a) : AllocInv L t free refs := by
  refine ⟨?_, h.nodup, h.page, ?_, h.mem_free, h.nonneg, h.bound⟩
  · rw [hf]
    apply h.chain.congr
    intro a ha
    simp only [Phys.next, hm a ha]
  · rw [hr]
    exact h.count

theorem AllocInv.congrRefs (h : AllocInv L s free refs)
    (heq : ∀ a, IsPage L a → refs' a = refs a) : AllocInv L s free refs' := by
  refine ⟨h.chain, h.nodup, h.page, ?_, ?_, ?_, ?_⟩ <;> intro a ha <;> rw [heq a ha]
  · exact h.count a ha
  · exact h.mem_free a ha
  · exact h.nonneg a ha
  · exact h.bound a ha

theorem count_update (hc : ∀ a, IsPage L a → s.refcount (a / PGSIZE) = refs a) (hp : IsPage L a)
    (n : Int) : ∀ b, IsPage L b →
      update s.refcount (a / PGSIZE) n (b / PGSIZE) = update refs a n b := by
  intro b hb
  by_cases hab : b = a
  · subst hab
    simp
  · rw [update_of_ne hab, update_of_ne (fun he => hab ((hb.index_inj hp).mp he))]
    exact hc b hb

theorem incref_of_index (hi : pa2pageindex a = .ok idx) :
    incref a s = .ok { s with
      refcount := update s.refcount idx (wrap32 (s.refcount idx + 1)) } := by
  unfold incref
  rw [hi]
  rfl

theorem decref_of_index (hi : pa2pageindex a = .ok idx) (hn : 0 ≤ s.refcount idx) :
    decref a s = .ok { s with
      refcount := update s.refcount idx (wrap32 (s.refcount idx - 1)) } := by
  unfold decref
  rw [hi, ok_bind, if_neg (by omega)]
  rfl

theorem getref_of_index (hi : pa2pageindex a = .ok idx) : getref a s = .ok (s.refcount idx) := by
  unfold getref
  rw [hi]
  rfl

section

variable (h : AllocInv L s free refs) (hp : IsPage L a)
include h hp

theorem AllocInv.setRefs (hr : 0 < refs a) (hn : 0 < n) (hb : n < 0x80000000)
    (hf : t.freelist = s.freelist) (hm : t.mem = s.mem) (hc : t.refcount = update s.refcount (a / PGSIZE) n) :
    AllocInv L t free (update refs a n) := by
  have hchain : Chain t.next 0 t.freelist free := by
    have hnext : t.next = s.next := by
      funext b
      simp only [Phys.next, hm]
    rw [hf, hnext]
    exact h.chain
  refine ⟨hchain, h.nodup, h.page, hc ▸ count_update h.count hp n, ?_, ?_, ?_⟩ <;> intro b hpb <;>
    by_cases hba : b = a
  · subst hba
    rw [update_self, h.mem_free b hp]
    omega
  · rw [update_of_ne hba]
    exact h.mem_free b hpb
  · subst hba
    rw [update_self]
    omega
  · rw [update_of_ne hba]
    exact h.nonneg b hpb
  · subst hba
    rwa [update_self]
  · rw [update_of_ne hba]
    exact h.bound b hpb

theorem incref_spec (hr : 0 < refs a) (hb : refs a + 1 < 0x80000000) :
    ∃ t, incref a s = .ok t ∧ AllocInv L t free (update refs a (refs a + 1)) ∧
      t.mem = s.mem := by
  have hw : wrap32 (s.refcount (a / PGSIZE) + 1) = refs a + 1 := by
    rw [h.count a hp, wrap32_eq] <;> omega
  refine ⟨_, incref_of_index (pa2pageindex_page hp), ?_, rfl⟩
  rw [hw]
  exact h.setRefs hp hr (by omega) hb rfl rfl rfl

theorem kfree_dropped (hr : 0 < refs a) :
    kfree L a s =
      if 1 < refs a then
        .ok { s with refcount := update s.refcount (a / PGSIZE) (refs a - 1) }
      else
        .ok (kmemPush a ({ s with
          refcount := update s.refcount (a / PGSIZE) (refs a - 1) }.memset a 1)) := by
  have hi := pa2pageindex_page hp
  have hb := h.bound a hp
  have hw : wrap32 (s.refcount (a / PGSIZE) - 1) = refs a - 1 := by
    rw [h.count a hp, wrap32_eq] <;> omega
  unfold kfree
  rw [if_neg (by obtain ⟨h1, h2, h3⟩ := hp; omega),
    decref_of_index hi (by rw [h.count a hp]; omega), ok_bind, getref_of_index hi, ok_bind, hw]
  simp only [update_self]
  split_ifs <;> first | rfl | omega

theorem kfree_shared (hr : 1 < refs a) :
    ∃ t, kfree L a s = .ok t ∧ AllocInv L t free (update refs a (refs a - 1)) ∧
      t.mem = s.mem := by
  have hb := h.bound a hp
  refine ⟨_, (kfree_dropped h hp (by omega)).trans (if_pos hr), ?_, rfl⟩
  exact h.setRefs hp (by omega) (by omega) (by omega) rfl rfl rfl

end

theorem chain_kmemPush (h : Chain s.next 0 s.freelist free) (hpage : ∀ a ∈ free, IsPage L a)
    (hp : IsPage L a) (hnot : a ∉ free) :
    Chain (kmemPush a s).next 0 (kmemPush a s).freelist (a :: free) := by
  have hlt : s.freelist < 2 ^ 64 := by
    cases free with
    | nil => rw [h]; decide
    | cons b rest =>
      have hb := (hpage b (by simp)).2.2
      rw [h.1]
      simp only [PHYSTOP_eq] at hb
      omega
  have hpush := h.push (Nat.ne_of_gt hp.pos) hnot
  apply hpush.congr
  intro b hb
  by_cases hba : b = a
  · subst hba
    simp only [Phys.next, kmemPush, Phys.store, update_self, BitVec.toNat_ofNat, Nat.mod_eq_of_lt hlt]
  · simp [Phys.next, kmemPush, Phys.store, hba]

theorem chain_memset (h : Chain s.next 0 s.freelist free) (hnot : a ∉ free) (c : Nat) :
    Chain (s.memset a c).next 0 (s.memset a c).freelist free := by
  apply h.congr
  intro b hb
  have hba : b ≠ a := by
    rintro rfl
    exact hnot hb
  simp [Phys.next, Phys.memset, hba]

theorem kfree_last (h : AllocInv L s free refs) (hp : IsPage L a) (hr : refs a = 1) :
    ∃ t, kfree L a s = .ok t ∧ AllocInv L t (a :: free) (update refs a 0) ∧
      ∀ b, b ≠ a → t.mem b = s.mem b := by
  have hnot : a ∉ free := by
    rw [h.mem_free a hp]
    omega
  refine ⟨_, (kfree_dropped h hp (by omega)).trans (if_neg (by omega)), ?_, ?_⟩
  · refine ⟨?_, List.nodup_cons.mpr ⟨hnot, h.nodup⟩, ?_, ?_, ?_, ?_, ?_⟩
    · exact chain_kmemPush (chain_memset h.chain hnot 1) h.page hp hnot
    · intro b hb
      rcases List.mem_cons.mp hb with rfl | hb
      · exact hp
      · exact h.page b hb
    · rw [hr]
      exact count_update h.count hp _
    all_goals
      intro b hpb
      by_cases hba : b = a
      · subst hba
        simp
      · simp only [update_of_ne hba, List.mem_cons, hba, false_or]
        first | exact h.mem_free b hpb | exact h.nonneg b hpb | exact h.bound b hpb
  · intro b hb
    simp [kmemPush, Phys.store, Phys.memset, hb]

theorem kalloc_empty (h : AllocInv L s [] refs) : kalloc s = .ok (0, s) := by
  have hf : s.freelist = 0 := h.chain
  simp [kalloc, kmemPop, hf]

theorem kalloc_freelist (h : kalloc s = .ok (a, t)) : a = s.freelist := by
  simp only [kalloc, kmemPop, pure_eq_ok] at h
  split at h
  next hzero =>
    simp only [Except.ok.injEq, Prod.mk.injEq] at h
    rw [← h.1, hzero]
  next =>
    obtain ⟨u, -, hu⟩ := bind_eq_ok.mp h
    simp only [Except.ok.injEq, Prod.mk.injEq] at hu
    exact hu.1.symm

theorem kalloc_cons (h : AllocInv L s (a :: rest) refs) :
    ∃ t, kalloc s = .ok (a, t) ∧ AllocInv L t rest (update refs a 1) ∧
      t.mem = update s.mem a fun _ => memsetWord 5 := by
  obtain ⟨hhead, hne, htail⟩ := h.chain
  have hp := h.page a (by simp)
  have hr : refs a = 0 := (h.mem_free a hp).mp (by simp)
  have hnot : a ∉ rest := (List.nodup_cons.mp h.nodup).1
  have hw : wrap32 (s.refcount (a / PGSIZE) + 1) = 1 := by
    rw [h.count a hp, hr]
    rfl
  let t : Phys :=
    { mem := update s.mem a fun _ => memsetWord 5
      freelist := s.next a
      refcount := update s.refcount (a / PGSIZE) 1 }
  refine ⟨t, ?_, ?_, rfl⟩
  · unfold kalloc kmemPop
    simp only [hhead, hne, if_false]
    rw [incref_of_index (pa2pageindex_page hp)]
    simp only [Phys.memset, hw, ok_bind, pure_eq_ok, t]
  · refine ⟨?_, (List.nodup_cons.mp h.nodup).2, fun b hb => h.page b (by simp [hb]), ?_, ?_, ?_, ?_⟩
    · apply htail.congr
      intro b hb
      have hba : b ≠ a := by
        rintro rfl
        exact hnot hb
      simp [Phys.next, t, hba]
    · exact count_update h.count hp 1
    all_goals
      intro b hpb
      by_cases hba : b = a
      · subst hba
        simp [hnot]
      · rw [update_of_ne hba]
        first
          | exact h.nonneg b hpb
          | exact h.bound b hpb
          | rw [← h.mem_free b hpb, List.mem_cons, or_iff_right hba]

-- The induction is on the number of pages that are left.
theorem freerange_spec (n p : Nat) (hn : PHYSTOP - p < n * PGSIZE) (hal : p % PGSIZE = 0)
    (hlow : L.kend ≤ p) (h : AllocInv L s free refs) (hone : ∀ a, IsPage L a → p ≤ a → refs a = 1) :
    ∃ t free', freerange L p PHYSTOP s = .ok t ∧
      AllocInv L t free' (fun a => if p ≤ a then 0 else refs a) := by
  induction n generalizing p s free refs with
  | zero => omega
  | succ n ih =>
    rw [freerange]
    by_cases hle : p + PGSIZE ≤ PHYSTOP
    · have hp : IsPage L p := ⟨hal, hlow, by simp only [PGSIZE_eq] at hle; omega⟩
      obtain ⟨t, ht, hinv, -⟩ := kfree_last h hp (hone p hp (Nat.le_refl p))
      have hone' : ∀ a, IsPage L a → p + PGSIZE ≤ a → update refs p 0 a = 1 := by
        intro a ha hpa
        have hne : a ≠ p := by simp only [PGSIZE_eq] at hpa; omega
        rw [update_of_ne hne]
        exact hone a ha (by omega)
      obtain ⟨u, free', hu, hinv'⟩ := ih (p + PGSIZE) (by simp only [PGSIZE_eq] at *; omega)
        (by simp only [PGSIZE_eq] at *; omega) (by omega) hinv hone'
      refine ⟨u, free', by rw [if_pos hle, ht, ok_bind, hu], hinv'.congrRefs ?_⟩
      intro a ha
      have hal' := ha.1
      by_cases hap : a = p
      · subst hap
        simp
      · have hiff : p + PGSIZE ≤ a ↔ p ≤ a := by simp only [PGSIZE_eq] at *; omega
        simp only [hiff, update_of_ne hap]
    · refine ⟨s, free, by rw [if_neg hle]; rfl, h.congrRefs ?_⟩
      intro a ha
      have hal' := ha.1
      have hlt := ha.2.2
      rw [if_neg]
      simp only [PGSIZE_eq, PHYSTOP_eq] at *
      omega

theorem pgroundup_kend (L : Layout) : L.kend ≤ PGROUNDUP L.kend ∧ PGROUNDUP L.kend % PGSIZE = 0 ∧
    ∀ a, IsPage L a → PGROUNDUP L.kend ≤ a := by
  have hend := L.inside
  simp only [PHYSTOP_eq] at hend
  have hw : PGROUNDUP L.kend = (L.kend + 4095) / 4096 * 4096 := by
    unfold PGROUNDUP
    rw [wrap64_eq_of_lt (by simp only [PGSIZE_eq]; omega)]
    rfl
  rw [hw]
  refine ⟨by omega, by simp only [PGSIZE_eq]; omega, ?_⟩
  rintro a ⟨h1, h2, -⟩
  simp only [PGSIZE_eq] at h1
  omega

theorem kinit_spec (L : Layout) (mem : Nat → Fin 512 → BitVec 64) :
    ∃ s free, kinit L mem = .ok s ∧ AllocInv L s free fun _ => 0 := by
  obtain ⟨hlow, hal, hfirst⟩ := pgroundup_kend L
  have hinit : AllocInv L
      { mem := mem, freelist := 0, refcount := fun i => if i < MAXPAGES then 1 else 0 } []
      fun _ => 1 := by
    refine ⟨rfl, List.nodup_nil, by simp, ?_, by simp, by simp, by simp⟩
    intro a ha
    have hlt := ha.2.2
    apply if_pos
    simp only [PGSIZE_eq, MAXPAGES_eq, PHYSTOP_eq] at *
    omega
  obtain ⟨s, free, hs, hinv⟩ := freerange_spec MAXPAGES.succ (PGROUNDUP L.kend)
    (by simp only [PHYSTOP_eq, MAXPAGES_eq, PGSIZE_eq]; omega) hal hlow hinit (fun _ _ _ => rfl)
  refine ⟨s, free, hs, hinv.congrRefs ?_⟩
  intro a ha
  rw [if_pos (hfirst a ha)]

end Xv6
