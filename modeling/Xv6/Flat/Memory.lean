import Xv6.Flat.Copy

namespace Xv6

open Lib

variable {L : Layout} {s t : Phys} {m m' m'' : Mem} {role role' : Nat → Role} {p : Self} {f : Flat} {r tf : Nat}

section View

-- The flat memory f is what the page table shows, as far as the size goes.
structure Mirrors (m : Mem) (p : Self) (f : Flat) : Prop where
  size : f.sz = p.sz
  rights : ∀ va, va < PGROUNDUP p.sz → SameRights (f.flags va) (viewFlags m p.pagetable va)
  byte : ∀ va, va < PGROUNDUP p.sz → f.byte va = viewByte m p.pagetable va

theorem Mirrors.alike (h : Mirrors m p f) (hsz : p'.sz = p.sz)
    (ha : ∀ va, va < PGROUNDUP p.sz → Alike m p.pagetable m' p'.pagetable va) : Mirrors m' p' f where
  size := h.size.trans hsz.symm
  rights := fun va hva => (h.rights va (hsz ▸ hva)).trans (ha va (hsz ▸ hva)).rights
  byte := fun va hva => (h.byte va (hsz ▸ hva)).trans (ha va (hsz ▸ hva)).byte.symm

theorem Mirrors.user_iff (h : Mirrors m p f) (va : Nat) :
    f.user va ↔ va < PGROUNDUP p.sz ∧ hasFlag (viewFlags m p.pagetable va) PTE_U := by
  rw [Flat.user, h.size]
  exact and_congr_right fun hva => (h.rights va hva).2.2

theorem Mirrors.permits_iff (h : Mirrors m p f) (a : Access) (va : Nat) :
    f.permits a va ↔ va < PGROUNDUP p.sz ∧ a.permitted (viewFlags m p.pagetable va) := by
  rw [Flat.permits, h.size]
  exact and_congr_right fun hva => (h.rights va hva).permitted_iff a

end View

-- Memory in which p has a page table of its own, and nothing is shared.
structure Own (L : Layout) (s : Phys) (role : Nat → Role) (p : Self) (tf : Nat) : Prop where
  vm : Vm L s role
  space : Space L s.mem role p.pagetable tf (PGROUNDUP p.sz)
  small : p.sz ≤ TRAPFRAME
  plain : ∀ a, role a ≠ .shared

section Own

section

variable (h : Own L s role p tf)
include h

theorem Own.max : p.sz ≤ MAXVA := by
  have := h.small
  simp only [TRAPFRAME_eq, MAXVA_eq] at *
  omega

theorem Own.up_le : PGROUNDUP p.sz ≤ TRAPFRAME := by
  have hb := pgroundup_bounds h.max
  have := h.small
  simp only [TRAPFRAME_eq, PGSIZE_eq] at *
  omega

theorem Own.current : Current L s role p tf :=
  ⟨h.vm, h.space.widen, h.small⟩

theorem Own.user (hva : va < TRAPFRAME) : leafPte s.mem 2 p.pagetable va = none ∨
    va < PGROUNDUP p.sz ∧ UserLeaf s.mem role 2 p.pagetable va := by
  rcases h.space.user va hva with hnone | huser | ⟨-, pa, hpa, -⟩
  · exact .inl hnone
  · exact .inr huser
  · exact absurd hpa (h.plain pa)

theorem Own.grows (hg : Grows L s role t role' p.pagetable p.sz) : Own L t role' p tf := by
  refine ⟨hg.edit.vm, h.space.grows hg h.max fun va hva hlt => ?_, h.small, fun a ha => ?_⟩
  · have hb := pgroundup_bounds h.max
    have hd := pgrounddown_bounds va
    simp only [PGSIZE_eq] at *
    omega
  · by_cases hap : a = p.pagetable
    · rw [hap, hg.edit.top] at ha
      simp at ha
    · exact h.plain a ((hg.edit.frame.role_eq a hap (.inr (by rw [ha]; rfl))).symm.trans ha)

theorem Own.not_user (hva : PGROUNDUP p.sz ≤ va) (h39 : va < 2 ^ 39)
    (hpte : leafPte s.mem 2 p.pagetable va = some e) : ¬hasFlag e PTE_U := by
  intro hu
  rcases h.user (h.current.user_lt h39 hpte hu) with hnone | ⟨hlt, -⟩
  · simp [hnone] at hpte
  · omega

theorem Own.vmfault_spec (hd : ¬Denied L p s va) :
    (va < p.sz ∧ leafPte s.mem 2 p.pagetable va = none ∧
      ∃ a t role', vmfault L p p.pagetable va s = .ok (a, t) ∧ a ≠ 0 ∧ Own L t role' p tf ∧
        (∀ va', va' < PGROUNDUP p.sz → Alike s.mem p.pagetable t.mem p.pagetable va') ∧
        leafPte t.mem 2 p.pagetable va = some (PA2PTE a ||| (PTE_W ||| PTE_U ||| PTE_R) ||| PTE_V) ∧
        PTE2PA (PA2PTE a ||| (PTE_W ||| PTE_U ||| PTE_R) ||| PTE_V) = a) ∨
    (p.sz ≤ va ∨ leafPte s.mem 2 p.pagetable va ≠ none) ∧ vmfault L p p.pagetable va s = .ok (0, s) := by
  by_cases hsz : p.sz ≤ va
  · exact .inr ⟨.inl hsz, by rw [vmfault, if_pos hsz]⟩
  have hmax : va < MAXVA := by
    have := h.max
    omega
  have hva0 := pgrounddown_lt hmax
  have hpage : leafPte s.mem 2 p.pagetable (PGROUNDDOWN va) = leafPte s.mem 2 p.pagetable va :=
    leafPte_congr_page (lt_39_of_lt_MAXVA hmax) (lt_39_of_lt_MAXVA hva0) (pgrounddown_bounds va).2.2.2
  by_cases hmap : leafPte s.mem 2 p.pagetable va = none
  swap
  · refine .inr ⟨.inr hmap, ?_⟩
    simp only [vmfault, if_neg hsz, ismapped_eq hva0, hpage, ok_bind, ne_eq, hmap, not_false_eq_true, decide_true,
      if_true, pure_eq_ok]
  obtain ⟨a, t, role', hok, hw, hcase⟩ := h.current.vmfault_spec va
  by_cases ha : a = 0
  · exact absurd ⟨Nat.lt_of_not_le hsz, hpage.trans hmap, t, ha ▸ hok⟩ hd
  · obtain ⟨hlt, -, hnew, hpa⟩ := hcase.resolve_left ha
    exact .inl ⟨hlt, hmap, a, t, role', hok, ha, h.grows (hw 0).grows,
      fun va' hva' => (hw 0).alike (Nat.lt_of_lt_of_le hva' h.up_le), hnew, hpa⟩

theorem Own.opens_iff (hm : Mirrors s.mem p f) (w : Bool) (va : Nat) :
    Opens s.mem p w va ↔ f.user va ∧ (w = true → hasFlag (f.flags va) PTE_W) := by
  have hup := pgroundup_bounds h.max
  have hd := pgrounddown_bounds va
  rw [Xv6.opens_iff, hm.user_iff]
  constructor
  · rintro ⟨hmax, hnone, hu, hw⟩
    have hlt : va < PGROUNDUP p.sz := by
      cases hpte : leafPte s.mem 2 p.pagetable va with
      | none =>
        have := hnone hpte
        simp only [PGSIZE_eq] at *
        omega
      | some e =>
        by_contra hge
        rw [viewFlags_some hpte] at hu
        exact h.not_user (Nat.le_of_not_lt hge) (lt_39_of_lt_MAXVA hmax) hpte hu
    exact ⟨⟨hlt, hu⟩, fun hwr => (hm.rights va hlt).2.1.mpr (hw hwr)⟩
  · rintro ⟨⟨hlt, hu⟩, hw⟩
    refine ⟨by omega, fun _ => ?_, hu, fun hwr => (hm.rights va hlt).2.1.mp (hw hwr)⟩
    simp only [PGSIZE_eq] at *
    omega

end

end Own

section Copyin

theorem Flat.copyin_append (f : Flat) (va n m : Nat) (h : ∀ i, i < n → f.user (va + i)) :
    f.copyin va (n + m) = ((f.copyin (va + n) m).1, readAt f.byte va n ++ (f.copyin (va + n) m).2) := by
  induction n generalizing va with
  | zero => simp [readAt]
  | succ n ih =>
    have hrest := ih (va + 1) fun i hi => by
      have := h (i + 1) (by omega)
      rwa [show va + 1 + i = va + (i + 1) by omega]
    rw [show n + 1 + m = n + m + 1 by omega, Flat.copyin, if_pos (by simpa using h 0 (by omega)), hrest, readAt_succ,
      show va + (n + 1) = va + 1 + n by omega]
    rfl

theorem Flat.copyin_eq (f : Flat) (va : Nat) (hn : n ≤ len) (h : ∀ i, i < n → f.user (va + i))
    (hstop : n < len → ¬f.user (va + n)) : f.copyin va len = (if n = len then 0 else -1, readAt f.byte va n) := by
  obtain ⟨m, rfl⟩ := Nat.exists_eq_add_of_le hn
  rw [Flat.copyin_append f va n m h]
  cases m with
  | zero => simp [Flat.copyin]
  | succ m => simp [Flat.copyin, hstop (by omega)]

theorem Own.readBytes_eq (h : Own L s role p tf) (hm : Mirrors s.mem p f)
    (hpte : leafPte s.mem 2 p.pagetable va = some e) (hva : va < PGROUNDUP p.sz)
    (hn : va % PGSIZE + n ≤ PGSIZE) : s.readBytes (PTE2PA e) (va % PGSIZE) n = readAt f.byte va n := by
  rw [readBytes_view hpte (Nat.lt_of_lt_of_le hva h.up_le) hn]
  refine readAt_congr fun i hi => (hm.byte _ ?_).symm
  have hup := pgroundup_bounds h.max
  simp only [PGSIZE_eq] at *
  omega

theorem Own.copyin_spec (h : Own L s role p tf) (hm : Mirrors s.mem p f)
    (hd : ∀ n, n < len → ∀ bytes t, copyin L p p.pagetable va n s = .ok (0, bytes, t) →
      ¬Denied L p t (PGROUNDDOWN (va + n))) :
    ∃ t role', copyin L p p.pagetable va len s = .ok ((f.copyin va len).1, (f.copyin va len).2, t) ∧
      Own L t role' p tf ∧ ∀ va', va' < PGROUNDUP p.sz → Alike s.mem p.pagetable t.mem p.pagetable va' := by
  obtain ⟨n, t, role', hn, hw, hok, hdone, hstop⟩ := h.current.copyinLoop_spec (Nat.le_refl len) va []
  have huser : ∀ va', Opens s.mem p false va' ↔ f.user va' := fun va' => by simp [h.opens_iff hm]
  have hflat := f.copyin_eq va hn (fun i hi => (huser _).mp (hdone i hi).1) fun hlt hu => by
    obtain ⟨bytes, u, hok', hden⟩ := (hstop hlt).2 ((huser _).mpr hu)
    rw [copyinLoop_turns L p p.pagetable va [] s hn (Nat.le_refl n)] at hok'
    exact hd n hlt bytes u hok' hden
  refine ⟨t, role', ?_, h.grows hw.grows, fun va' hva' => hw.alike (Nat.lt_of_lt_of_le hva' h.up_le)⟩
  rw [copyin, hok, hflat, List.nil_append]
  have hread : readAt (viewByte s.mem p.pagetable) va n = readAt f.byte va n :=
    readAt_congr fun i hi => (hm.byte _ ((hm.user_iff _).mp ((huser _).mp (hdone i hi).1)).1).symm
  rw [hread]

end Copyin

section Copyout

theorem Flat.copyout_append (f : Flat) (va : Nat) (xs ys : List Byte) (h : ∀ i, i < xs.length → f.writable (va + i)) :
    f.copyout va (xs ++ ys) = (f.write va xs).copyout (va + xs.length) ys := by
  induction xs generalizing f va with
  | nil => simp [Flat.write, writeAt_nil]
  | cons x xs ih =>
    have hrest := ih (f.write va [x]) (va + 1) fun i hi => by
      have := h (i + 1) (by simp only [List.length_cons]; omega)
      rwa [show va + 1 + i = va + (i + 1) by omega]
    rw [List.cons_append, Flat.copyout, if_pos (by simpa using h 0 (by simp)), hrest]
    simp only [Flat.write, List.length_cons, writeAt_cons f.byte va x xs,
      show va + (xs.length + 1) = va + 1 + xs.length by omega]

theorem Flat.copyout_eq (f : Flat) (va : Nat) (hn : n ≤ src.length) (h : ∀ i, i < n → f.writable (va + i))
    (hstop : n < src.length → ¬f.writable (va + n)) :
    f.copyout va src = (if n = src.length then 0 else -1, f.write va (src.take n)) := by
  have hlen : (src.take n).length = n := by rw [List.length_take, Nat.min_eq_left hn]
  have happ := Flat.copyout_append f va (src.take n) (src.drop n) fun i hi => h i (by omega)
  rw [List.take_append_drop, hlen] at happ
  rw [happ]
  cases hrest : src.drop n with
  | nil =>
    have := List.drop_eq_nil_iff.mp hrest
    rw [Flat.copyout, if_pos (by omega)]
  | cons b rest =>
    have hlt : n < src.length := by
      by_contra hge
      rw [List.drop_eq_nil_of_le (by omega)] at hrest
      simp at hrest
    have hnot : ¬(f.write va (src.take n)).writable (va + n) := hstop hlt
    rw [Flat.copyout, if_neg hnot, if_neg (by omega)]

theorem Mirrors.wrote (hm : Mirrors s.mem p f) (h : Own L s role p tf) (hw : Wrote L s role t role' p tf va bytes) :
    Mirrors t.mem p (f.write va bytes) where
  size := hm.size
  rights := fun va' hva' => (hm.rights va' hva').trans (hw.rights va' (Nat.lt_of_lt_of_le hva' h.up_le))
  byte := fun va' hva' => by
    rw [hw.byte va' (Nat.lt_of_lt_of_le hva' h.up_le)]
    exact writeAt_congr (hm.byte va' hva')

theorem Own.write_spec (h : Own L s role p tf) (hm : Mirrors s.mem p f)
    (hpte : leafPte s.mem 2 p.pagetable va = some e) (hva : va < PGROUNDUP p.sz)
    (hlen : va % PGSIZE + bytes.length ≤ PGSIZE) :
    Own L (s.writeBytes (PTE2PA e) (va % PGSIZE) bytes) role p tf ∧
      Mirrors (s.writeBytes (PTE2PA e) (va % PGSIZE) bytes).mem p (f.write va bytes) := by
  have hw := h.current.write_spec hpte (Nat.lt_of_lt_of_le hva h.up_le) hlen
  exact ⟨h.grows hw.grows, hm.wrote h hw⟩

theorem Own.copyout_spec (h : Own L s role p tf) (hm : Mirrors s.mem p f)
    (hd : ∀ n, n < src.length → ∀ t, copyout L p p.pagetable va (src.take n) s = .ok (0, t) →
      ¬Denied L p t (PGROUNDDOWN (va + n))) :
    ∃ t role', copyout L p p.pagetable va src s = .ok ((f.copyout va src).1, t) ∧
      Own L t role' p tf ∧ Mirrors t.mem p (f.copyout va src).2 := by
  obtain ⟨n, t, role', hn, hw, hok, hdone, hstop⟩ := h.current.copyoutLoop_spec (Nat.le_refl src.length) va
  have huser : ∀ va', Opens s.mem p true va' ↔ f.writable va' := fun va' => by simp [h.opens_iff hm, Flat.writable]
  have hflat := f.copyout_eq va hn (fun i hi => (huser _).mp (hdone i hi).1) fun hlt hu => by
    obtain ⟨u, hok', hden⟩ := (hstop hlt).2 ((huser _).mpr hu)
    have hlen : (src.take n).length = n := by rw [List.length_take, Nat.min_eq_left hn]
    rw [copyoutLoop_turns L p p.pagetable va _ s (by omega) (Nat.le_refl _)] at hok'
    exact hd n hlt u hok' hden
  rw [hflat]
  exact ⟨t, role', hok, h.grows hw.grows, hm.wrote h hw⟩

end Copyout

end Xv6
