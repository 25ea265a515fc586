import Xv6.Umalloc.Blocks

namespace Xv6.Umalloc

open Lib Function Finset

variable {base p bp q a nu nunits : Nat} {mem mem' : Nat → Header} {cs : Calls} {F L X : Finset Nat} {H : Heap} {sbrk : Sbrk}

-- No free block ends where the next one begins, but for those of X.
def Separate (base : Nat) (mem : Nat → Header) (F X : Finset Nat) : Prop :=
  ∀ a ∈ F, a ≠ base → a ∉ X → (mem a).ptr ≠ a + len mem a

structure Good (base : Nat) (H : Heap) (F L : Finset Nat) : Prop where
  blocks : Blocks base H.mem H.calls F L
  separate : Separate base H.mem F ∅
  freep : H.freep ∈ F

theorem Separate.absorb (h : Blocks base mem cs F L) (hs : Separate base mem F X) (ha : a ∈ F) (hbase : a ≠ base)
    (hnext : (mem a).ptr = a + len mem a) (hX : (mem a).ptr ∉ X) :
    Separate base (absorb mem a (mem a).ptr) (F.erase (mem a).ptr) (X.erase a) := by
  have hlow := h.low (Blocks.mem_of_free (L := L) ha hbase)
  intro x hx hxb hxX
  by_cases hxa : x = a
  · subst hxa
    -- it ends now where the other one did
    have hne := hs _ (h.ring.next_mem ha) (by omega) hX
    rw [h.len_absorb ha hbase hnext, update_self, ← Nat.add_assoc, ← hnext]
    simpa [Umalloc.absorb] using hne
  · have hsame : Umalloc.absorb mem a (mem a).ptr x = mem x := update_of_ne hxa ..
    simp only [len, hsame]
    exact hs x (mem_of_mem_erase hx) hxb fun hxX' => hxX (mem_erase.mpr ⟨hxa, hxX'⟩)

theorem Blocks.coalesce (h : Blocks base mem cs F L) (hs : Separate base mem F ∅) (hbase : 0 < base) (hbp : bp ∈ L)
    (hp : p ∈ F) (hlt : p < bp) (hmax : ∀ c ∈ F, c < bp → c ≤ p) :
    ∃ F', Blocks base (coalesce mem p bp) cs F' (L.erase bp) ∧ Separate base (coalesce mem p bp) F' ∅ ∧ p ∈ F' ∧
      (∀ a ∈ L.erase bp, (Umalloc.coalesce mem p bp a).size = (mem a).size) ∧
      ∃ a ∈ F', (mem bp).size ≤ (Umalloc.coalesce mem p bp a).size := by
  have hbpB : bp ∈ F.erase base ∪ L := mem_of_live hbp
  have hne : p ≠ bp := hlt.ne
  have hbpF := h.live bp hbp
  have hbpbase := h.ne_base hbp
  have hlow := h.low hbpB
  have htop := h.lt_top hbpB
  have hqF : (mem p).ptr ∈ F := h.ring.next_mem hp
  have hqlt : (mem p).ptr < 2 ^ 64 := by
    by_cases hq : (mem p).ptr = base
    · omega
    · exact h.lt_top (mem_of_free (L := L) hqF hq)
  have hup := h.above_eq_iff hbpB (hbase.trans_le (h.ring.least _ hqF)) hqlt
  have hdown : above mem p = bp ↔ p + len mem p = bp := by
    by_cases hpb : p = base
    · subst hpb
      have hself : above mem p = p := by
        rw [above, h.root, Nat.zero_mul, Nat.add_zero, wrap64_eq_of_lt (by omega)]
      rw [hself, len, h.root, Nat.zero_mul, Nat.add_zero]
    · exact h.above_eq_iff (mem_of_free hp hpb) (by omega) htop
  -- first the block is put into the ring
  have h1 := h.link hbp hp hlt hmax
  have hptr : (Umalloc.link mem p bp p).ptr = bp := by simp [Umalloc.link, setPtr]
  have hptr' : (Umalloc.link mem p bp bp).ptr = (mem p).ptr := by simp [Umalloc.link, setPtr, hne.symm]
  have hsize : ∀ x, (Umalloc.link mem p bp x).size = (mem x).size := by
    intro x
    simp only [Umalloc.link, setPtr]
    by_cases hxp : x = p <;> by_cases hxb : x = bp <;> simp_all
  have hs1 : Separate base (Umalloc.link mem p bp) (insert bp F) {p, bp} := by
    intro x hx hxb hxX
    simp only [mem_insert, mem_singleton, not_or] at hx hxX
    have hsame : Umalloc.link mem p bp x = mem x := by simp [Umalloc.link, setPtr, hxX.1, hxX.2]
    simp only [len, hsame]
    exact hs x (hx.resolve_left hxX.2) hxb (by simp)
  have hpos := h.tiling.pos bp hbpB
  rw [coalesce_eq hne fun heq => by rw [hup] at heq; omega]
  generalize hm1 : Umalloc.link mem p bp = m1 at *
  -- then it takes in the block behind it
  obtain ⟨F2, m2, hm2, h2, hs2, hp2, hbp2, hptr2, hsize2, hge2⟩ : ∃ F2 m2,
      (if above mem bp = (mem p).ptr then Umalloc.absorb m1 bp (mem p).ptr else m1) = m2 ∧
      Blocks base m2 cs F2 (L.erase bp) ∧ Separate base m2 F2 {p} ∧ p ∈ F2 ∧ bp ∈ F2 ∧ (m2 p).ptr = bp ∧
      (∀ x, x ≠ bp → (m2 x).size = (mem x).size) ∧ (mem bp).size ≤ (m2 bp).size := by
    by_cases hadj : above mem bp = (mem p).ptr
    · have hnext : (m1 bp).ptr = bp + len m1 bp := by
        rw [hptr', len, hsize]
        exact (hup.mp hadj).symm
      have hq := hup.mp hadj
      have h2 := h1.absorb (mem_insert_self ..) hbpbase hnext
      have hs2 := hs1.absorb h1 (mem_insert_self ..) hbpbase hnext (by
        rw [hptr']
        simp only [mem_insert, mem_singleton, not_or]
        omega)
      have hlen2 := congrFun (h1.len_absorb (mem_insert_self ..) hbpbase hnext) bp
      rw [hptr'] at h2 hs2 hlen2
      refine ⟨_, _, if_pos hadj, h2, ?_, ?_, ?_, ?_, fun x hx => ?_, ?_⟩
      · have hX : ({p, bp} : Finset Nat).erase bp = {p} := by
          ext x
          simp only [mem_erase, mem_insert, mem_singleton]
          omega
        rwa [hX] at hs2
      · simp only [mem_erase, mem_insert]
        exact ⟨by omega, .inr hp⟩
      · simp only [mem_erase, mem_insert]
        exact ⟨by omega, .inl trivial⟩
      · simp [Umalloc.absorb, hne, hptr]
      · simp [Umalloc.absorb, hx, hsize]
      · rw [update_self] at hlen2
        simp only [len, hsize, sizeofHeader] at hlen2
        omega
    · refine ⟨_, _, if_neg hadj, h1, fun x hx hxb hxX => ?_, by simp [hp], by simp, hptr, fun x _ => hsize x,
        (hsize bp).ge⟩
      by_cases hxbp : x = bp
      · subst hxbp
        rw [hptr', len, hsize]
        exact fun heq => hadj (hup.mpr heq.symm)
      · refine hs1 x hx hxb ?_
        simp only [mem_insert, mem_singleton, not_or] at hxX ⊢
        exact ⟨hxX, hxbp⟩
  simp only [hm2]
  -- and last the one before it takes it in
  by_cases hadj : above mem p = bp
  · rw [if_pos hadj]
    have hpb : p ≠ base := by
      rintro rfl
      have := hdown.mp hadj
      rw [len, h.root] at this
      omega
    have hnext : (m2 p).ptr = p + len m2 p := by
      rw [hptr2, len, hsize2 p hne]
      exact (hdown.mp hadj).symm
    have h3 := h2.absorb hp2 hpb hnext
    have hs3 := hs2.absorb h2 hp2 hpb hnext (by rw [hptr2]; simpa using hne.symm)
    have hlen3 := congrFun (h2.len_absorb hp2 hpb hnext) p
    rw [hptr2] at h3 hs3 hlen3
    refine ⟨_, h3, by simpa using hs3, mem_erase.mpr ⟨hne, hp2⟩, fun x hx => ?_, p,
      mem_erase.mpr ⟨hne, hp2⟩, ?_⟩
    · have hxp : x ≠ p := fun heq => h3.live x hx (heq ▸ mem_erase.mpr ⟨hne, hp2⟩)
      rw [Umalloc.absorb, update_of_ne hxp, hsize2 x (ne_of_mem_erase hx)]
    · rw [update_self] at hlen3
      simp only [len, sizeofHeader] at hlen3
      omega
  · rw [if_neg hadj]
    refine ⟨F2, h2, fun x hx hxb _ => ?_, hp2, fun x hx => hsize2 x (ne_of_mem_erase hx), bp, hbp2, hge2⟩
    by_cases hxp : x = p
    · subst hxp
      rw [hptr2, len, hsize2 x hne]
      exact fun heq => hadj (hdown.mpr heq.symm)
    · exact hs2 x hx hxb (by simpa using hxp)

theorem search_of_iterate (h : Blocks base mem cs F L) (hbp : bp ∈ L) (hp : p ∈ F) (hlt : p < bp)
    (hmax : ∀ c ∈ F, c < bp → c ≤ p) :
    ∀ k, ∀ a ∈ F, (fun x => (mem x).ptr)^[k] a = p → ∀ fuel, k < fuel → search mem bp fuel a = some p := by
  have hlow := h.low (show bp ∈ F.erase base ∪ L from Blocks.mem_of_live hbp)
  have hstop : ∀ a ∈ F, (a < bp ∧ bp < (mem a).ptr) ∨ ((mem a).ptr ≤ a ∧ (a < bp ∨ bp < (mem a).ptr)) ↔ a = p := by
    intro a ha
    constructor
    · intro hor
      have hbelow : ∀ c ∈ F, c < bp → c ≤ a := by
        intro c hc hcb
        by_contra hnot
        obtain ⟨hup, hle⟩ := h.ring.next_le ha hc (by omega)
        omega
      have hab : a < bp := by
        rcases hor with hor | ⟨hle, hor⟩
        · exact hor.1
        · rcases h.ring.step a ha with ⟨-, hup, -⟩ | ⟨heq, -⟩
          · omega
          · omega
      exact le_antisymm (hmax a ha hab) (hbelow p hp hlt)
    · rintro rfl
      rcases h.ring.step a ha with ⟨hm, hup, -⟩ | ⟨heq, hall⟩
      · left
        refine ⟨hlt, ?_⟩
        by_contra hnot
        have hne : (mem a).ptr ≠ bp := fun heq => h.live bp hbp (heq ▸ hm)
        have := hmax _ hm (by omega)
        omega
      · right
        have := h.ring.least a ha
        omega
  intro k
  induction k with
  | zero =>
    rintro a ha rfl fuel hfuel
    obtain ⟨fuel, rfl⟩ := Nat.exists_eq_succ_of_ne_zero (show fuel ≠ 0 by omega)
    rw [search]
    rcases (hstop a ha).mpr rfl with hor | hor
    · rw [if_pos hor]
      rfl
    · rw [if_pos hor]
      split_ifs <;> rfl
  | succ k ih =>
    intro a ha hk fuel hfuel
    obtain ⟨fuel, rfl⟩ := Nat.exists_eq_succ_of_ne_zero (show fuel ≠ 0 by omega)
    rw [search]
    split_ifs with h1 h2
    · rw [(hstop a ha).mp (.inl h1)]
    · rw [(hstop a ha).mp (.inr h2)]
    · exact ih _ (h.ring.next_mem ha) hk fuel (by omega)

theorem Good.free (h : Good base H F L) (hbase : 0 < base) (hbp : bp ∈ L) :
    ∃ N H' F', (∀ fuel, N ≤ fuel → free fuel (bp + sizeofHeader) H = some H') ∧ Good base H' F' (L.erase bp) ∧
      H'.calls = H.calls ∧ (∀ a ∈ L.erase bp, (H'.mem a).size = (H.mem a).size) ∧
      ∃ a ∈ F', (H.mem bp).size ≤ (H'.mem a).size := by
  have hlow := h.blocks.low (show bp ∈ F.erase base ∪ L from Blocks.mem_of_live hbp)
  obtain ⟨p, hp, hlt, hmax⟩ := h.blocks.ring.exists_pred (x := bp) (by simp only [sizeofHeader] at hlow; omega)
  obtain ⟨k, hk⟩ := h.blocks.ring.reach h.freep hp
  obtain ⟨F', hb, hs, hpF, hL, hfit⟩ := h.blocks.coalesce h.separate hbase hbp hp hlt hmax
  refine ⟨k + 2, { H with mem := Umalloc.coalesce H.mem p bp, freep := p }, F', fun fuel hfuel => ?_, ⟨hb, hs, hpF⟩, rfl,
    hL, hfit⟩
  simp only [Umalloc.free, Nat.add_sub_cancel,
    search_of_iterate h.blocks hbp hp hlt hmax (k + 1) _ h.freep hk fuel (by omega)]
  rfl

theorem search_mono : ∀ {fuel fuel' a}, fuel ≤ fuel' → search mem bp fuel a = some p → search mem bp fuel' a = some p := by
  intro fuel
  induction fuel with
  | zero => simp [search]
  | succ fuel ih =>
    intro fuel' a hle h
    obtain ⟨m, rfl⟩ := Nat.exists_eq_add_of_lt hle
    rw [search] at h ⊢
    split_ifs at h ⊢ with h1 h2
    · exact h
    · exact h
    · exact ih (by omega) h

theorem free_mono (hle : fuel ≤ fuel') (h : free fuel ap H = some H') :
    free fuel' ap H = some H' := by
  obtain ⟨p, hp, hr⟩ := Option.bind_eq_some_iff.mp h
  exact Option.bind_eq_some_iff.mpr ⟨p, search_mono hle hp, hr⟩

theorem morecore_mono (hle : fuel ≤ fuel') (h : morecore sbrk fuel nu H = some r) :
    morecore sbrk fuel' nu H = some r := by
  simp only [morecore] at h ⊢
  split at h
  · exact h
  · obtain ⟨H', hf, hr⟩ := Option.bind_eq_some_iff.mp h
    exact Option.bind_eq_some_iff.mpr ⟨H', free_mono hle hf, hr⟩

theorem scan_mono : ∀ {fuel fuel' z a H}, fuel ≤ fuel' → scan sbrk nunits fuel z a H = some r →
    scan sbrk nunits fuel' z a H = some r := by
  intro fuel
  induction fuel with
  | zero => simp [scan]
  | succ fuel ih =>
    intro fuel' z a H hle h
    obtain ⟨m, rfl⟩ := Nat.exists_eq_add_of_lt hle
    rw [scan] at h ⊢
    split_ifs at h ⊢ with h1 h2 h3
    · exact h
    · exact h
    · obtain ⟨⟨p, H'⟩, hm, hr⟩ := Option.bind_eq_some_iff.mp h
      refine Option.bind_eq_some_iff.mpr ⟨(p, H'), morecore_mono (by omega) hm, ?_⟩
      simp only at hr ⊢
      split_ifs at hr ⊢ with hp
      · exact hr
      · exact ih (by omega) hr
    · exact ih (by omega) h

theorem toNat_wrap32 (h : nu * sizeofHeader < 2 ^ 31) :
    (wrap32 (nu * sizeofHeader : Nat)).toNat = nu * sizeofHeader ∧ 0 ≤ wrap32 (nu * sizeofHeader : Nat) := by
  rw [wrap32_eq (by omega) (by omega)]
  exact ⟨Int.toNat_natCast _, by omega⟩

theorem Good.morecore (h : Good base H F L) (hfresh : Fresh base sbrk) (hbound : Bounded sbrk)
    (hfits : max nunits 4096 * sizeofHeader < 2 ^ 31) :
    ∃ N r H' F', (∀ fuel, N ≤ fuel → morecore sbrk fuel nunits H = some (r, H')) ∧ Good base H' F' L ∧
      (∀ a ∈ L, (H'.mem a).size = (H.mem a).size) ∧
      (r = 0 ∨ r ≠ 0 ∧ r = H'.freep ∧ ∃ a ∈ F', nunits ≤ (H'.mem a).size) := by
  obtain ⟨hbase, hfresh⟩ := hfresh
  have hnu : (if nunits < 4096 then 4096 else nunits) = max nunits 4096 := by
    split_ifs <;> omega
  obtain ⟨htoNat, hnonneg⟩ := toNat_wrap32 hfits
  cases hr : sbrk H.calls (wrap32 (max nunits 4096 * sizeofHeader : Nat)) with
  | none =>
    refine ⟨0, 0, { H with calls := (wrap32 (max nunits 4096 * sizeofHeader : Nat), none) :: H.calls }, F,
      fun fuel _ => ?_, ⟨h.blocks.refused _, h.separate, h.freep⟩, fun _ _ => rfl, .inl rfl⟩
    simp only [Umalloc.morecore, hnu, hr]
  | some p =>
    obtain ⟨hlow, htop, hsep⟩ := hfresh _ _ _ hr hnonneg
    have hbnd := hbound _ _ _ hr
    rw [htoNat] at htop hbnd
    have hgrow := h.blocks.grow (by omega) htoNat hlow htop hsep hbnd
    have hpL : p ∉ L := fun hpL => by
      obtain ⟨n, q, hq, -, hlt⟩ := h.blocks.tiling.inside p (Blocks.mem_of_live hpL) p le_rfl (by
        have := h.blocks.tiling.pos p (Blocks.mem_of_live hpL)
        omega)
      have := hsep n q hq
      omega
    have hpF : p ∉ F := hgrow.live p (mem_insert_self ..)
    have hgood : Good base { H with
        mem := setSize H.mem p (max nunits 4096)
        calls := (wrap32 (max nunits 4096 * sizeofHeader : Nat), some p) :: H.calls } F (insert p L) := by
      refine ⟨hgrow, fun x hx hxb _ => ?_, h.freep⟩
      have hxp : x ≠ p := fun heq => hpF (heq ▸ hx)
      simp only [len, setSize, update_of_ne hxp]
      exact h.separate x hx hxb (by simp)
    obtain ⟨N, H', F', hrun, hg, -, hsize, a, ha, hfit⟩ := hgood.free hbase (mem_insert_self ..)
    rw [erase_insert hpL] at hg hsize
    refine ⟨N, H'.freep, H', F', fun fuel hfuel => ?_, hg, fun x hx => ?_, .inr ⟨?_, rfl, a, ha, ?_⟩⟩
    · simp only [Umalloc.morecore, hnu, hr, hrun fuel hfuel]
      rfl
    · rw [hsize x hx]
      simp [setSize, update_of_ne fun heq : x = p => hpL (heq ▸ hx)]
    · have := hg.blocks.ring.least _ hg.freep
      omega
    · simp only [setSize, update_self] at hfit
      omega

end Xv6.Umalloc
