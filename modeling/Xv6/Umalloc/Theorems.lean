import Xv6.Umalloc.Calls
import Mathlib.Algebra.BigOperators.Ring.Finset

namespace Xv6.Umalloc

open Lib Function Finset

variable {base p q a z nunits nbytes : Nat} {F L : Finset Nat} {H : Heap} {sbrk : Sbrk} {s : State}

def Heap.next (H : Heap) (a : Nat) : Nat := (H.mem a).ptr

theorem scan_iterate (fuel : Nat) : ∀ k a,
    (∀ i, i < k → (H.mem (H.next^[i + 1] a)).size < nunits ∧ H.next^[i + 1] a ≠ H.freep) →
    scan sbrk nunits (fuel + k) a (H.next a) H = scan sbrk nunits fuel (H.next^[k] a) (H.next (H.next^[k] a)) H := by
  intro k
  induction k with
  | zero => exact fun a _ => rfl
  | succ k ih =>
    intro a hskip
    obtain ⟨hsmall, hne⟩ : (H.mem (H.next a)).size < nunits ∧ H.next a ≠ H.freep := hskip 0 (Nat.succ_pos k)
    rw [← Nat.add_assoc, scan, if_neg (Nat.not_le.mpr hsmall), if_neg hne]
    exact ih (H.next a) fun i hi => hskip (i + 1) (Nat.succ_lt_succ hi)

theorem Good.fit (h : Good base H F L) (sbrk : Sbrk) (hz : z ∈ F) (hn : 0 < nunits) (hfit : nunits ≤ (H.mem (H.next z)).size) :
    ∃ a H' F', (∀ fuel, scan sbrk nunits (fuel + 1) z (H.next z) H = some (a + sizeofHeader, H')) ∧
      Good base H' F' (insert a L) ∧ a ∉ L ∧ (H'.mem a).size = nunits ∧
      ∀ x ∈ L, (H'.mem x).size = (H.mem x).size := by
  obtain ⟨hb, hs, hf⟩ := h
  have hyF : H.next z ∈ F := hb.ring.next_mem hz
  have hy : H.next z ≠ base := by
    intro heq
    rw [heq, hb.root] at hfit
    omega
  have hyB : H.next z ∈ F.erase base ∪ L := Blocks.mem_of_free hyF hy
  have hyL : H.next z ∉ L := fun hyL => hb.live _ hyL hyF
  have hylow := hb.low hyB
  have hytop := hb.top hyB
  have hypos := hb.tiling.pos _ hyB
  -- the node behind it is base or lies above its end
  have hbehind : H.next z + len H.mem (H.next z) ≤ (H.mem (H.next z)).ptr ∨ (H.mem (H.next z)).ptr = base := by
    rcases hb.ring.step _ hyF with ⟨hm, hup, -⟩ | ⟨heq, -⟩
    · have hne : (H.mem (H.next z)).ptr ≠ base := by omega
      exact .inl (hb.tiling.apart _ hyB _ (Blocks.mem_of_free hm hne) hup)
    · exact .inr heq
  by_cases heq : (H.mem (H.next z)).size = nunits
  · -- the block leaves the ring
    have hzy : z ≠ H.next z := by
      intro hzy
      rcases hb.ring.step z hz with ⟨-, hup, -⟩ | ⟨hbase, -⟩
      · exact absurd hup (by rw [show (H.mem z).ptr = z from hzy.symm]; omega)
      · exact hy hbase
    have htake := hb.take hz hy
    refine ⟨H.next z, { H with mem := setPtr H.mem z (H.mem (H.next z)).ptr, freep := z }, F.erase (H.next z),
      fun fuel => ?_, ⟨htake, fun x hx hxb _ => ?_, mem_erase.mpr ⟨hzy, hz⟩⟩, hyL, ?_, fun x hx => ?_⟩
    · rw [scan, if_pos hfit, if_pos heq]
    · by_cases hxz : x = z
      · subst hxz
        have hxB : x ∈ F.erase base ∪ L := Blocks.mem_of_free hz hxb
        have hxlow := hb.low hxB
        have hlen : len (setPtr H.mem x (H.mem (H.next x)).ptr) x = len H.mem x := by simp [len, setPtr]
        rw [hlen]
        simp only [setPtr, update_self]
        rcases hbehind with hbehind | hbehind
        · rcases hb.ring.step x hz with ⟨-, hup, -⟩ | ⟨hbase, -⟩
          · have := hb.tiling.apart x hxB _ hyB hup
            omega
          · exact absurd hbase hy
        · omega
      · have hsame : setPtr H.mem z (H.mem (H.next z)).ptr x = H.mem x := update_of_ne hxz ..
        simp only [len, hsame]
        exact hs x (mem_of_mem_erase hx) hxb (by simp)
    · simpa [setPtr, update_of_ne hzy.symm] using heq
    · have hxz : x ≠ z := fun hxz => hb.live x hx (hxz ▸ hz)
      simp [setPtr, update_of_ne hxz]
  · -- its end is cut off
    have hlt : nunits < (H.mem (H.next z)).size := by omega
    have hsplit := hb.split hyF hn hlt
    have hend : above (setSize H.mem (H.next z) ((H.mem (H.next z)).size - nunits)) (H.next z) =
        H.next z + ((H.mem (H.next z)).size - nunits) * sizeofHeader := by
      rw [above, setSize, update_self, wrap64_eq_of_lt]
      simp only [len, sizeofHeader] at hytop ⊢
      omega
    generalize hq : H.next z + ((H.mem (H.next z)).size - nunits) * sizeofHeader = q at *
    have hqF : q ∉ F := hsplit.live q (mem_insert_self ..)
    have hlen' : q < H.next z + len H.mem (H.next z) := by
      simp only [len, sizeofHeader] at hq ⊢
      omega
    have hqL : q ∉ L := fun hqL => by
      have hgt : H.next z < q := by
        simp only [sizeofHeader] at hq
        omega
      exact hb.tiling.notMem_inside hyB hgt hlen' (Blocks.mem_of_live hqL)
    refine ⟨q, { H with mem := setSize (setSize H.mem (H.next z) ((H.mem (H.next z)).size - nunits)) q nunits, freep := z }, F,
      fun fuel => ?_, ⟨hsplit, fun x hx hxb _ => ?_, hz⟩, hqL, by simp [setSize], fun x hx => ?_⟩
    · rw [scan, if_pos hfit, if_neg heq]
      simp only [hend]
    · have hxq : x ≠ q := fun hxq => hqF (hxq ▸ hx)
      by_cases hxy : x = H.next z
      · subst hxy
        simp only [len, setSize, update_of_ne hxq, update_self, hq]
        omega
      · have hsame : setSize (setSize H.mem (H.next z) ((H.mem (H.next z)).size - nunits)) q nunits x = H.mem x := by
          simp [setSize, hxq, hxy]
        simp only [len, hsame]
        exact hs x hx hxb (by simp)
    · have hxq : x ≠ q := fun hxq => hqL (hxq ▸ hx)
      have hxy : x ≠ H.next z := fun hxy => hyL (hxy ▸ hx)
      simp [setSize, hxq, hxy]

theorem Good.scan_of_fit (h : Good base H F L) (sbrk : Sbrk) (hn : 0 < nunits) (hfit : ∃ a ∈ F, nunits ≤ (H.mem a).size) :
    ∃ N a H' F', (∀ fuel, N ≤ fuel → scan sbrk nunits fuel H.freep (H.next H.freep) H = some (a + sizeofHeader, H')) ∧
      Good base H' F' (insert a L) ∧ a ∉ L ∧ (H'.mem a).size = nunits ∧
      ∀ x ∈ L, (H'.mem x).size = (H.mem x).size := by
  obtain ⟨b, hb, hfit⟩ := hfit
  have hex : ∃ k, nunits ≤ (H.mem (H.next^[k + 1] H.freep)).size := by
    obtain ⟨k, hk⟩ := h.blocks.ring.reach h.freep hb
    exact ⟨k, by rw [show H.next^[k + 1] H.freep = b from hk]; exact hfit⟩
  obtain ⟨k, hk, hmin⟩ : ∃ k, nunits ≤ (H.mem (H.next^[k + 1] H.freep)).size ∧
      ∀ i, i < k → (H.mem (H.next^[i + 1] H.freep)).size < nunits :=
    ⟨Nat.find hex, Nat.find_spec hex, fun i hi => Nat.not_le.mp (Nat.find_min hex hi)⟩
  have hskip : ∀ i, i < k → (H.mem (H.next^[i + 1] H.freep)).size < nunits ∧ H.next^[i + 1] H.freep ≠ H.freep := by
    refine fun i hi => ⟨hmin i hi, fun hround => ?_⟩
    -- once round, the block would have been met before
    have hearly := hmin (k - i - 1) (by omega)
    have hsplit : k + 1 = (k - i - 1 + 1) + (i + 1) := by omega
    rw [hsplit, Function.iterate_add_apply, hround] at hk
    omega
  have hz := h.blocks.ring.iterate_mem h.freep k
  rw [Function.iterate_succ_apply'] at hk
  obtain ⟨a, H', F', hrun, hg, hrest⟩ := h.fit sbrk hz hn hk
  refine ⟨k + 1, a, H', F', fun fuel hfuel => ?_, hg, hrest⟩
  obtain ⟨m, rfl⟩ := Nat.exists_eq_add_of_le hfuel
  rw [show k + 1 + m = (m + 1) + k by omega, scan_iterate _ k _ hskip]
  exact hrun m

theorem Good.scan (h : Good base H F L) (hfresh : Fresh base sbrk) (hbound : Bounded sbrk) (hn : 0 < nunits)
    (hfits : max nunits 4096 * sizeofHeader < 2 ^ 31) :
    ∃ N r H' F', (∀ fuel, N ≤ fuel → scan sbrk nunits fuel H.freep (H.next H.freep) H = some (r, H')) ∧
      (∀ x ∈ L, (H'.mem x).size = (H.mem x).size) ∧
      (r = 0 ∧ Good base H' F' L ∨
        ∃ a, r = a + sizeofHeader ∧ a ∉ L ∧ (H'.mem a).size = nunits ∧ Good base H' F' (insert a L)) := by
  by_cases hfit : ∃ a ∈ F, nunits ≤ (H.mem a).size
  · obtain ⟨N, a, H', F', hrun, hg, haL, hsize, hL⟩ := h.scan_of_fit sbrk hn hfit
    exact ⟨N, _, H', F', hrun, hL, .inr ⟨a, rfl, haL, hsize, hg⟩⟩
  have hsmall : ∀ a ∈ F, (H.mem a).size < nunits := fun a ha => Nat.not_le.mp fun hle => hfit ⟨a, ha, hle⟩
  have hex : ∃ k, H.next^[k + 1] H.freep = H.freep := h.blocks.ring.reach h.freep h.freep
  obtain ⟨k, hk, hmin⟩ : ∃ k, H.next^[k + 1] H.freep = H.freep ∧ ∀ i, i < k → H.next^[i + 1] H.freep ≠ H.freep :=
    ⟨Nat.find hex, Nat.find_spec hex, fun i hi => Nat.find_min hex hi⟩
  have hskip : ∀ i, i < k → (H.mem (H.next^[i + 1] H.freep)).size < nunits ∧ H.next^[i + 1] H.freep ≠ H.freep :=
    fun i hi => ⟨hsmall _ (h.blocks.ring.iterate_mem h.freep _), hmin i hi⟩
  rw [Function.iterate_succ_apply'] at hk
  obtain ⟨M, r, H1, F1, hmore, hg, hL, hor⟩ := h.morecore hfresh hbound hfits
  have hround : ∀ fuel, M + k + 1 ≤ fuel → ∃ m, M ≤ m ∧ fuel = m + 1 + k ∧
      Umalloc.scan sbrk nunits fuel H.freep (H.next H.freep) H =
        if r = 0 then some (0, H1) else Umalloc.scan sbrk nunits m r (H1.next r) H1 := by
    intro fuel hfuel
    refine ⟨fuel - 1 - k, by omega, by omega, ?_⟩
    rw [show fuel = (fuel - 1 - k + 1) + k by omega, scan_iterate _ k _ hskip, hk, Umalloc.scan,
      if_neg (Nat.not_le.mpr (hsmall _ h.freep)), if_pos rfl, show fuel - 1 - k + 1 + k - 1 - k = fuel - 1 - k by omega,
      hmore _ (by omega)]
    rfl
  rcases hor with rfl | ⟨hr, rfl, hfit1⟩
  · refine ⟨M + k + 1, 0, H1, F1, fun fuel hfuel => ?_, hL, .inl ⟨rfl, hg⟩⟩
    obtain ⟨m, -, -, heq⟩ := hround fuel hfuel
    rw [heq, if_pos rfl]
  · obtain ⟨N, a, H', F', hrun, hg', haL, hsize, hL'⟩ := hg.scan_of_fit sbrk hn hfit1
    refine ⟨M + N + k + 1, _, H', F', fun fuel hfuel => ?_, fun x hx => (hL' x hx).trans (hL x hx),
      .inr ⟨a, rfl, haL, hsize, hg'⟩⟩
    obtain ⟨m, -, hm, heq⟩ := hround fuel (by omega)
    rw [heq, if_neg hr]
    exact hrun m (by omega)

theorem Good.init (hF : H.freep = 0) (hc : H.calls = []) : Good base (init base H) {base} ∅ := by
  rw [Umalloc.init, if_pos hF]
  refine ⟨⟨Cyclic.singleton (by simp), by simp, by simp, ?_, ?_, ?_, by simp⟩, ?_, by simp⟩
  · simpa [hc, given] using Tiling.empty (Given []) _
  · simp [hc]
  · simp [hc, given]
  · intro a ha hne
    exact absurd (mem_singleton.mp ha) hne

theorem units_pos (nbytes : Nat) : 0 < units nbytes := Nat.succ_pos _

theorem le_units (nbytes : Nat) : nbytes + sizeofHeader ≤ units nbytes * sizeofHeader := by
  simp only [units, sizeofHeader]
  omega

theorem Good.malloc (h : Good base H F L) (hfresh : Fresh base sbrk) (hbound : Bounded sbrk) (hfits : Fits nbytes) :
    ∃ N r H' F', (∀ fuel, N ≤ fuel → malloc sbrk base fuel nbytes H = some (r, H')) ∧
      (∀ x ∈ L, (H'.mem x).size = (H.mem x).size) ∧
      (r = 0 ∧ Good base H' F' L ∨
        ∃ a, r = a + sizeofHeader ∧ a ∉ L ∧ (H'.mem a).size = units nbytes ∧ Good base H' F' (insert a L)) := by
  have hne : H.freep ≠ 0 := by
    have := h.blocks.ring.least _ h.freep
    have := hfresh.1
    omega
  obtain ⟨N, r, H', F', hrun, hrest⟩ := h.scan hfresh hbound (units_pos nbytes) hfits
  refine ⟨N, r, H', F', fun fuel hfuel => ?_, hrest⟩
  simp only [Umalloc.malloc, Umalloc.init, if_neg hne]
  exact hrun fuel hfuel

def Inv (base : Nat) (s : State) : Prop :=
  (s.heap.freep = 0 ∧ s.heap.calls = [] ∧ s.live = ∅) ∨
  ∃ F, Good base s.heap F s.live ∧ ∀ a ∈ s.live, s.asked a + sizeofHeader ≤ len s.heap.mem a

theorem Inv.malloc_terminates (h : Inv base s) (hfresh : Fresh base sbrk) (hbound : Bounded sbrk) (hfits : Fits nbytes) :
    ∃ N r H' F', (∀ fuel, N ≤ fuel → malloc sbrk base fuel nbytes s.heap = some (r, H')) ∧
      (∀ x ∈ s.live, s.asked x + sizeofHeader ≤ len H'.mem x) ∧
      (r = 0 ∧ Good base H' F' s.live ∨
        ∃ a, r = a + sizeofHeader ∧ a ∉ s.live ∧ nbytes + sizeofHeader ≤ len H'.mem a ∧
          Good base H' F' (insert a s.live)) := by
  have hstart : ∃ F, Good base (init base s.heap) F s.live ∧
      ∀ a ∈ s.live, s.asked a + sizeofHeader ≤ len (init base s.heap).mem a := by
    rcases h with ⟨hf, hc, hl⟩ | ⟨F, hg, hasked⟩
    · rw [hl]
      exact ⟨{base}, Good.init hf hc, by simp⟩
    · have hne : s.heap.freep ≠ 0 := by
        have := hg.blocks.ring.least _ hg.freep
        have := hfresh.1
        omega
      rw [Umalloc.init, if_neg hne]
      exact ⟨F, hg, hasked⟩
  obtain ⟨F, hg, hasked⟩ := hstart
  obtain ⟨N, r, H', F', hrun, hL, hor⟩ := hg.malloc hfresh hbound hfits
  have hinit : init base (init base s.heap) = init base s.heap := by
    have hne : (init base s.heap).freep ≠ 0 := by
      have := hg.blocks.ring.least _ hg.freep
      have := hfresh.1
      omega
    conv_lhs => rw [Umalloc.init]
    rw [if_neg hne]
  refine ⟨N, r, H', F', fun fuel hfuel => ?_, fun x hx => ?_, ?_⟩
  · have := hrun fuel hfuel
    rwa [malloc, hinit] at this
  · rw [len, hL x hx]
    exact hasked x hx
  · refine hor.imp_right ?_
    rintro ⟨a, hr, ha, hsize, hg'⟩
    refine ⟨a, hr, ha, ?_, hg'⟩
    rw [len, hsize]
    exact le_units nbytes

theorem Inv.free_terminates (h : Inv base s) (hbase : 0 < base) (ha : a ∈ s.live) :
    ∃ N H' F', (∀ fuel, N ≤ fuel → free fuel (a + sizeofHeader) s.heap = some H') ∧ Good base H' F' (s.live.erase a) ∧
      ∀ x ∈ s.live.erase a, s.asked x + sizeofHeader ≤ len H'.mem x := by
  rcases h with ⟨-, -, hl⟩ | ⟨F, hg, hasked⟩
  · simp [hl] at ha
  · obtain ⟨N, H', F', hrun, hg', -, hL, -⟩ := hg.free hbase ha
    refine ⟨N, H', F', hrun, hg', fun x hx => ?_⟩
    rw [len, hL x hx]
    exact hasked x (mem_of_mem_erase hx)

theorem Inv.next (h : Inv base s) (hfresh : Fresh base sbrk) (hbound : Bounded sbrk)
    (hs : Step sbrk base s t) : Inv base t := by
  obtain ⟨e, he, hnext⟩ := hs
  cases e with
  | malloc fuel nbytes =>
    obtain ⟨N, r, H', F', hrun, hL, hor⟩ := h.malloc_terminates hfresh hbound he
    obtain ⟨⟨ap, H1⟩, hm, hnext⟩ := Option.bind_eq_some_iff.mp hnext
    -- the call is the one that has enough turns
    have hsame : (ap, H1) = (r, H') := by
      have h1 := scan_mono (Nat.le_max_left fuel N) hm
      exact Option.some.inj (h1.symm.trans (hrun _ (Nat.le_max_right fuel N)))
    obtain ⟨rfl, rfl⟩ := Prod.mk.inj hsame
    rcases hor with ⟨rfl, hg⟩ | ⟨a, rfl, ha, hsize, hg⟩
    · obtain rfl : { s with heap := H1 } = t := by simpa using hnext
      exact .inr ⟨F', hg, hL⟩
    · obtain rfl : { heap := H1, live := insert a s.live, asked := update s.asked a nbytes : State } = t := by
        simpa using hnext
      refine .inr ⟨F', hg, fun x hx => ?_⟩
      by_cases hxa : x = a
      · subst hxa
        simpa using hsize
      · simpa [update_of_ne hxa] using hL x (mem_of_mem_insert_of_ne hx hxa)
  | free fuel ap =>
    obtain ⟨a, ha, rfl⟩ := he
    obtain ⟨N, H', F', hrun, hg, hL⟩ := h.free_terminates hfresh.1 ha
    obtain ⟨H1, hm, hnext⟩ := Option.bind_eq_some_iff.mp hnext
    have hsame : H1 = H' := by
      have h1 := free_mono (Nat.le_max_left fuel N) hm
      exact Option.some.inj (h1.symm.trans (hrun _ (Nat.le_max_right fuel N)))
    subst hsame
    obtain rfl : { s with heap := H1, live := s.live.erase a } = t := by simpa using hnext
    exact .inr ⟨F', hg, hL⟩
  | store x header =>
    obtain ⟨a, ha, hle, hlt⟩ := he
    obtain rfl : { s with heap := { s.heap with mem := update s.heap.mem x header } } = t := by
      simpa [State.next] using hnext
    rcases h with ⟨-, -, hl⟩ | ⟨F, ⟨hb, hsep, hf⟩, hasked⟩
    · simp [hl] at ha
    -- no header lies inside a block
    have haB : a ∈ F.erase base ∪ s.live := Blocks.mem_of_live ha
    have hlow := hb.low haB
    have hx : x ∉ F.erase base ∪ s.live := by
      simp only [sizeofHeader] at hle hlt
      refine hb.tiling.notMem_inside haB (by omega) ?_
      simp only [len, sizeofHeader]
      omega
    have hF : ∀ y ∈ F, update s.heap.mem x header y = s.heap.mem y := by
      intro y hy
      refine update_of_ne (fun heq => ?_) ..
      by_cases hyb : y = base
      · simp only [sizeofHeader] at hle hlow
        omega
      · exact hx (heq ▸ Blocks.mem_of_free hy hyb)
    have hL : ∀ y ∈ s.live, update s.heap.mem x header y = s.heap.mem y :=
      fun y hy => update_of_ne (fun heq : y = x => hx (heq ▸ Blocks.mem_of_live hy)) ..
    refine .inr ⟨F, ⟨hb.congr hF fun y hy => congrArg Header.size (hL y hy), fun y hy hyb hyX => ?_, hf⟩, fun y hy => ?_⟩
    · simp only [len, hF y hy]
      exact hsep y hy hyb hyX
    · simp only [len, hL y hy]
      exact hasked y hy

theorem inv_reach (hfresh : Fresh base sbrk) (hbound : Bounded sbrk) (h : Reach Start (Step sbrk base) s) : Inv base s :=
  h.invariant (fun _ hs => .inl hs) fun _ _ _ hi hs => hi.next hfresh hbound hs

theorem Good.not_adjacent (h : Good base H F L) (ha : a ∈ F) (hne : a ≠ base) : a + len H.mem a ∉ F := by
  intro hend
  have haB : a ∈ F.erase base ∪ L := Blocks.mem_of_free ha hne
  have hpos := h.blocks.tiling.pos a haB
  have hlow := h.blocks.low haB
  obtain ⟨hup, hle⟩ := h.blocks.ring.next_le ha hend (by omega)
  have hnB := Blocks.mem_of_free (L := L) (h.blocks.ring.next_mem ha) (show (H.mem a).ptr ≠ base by omega)
  have hapart := h.blocks.tiling.apart a haB _ hnB hup
  exact h.separate a ha hne (by simp) (by omega)

-- The heap of a user program.
theorem user_heap (hfresh : Fresh base sbrk) (hbound : Bounded sbrk) (h : Reach Start (Step sbrk base) s) :
    (s.heap.freep = 0 ∧ s.heap.calls = [] ∧ s.live = ∅ ∨
      ∃ F, s.heap.freep ∈ F ∧ Cyclic F base (fun a => (s.heap.mem a).ptr) ∧ (s.heap.mem base).size = 0 ∧
        (∀ a ∈ F, a ≠ base → a + len s.heap.mem a ∉ F) ∧ Disjoint F s.live ∧
        (∀ a ∈ F.erase base ∪ s.live, ∀ b ∈ F.erase base ∪ s.live, a < b → a + len s.heap.mem a ≤ b) ∧
        (∀ a ∈ F.erase base ∪ s.live, ∀ x, a ≤ x → x < a + len s.heap.mem a → Given s.heap.calls x) ∧
        (∑ a ∈ F, (s.heap.mem a).size + ∑ a ∈ s.live, (s.heap.mem a).size) * sizeofHeader = given s.heap.calls ∧
        ((∀ n p, (n, some p) ∈ s.heap.calls → p % sizeofHeader = 0) →
          ∀ a ∈ s.live, (a + sizeofHeader) % sizeofHeader = 0)) ∧
    (∀ a ∈ s.live, s.asked a + sizeofHeader ≤ len s.heap.mem a) ∧
    (∀ nbytes, Fits nbytes → ∃ N r H, (∀ fuel, N ≤ fuel → malloc sbrk base fuel nbytes s.heap = some (r, H)) ∧
      (r = 0 ∨ ∃ a, a ∉ s.live ∧ r = a + sizeofHeader ∧ nbytes + sizeofHeader ≤ len H.mem a)) ∧
    ∀ a ∈ s.live, ∃ N H, ∀ fuel, N ≤ fuel → free fuel (a + sizeofHeader) s.heap = some H := by
  have hi := inv_reach hfresh hbound h
  refine ⟨?_, ?_, fun nbytes hfits => ?_, fun a ha => ?_⟩
  · rcases hi with hi | ⟨F, hg, -⟩
    · exact .inl hi
    · have hb := hg.blocks
      refine .inr ⟨F, hg.freep, hb.ring, hb.root, fun a ha hne => hg.not_adjacent ha hne,
        disjoint_right.mpr hb.live, hb.tiling.apart, hb.tiling.inside, ?_, fun hc a ha => ?_⟩
      · have hdisj : Disjoint (F.erase base) s.live :=
          disjoint_right.mpr fun a ha hF => hb.live a ha (mem_of_mem_erase hF)
        rw [← hb.tiling.total, sum_union hdisj, Nat.add_mul, sum_mul, sum_mul,
          ← add_sum_erase F _ hb.ring.mem, hb.root, Nat.zero_mul, Nat.zero_add]
        rfl
      · rw [Nat.add_mod_right]
        exact hb.aligned hc a (Blocks.mem_of_live ha)
  · rcases hi with ⟨-, -, hl⟩ | ⟨F, -, hasked⟩
    · simp [hl]
    · exact hasked
  · obtain ⟨N, r, H', F', hrun, -, hor⟩ := hi.malloc_terminates hfresh hbound hfits
    refine ⟨N, r, H', hrun, ?_⟩
    rcases hor with ⟨hr, -⟩ | ⟨a, hr, ha, hsize, -⟩
    · exact .inl hr
    · exact .inr ⟨a, ha, hr, hsize⟩
  · obtain ⟨N, H', F', hrun, -⟩ := hi.free_terminates hfresh.1 ha
    exact ⟨N, H', hrun⟩

theorem morecore_calls (h : morecore sbrk fuel nu H = some (r, H')) :
    ∃ o, H'.calls = (wrap32 (max nu 4096 * sizeofHeader : Nat), o) :: H.calls := by
  have hnu : (if nu < 4096 then 4096 else nu) = max nu 4096 := by
    split_ifs <;> omega
  simp only [morecore, hnu] at h
  split at h
  · cases h
    exact ⟨none, rfl⟩
  next p _ =>
    obtain ⟨H1, hfree, hr⟩ := Option.bind_eq_some_iff.mp h
    obtain ⟨q, -, hq⟩ := Option.bind_eq_some_iff.mp hfree
    cases hq
    cases hr
    exact ⟨some p, rfl⟩

theorem scan_calls : ∀ {fuel z a H}, scan sbrk nunits fuel z a H = some r →
    ∃ new, r.2.calls = new ++ H.calls ∧ ∀ c ∈ new, c.1 = wrap32 (max nunits 4096 * sizeofHeader : Nat) := by
  intro fuel
  induction fuel with
  | zero => simp [scan]
  | succ fuel ih =>
    intro z a H h
    rw [scan] at h
    split_ifs at h
    · cases h
      exact ⟨[], rfl, by simp⟩
    · cases h
      exact ⟨[], rfl, by simp⟩
    · obtain ⟨⟨p, H'⟩, hm, hr⟩ := Option.bind_eq_some_iff.mp h
      obtain ⟨o, hcalls⟩ := morecore_calls hm
      simp only at hr
      split_ifs at hr
      · cases hr
        exact ⟨[_], hcalls, by simp⟩
      · obtain ⟨new, hnew, hargs⟩ := ih hr
        refine ⟨new ++ [_], by rw [hnew, hcalls, List.append_assoc, List.singleton_append], fun c hc => ?_⟩
        rcases List.mem_append.mp hc with hc | hc
        · exact hargs c hc
        · rw [List.mem_singleton.mp hc]
    · exact ih h

-- malloc() of a program whose requests fit: what it returns and what the headers say is
-- memory from sbrk(), whose arguments are not negative.
theorem malloc_obtains (hfresh : Fresh base sbrk) (hbound : Bounded sbrk) (h : Reach Start (Step sbrk base) s)
    (hfits : Fits nbytes) :
    ∃ N r H F L, (∀ fuel, N ≤ fuel → malloc sbrk base fuel nbytes s.heap = some (r, H)) ∧
      (r = 0 ∧ L = s.live ∨ (∀ x, r ≤ x → x < r + nbytes → Given H.calls x) ∧
        ∃ a, r = a + sizeofHeader ∧ nbytes + sizeofHeader ≤ len H.mem a ∧ a ∉ s.live ∧ L = insert a s.live) ∧
      Cyclic F base (fun a => (H.mem a).ptr) ∧
      (∀ a ∈ F.erase base ∪ L, ∀ x, a ≤ x → x < a + len H.mem a → Given H.calls x) ∧
      (∀ a ∈ F.erase base ∪ L, ∀ b ∈ F.erase base ∪ L, a < b → a + len H.mem a ≤ b) ∧
      ∃ new, H.calls = new ++ s.heap.calls ∧ ∀ c ∈ new, 0 ≤ c.1 := by
  obtain ⟨N, r, H, F, hrun, -, hor⟩ := (inv_reach hfresh hbound h).malloc_terminates hfresh hbound hfits
  have hcalls : ∃ new, H.calls = new ++ s.heap.calls ∧ ∀ c ∈ new, 0 ≤ c.1 := by
    obtain ⟨new, hnew, hargs⟩ := scan_calls (hrun N le_rfl)
    refine ⟨new, ?_, fun c hc => hargs c hc ▸ (toNat_wrap32 hfits).2⟩
    rw [hnew, init]
    split_ifs <;> rfl
  rcases hor with ⟨hr, hg⟩ | ⟨a, hr, ha, hsize, hg⟩
  · exact ⟨N, r, H, F, s.live, hrun, .inl ⟨hr, rfl⟩, hg.blocks.ring, hg.blocks.tiling.inside,
      hg.blocks.tiling.apart, hcalls⟩
  · refine ⟨N, r, H, F, insert a s.live, hrun, .inr ⟨fun x h1 h2 => ?_, a, hr, hsize, ha, rfl⟩, hg.blocks.ring,
      hg.blocks.tiling.inside, hg.blocks.tiling.apart, hcalls⟩
    exact hg.blocks.tiling.inside a (Blocks.mem_of_live (mem_insert_self ..)) x (by omega) (by omega)

-- An sbrk() that gives memory at an address once.
def onceAt (p : Nat) : Sbrk := fun calls n => if calls = [] ∧ n ≤ 2 ^ 20 then some p else none

theorem onceAt_fresh (hp : 4096 + sizeofHeader ≤ p) (hp' : p ≤ 2 ^ 32) : Fresh 4096 (onceAt p) := by
  refine ⟨by decide, fun calls n q hq hn => ?_⟩
  simp only [onceAt] at hq
  split_ifs at hq with hc
  obtain ⟨rfl, hle⟩ := hc
  obtain rfl : p = q := by simpa using hq
  exact ⟨hp, by omega, by simp⟩

theorem onceAt_bounded (p : Nat) : Bounded (onceAt p) := by
  intro calls n q hq
  simp only [onceAt] at hq
  split_ifs at hq with hc
  obtain ⟨rfl, hle⟩ := hc
  simp only [given, List.map_nil, List.sum_nil, sizeofHeader]
  omega

def sampleState : State where
  heap := { mem := fun _ => { ptr := 0, size := 0 }, freep := 0, calls := [] }
  live := ∅
  asked := fun _ => 0

theorem sampleState_start : Start sampleState := ⟨rfl, rfl, rfl⟩

def run (sbrk : Sbrk) (events : List Event) : Option State :=
  events.foldlM (fun s e => if e.enabled s then s.next sbrk 4096 e else none) sampleState

theorem reach_run (h : run sbrk events = some s) : Reach Start (Step sbrk 4096) s := by
  refine Reach.foldlM (fun s e t he => ?_) (.start sampleState_start) h
  split_ifs at he with hen
  exact ⟨e, hen, he⟩

theorem user_heap_once : ∃ s : State, s.live = {130944} ∧ s.asked 130944 + sizeofHeader ≤ len s.heap.mem 130944 := by
  obtain ⟨s, hs, hlive⟩ : ∃ s, run (onceAt 65536) [.malloc 9 100] = some s ∧ s.live = {130944} :=
    exists_of_any (by decide +kernel)
  exact ⟨s, hlive, (user_heap (onceAt_fresh (by decide) (by decide)) (onceAt_bounded _) (reach_run hs)).2.1 _ (by
    simp [hlive])⟩

theorem malloc_obtains_once : ∃ N r H, (∀ fuel, N ≤ fuel → malloc (onceAt 65536) 4096 fuel 100 sampleState.heap =
    some (r, H)) ∧ (r = 0 ∨ ∀ x, r ≤ x → x < r + 100 → Given H.calls x) := by
  obtain ⟨N, r, H, F, L, hrun, hor, -⟩ := malloc_obtains (onceAt_fresh (p := 65536) (by decide) (by decide))
    (onceAt_bounded _) (.start sampleState_start) (show Fits 100 by decide)
  exact ⟨N, r, H, hrun, hor.imp And.left And.left⟩

-- 2^32 + 16 bytes are asked for as 16, and 2^32 - 4080 as -4080.
theorem malloc_obtains_less : ∃ sbrk s, Fresh 4096 sbrk ∧ Bounded sbrk ∧ Reach Start (Step sbrk 4096) s ∧
    (∃ H, malloc sbrk 4096 9 4294967295 s.heap = some (65552, H) ∧ H.calls = [(16, some 65536)] ∧
      (H.mem 65536).size = 268435457 ∧ ¬Given H.calls 65552) ∧
    ∃ r H, malloc sbrk 4096 9 4294963200 s.heap = some (r, H) ∧ (-4080, some 65536) ∈ H.calls := by
  refine ⟨onceAt 65536, sampleState, onceAt_fresh (by decide) (by decide), onceAt_bounded _,
    .start sampleState_start, ?_, ?_⟩
  · obtain ⟨⟨r, H⟩, hm, rfl, hcalls, hsize⟩ : ∃ r, malloc (onceAt 65536) 4096 9 4294967295 sampleState.heap = some r ∧
        r.1 = 65552 ∧ r.2.calls = [(16, some 65536)] ∧ (r.2.mem 65536).size = 268435457 :=
      exists_of_any (by decide +kernel)
    refine ⟨H, hm, hcalls, hsize, ?_⟩
    rintro ⟨n, p, hc, hle, hlt⟩
    rw [hcalls] at hc
    obtain ⟨rfl, rfl⟩ : n = 16 ∧ p = 65536 := by simpa using hc
    omega
  · obtain ⟨⟨r, H⟩, hm, hr⟩ : ∃ r, malloc (onceAt 65536) 4096 9 4294963200 sampleState.heap = some r ∧
        (-4080, some 65536) ∈ r.2.calls :=
      exists_of_any (by decide +kernel)
    exact ⟨r, H, hm, hr⟩

-- An sbrk() that gives memory behind what it gave before.
def brk : Calls → Nat
  | [] => 65536
  | (n, some p) :: calls => max (p + n.toNat) (brk calls)
  | (_, none) :: calls => brk calls

def growing : Sbrk := fun calls n => if brk calls + n.toNat ≤ 2 ^ 64 then some (brk calls) else none

theorem le_brk : ∀ calls : Calls, 65536 ≤ brk calls ∧ ∀ m q, (m, some q) ∈ calls → q + m.toNat ≤ brk calls := by
  intro calls
  induction calls with
  | nil => simp [brk]
  | cons c calls ih =>
    obtain ⟨n, p⟩ := c
    obtain ⟨hlow, hle⟩ := ih
    cases p with
    | none =>
      refine ⟨hlow, fun m q hq => hle m q ?_⟩
      simpa using hq
    | some p =>
      refine ⟨le_max_of_le_right hlow, fun m q hq => ?_⟩
      rcases List.mem_cons.mp hq with heq | hq
      · obtain ⟨rfl, rfl⟩ : m = n ∧ q = p := by simpa using heq
        exact le_max_left ..
      · exact le_max_of_le_right (hle m q hq)

theorem growing_fresh : Fresh 4096 growing := by
  refine ⟨by decide, fun calls n p hp hn => ?_⟩
  simp only [growing] at hp
  split_ifs at hp with hc
  obtain rfl : brk calls = p := by simpa using hp
  obtain ⟨hlow, hle⟩ := le_brk calls
  exact ⟨le_trans (by decide) hlow, hc, hle⟩

-- 33 blocks of nearly 2 GiB, which are freed again.
def sampleWrap : List Event :=
  List.replicate 33 (.malloc 9 0x7fffffe0) ++ (List.range 33).map fun i => .free 9 (65536 + i * 0x7ffffff0 + sizeofHeader)

-- A pointer that is not aligned, and a size that wraps.
theorem user_heap_unaligned_wraps :
    (∃ sbrk s, Fresh 4096 sbrk ∧ Reach Start (Step sbrk 4096) s ∧ ∃ a ∈ s.live, (a + sizeofHeader) % sizeofHeader ≠ 0) ∧
    ∃ sbrk s, Fresh 4096 sbrk ∧ Reach Start (Step sbrk 4096) s ∧ s.heap.freep ≠ 0 ∧
      ∀ F, Cyclic F 4096 (fun a => (s.heap.mem a).ptr) →
        (∑ a ∈ F, (s.heap.mem a).size + ∑ a ∈ s.live, (s.heap.mem a).size) * sizeofHeader ≠ given s.heap.calls := by
  constructor
  · obtain ⟨s, hs, hlive⟩ : ∃ s, run (onceAt 65537) [.malloc 9 100] = some s ∧ 130945 ∈ s.live :=
      exists_of_any (by decide +kernel)
    exact ⟨_, s, onceAt_fresh (by decide) (by decide), reach_run hs, 130945, hlive, by decide⟩
  · obtain ⟨s, hs, hfreep, hnext, hnext', hsize, hlive, hgiven⟩ : ∃ s, run growing sampleWrap = some s ∧
        s.heap.freep = 65536 ∧ (s.heap.mem 4096).ptr = 65536 ∧ (s.heap.mem 65536).ptr = 4096 ∧
        (s.heap.mem 4096).size + (s.heap.mem 65536).size = 134217695 ∧ s.live = ∅ ∧ given s.heap.calls =
        70866959856 :=
      exists_of_any (by decide +kernel)
    refine ⟨_, s, growing_fresh, reach_run hs, by omega, fun F hF => ?_⟩
    -- the ring has two nodes
    have hsub : F ⊆ {4096, 65536} := by
      intro q hq
      obtain ⟨k, rfl⟩ := hF.reach_from_least _ q hq rfl
      clear hq
      induction k with
      | zero => simp
      | succ k ih =>
        rw [Function.iterate_succ_apply']
        rcases mem_insert.mp ih with heq | heq
        · simp [heq, hnext]
        · simp [mem_singleton.mp heq, hnext']
    have hle := sum_le_sum_of_subset (f := fun a => (s.heap.mem a).size) hsub
    rw [sum_pair (by decide)] at hle
    rw [hgiven, hlive, sum_empty]
    simp only [sizeofHeader]
    omega

end Xv6.Umalloc
