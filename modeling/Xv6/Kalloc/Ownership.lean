import Xv6.Kalloc.Theorems

namespace Xv6.Kalloc

open Lib

-- The calls of a run, latest first. A call of kalloc records what it returned.
inductive Event where
  | kalloc (r : Nat)
  | incref (pa : Nat)
  | kfree (pa : Nat)

-- The references on page `a`: one for the kalloc that returned it, plus the
-- increfs and minus the kfrees since then.
def refs : List Event → Nat → Int
  | [], _ => 0
  | .kalloc r :: before, a => if r = a ∧ r ≠ 0 then 1 else refs before a
  | .incref pa :: before, a => if pa = a then refs before a + 1 else refs before a
  | .kfree pa :: before, a => if pa = a then refs before a - 1 else refs before a

-- The runs after kinit, one call at a time. Only a page with a reference is
-- passed to incref and kfree, and a holder may write to its page in between.
inductive Run (L : Layout) (mem : Nat → Fin 512 → BitVec 64) : List Event → Phys → Prop
  | boot {s : Phys} (h : kinit L mem = .ok s) : Run L mem [] s
  | kalloc {s t : Phys} {before : List Event} {r : Nat} (h : Run L mem before s)
      (hs : Xv6.kalloc s = .ok (r, t)) : Run L mem (.kalloc r :: before) t
  | incref {s t : Phys} {before : List Event} {pa : Nat} (h : Run L mem before s)
      (hr : 0 < refs before pa) (hs : Xv6.incref pa s = .ok t) : Run L mem (.incref pa :: before) t
  | kfree {s t : Phys} {before : List Event} {pa : Nat} (h : Run L mem before s)
      (hr : 0 < refs before pa) (hs : Xv6.kfree L pa s = .ok t) : Run L mem (.kfree pa :: before) t
  | write {s : Phys} {before : List Event} {pa : Nat} (h : Run L mem before s)
      (hr : 0 < refs before pa) (i : Fin 512) (w : BitVec 64) : Run L mem before (s.store pa i w)

-- No page ever has 2^31 references, the first number an `int` cannot hold.
def Bounded (events : List Event) : Prop :=
  ∀ before, before <:+ events → ∀ a, refs before a < 0x80000000

structure Owned (L : Layout) (events : List Event) (s : Phys) (free : List Nat) : Prop where
  chain : Chain s.next 0 s.freelist free
  nodup : free.Nodup
  range : ∀ a ∈ free, a % PGSIZE = 0 ∧ L.kend ≤ a ∧ a < PHYSTOP
  free_iff : ∀ a, IsPage L a → (a ∈ free ↔ s.refcount (a / PGSIZE) = 0)
  count : ∀ a, 0 < refs events a → s.refcount (a / PGSIZE) = refs events a
  fresh : ∀ r t, Xv6.kalloc s = .ok (r, t) → r ≠ 0 → refs events r = 0
  partition : ∀ a, IsPage L a ↔ (a ∈ free ∧ refs events a = 0) ∨ (a ∉ free ∧ 0 < refs events a)
  no_panic : (∃ r t, Xv6.kalloc s = .ok (r, t)) ∧ ∀ a, 0 < refs events a →
    (∃ t, Xv6.incref a s = .ok t) ∧ ∃ t, Xv6.kfree L a s = .ok t

variable {L : Layout} {mem : Nat → Fin 512 → BitVec 64} {s : Phys} {events before : List Event}

theorem Bounded.tail (h : Bounded (e :: before)) : Bounded before :=
  fun b hb => h b (hb.trans (List.suffix_cons e before))

theorem Bounded.cons (h : Bounded before) (he : ∀ a, refs (e :: before) a < 0x80000000) :
    Bounded (e :: before) := by
  intro b hb
  rcases List.suffix_cons_iff.mp hb with rfl | hb
  · exact he
  · exact h b hb

theorem bounded_nil : Bounded [] := by
  intro b hb a
  rw [List.suffix_nil.mp hb]
  exact (by decide : (0 : Int) < 0x80000000)

theorem refs_kalloc (hr : r ≠ 0) :
    refs (.kalloc r :: before) = Function.update (refs before) r 1 := by
  funext a
  by_cases ha : r = a
  · subst ha
    simp [refs, hr]
  · simp [refs, ha, Function.update_of_ne (Ne.symm ha)]

theorem refs_kalloc_zero : refs (.kalloc 0 :: before) = refs before := by
  funext a
  simp [refs]

theorem refs_incref (pa : Nat) :
    refs (.incref pa :: before) = Function.update (refs before) pa (refs before pa + 1) := by
  funext a
  by_cases ha : pa = a
  · subst ha
    simp [refs]
  · simp [refs, ha, Function.update_of_ne (Ne.symm ha)]

theorem refs_kfree (pa : Nat) :
    refs (.kfree pa :: before) = Function.update (refs before) pa (refs before pa - 1) := by
  funext a
  by_cases ha : pa = a
  · subst ha
    simp [refs]
  · simp [refs, ha, Function.update_of_ne (Ne.symm ha)]

def RunInv (L : Layout) (events : List Event) (s : Phys) (free : List Nat) : Prop :=
  AllocInv L s free (refs events) ∧ ∀ a, ¬IsPage L a → refs events a = 0

theorem RunInv.isPage (h : RunInv L events s free) (hr : 0 < refs events a) : IsPage L a := by
  by_contra hn
  rw [h.2 a hn] at hr
  omega

section

variable (h : RunInv L before s free)
include h

theorem RunInv.update (hp : IsPage L pa) (he : refs events = Function.update (refs before) pa n)
    (hinv : AllocInv L t free' (Function.update (refs before) pa n)) : RunInv L events t free' := by
  refine ⟨he ▸ hinv, ?_⟩
  intro a ha
  have hne : a ≠ pa := by
    rintro rfl
    exact ha hp
  rw [he, Function.update_of_ne hne]
  exact h.2 a ha

theorem RunInv.kalloc (hs : Xv6.kalloc s = .ok (r, t)) : ∃ free', RunInv L (.kalloc r :: before) t free' := by
  cases free with
  | nil =>
    rw [kalloc_empty h.1] at hs
    cases hs
    exact ⟨[], by unfold RunInv; rw [refs_kalloc_zero]; exact h⟩
  | cons a rest =>
    have hp := h.1.page a (by simp)
    obtain ⟨t', ht, hinv, -⟩ := kalloc_cons h.1
    rw [ht] at hs
    cases hs
    exact ⟨rest, h.update hp (refs_kalloc (Nat.ne_of_gt hp.pos)) hinv⟩

theorem RunInv.incref (hr : 0 < refs before pa) (hb : refs before pa + 1 < 0x80000000)
    (hs : Xv6.incref pa s = .ok t) : RunInv L (.incref pa :: before) t free := by
  obtain ⟨t', ht, hinv, -⟩ := incref_spec h.1 (h.isPage hr) hr hb
  rw [ht] at hs
  cases hs
  exact h.update (h.isPage hr) (refs_incref pa) hinv

theorem RunInv.kfree (hr : 0 < refs before pa) (hs : Xv6.kfree L pa s = .ok t) :
    ∃ free', RunInv L (.kfree pa :: before) t free' := by
  have hp := h.isPage hr
  by_cases hone : refs before pa = 1
  · obtain ⟨t', ht, hinv, -⟩ := kfree_last h.1 hp hone
    rw [ht] at hs
    cases hs
    exact ⟨pa :: free, h.update hp (by rw [refs_kfree, hone]; rfl) hinv⟩
  · obtain ⟨t', ht, hinv, -⟩ := kfree_shared h.1 hp (by omega)
    rw [ht] at hs
    cases hs
    exact ⟨free, h.update hp (refs_kfree pa) hinv⟩

theorem RunInv.write (hr : 0 < refs before pa) : RunInv L before (s.store pa i w) free := by
  refine ⟨h.1.frame rfl rfl ?_, h.2⟩
  intro a ha
  have hne : a ≠ pa := by
    rintro rfl
    have hz := (h.1.mem_free a (h.1.page a ha)).mp ha
    omega
  simp [Phys.store, hne]

end

theorem Run.inv (h : Run L mem events s) (hb : Bounded events) : ∃ free, RunInv L events s free := by
  induction h with
  | boot h =>
    obtain ⟨s', free, hs, hinv⟩ := kinit_spec L mem
    rw [hs] at h
    cases h
    exact ⟨free, hinv, fun _ _ => rfl⟩
  | kalloc _ hs ih =>
    obtain ⟨free, hinv⟩ := ih hb.tail
    exact hinv.kalloc hs
  | @incref s t before pa _ hr hs ih =>
    obtain ⟨free, hinv⟩ := ih hb.tail
    have hlt := hb _ (List.suffix_refl _) pa
    rw [refs_incref, Function.update_self] at hlt
    exact ⟨free, hinv.incref hr hlt hs⟩
  | kfree _ hr hs ih =>
    obtain ⟨free, hinv⟩ := ih hb.tail
    exact hinv.kfree hr hs
  | write _ hr i w ih =>
    obtain ⟨free, hinv⟩ := ih hb
    exact ⟨free, hinv.write hr⟩

theorem RunInv.partition (h : RunInv L events s free) (a : Nat) :
    IsPage L a ↔ (a ∈ free ∧ refs events a = 0) ∨ (a ∉ free ∧ 0 < refs events a) := by
  constructor
  · intro hp
    have hf := h.1.mem_free a hp
    have hn := h.1.nonneg a hp
    by_cases hz : refs events a = 0
    · exact .inl ⟨hf.mpr hz, hz⟩
    · exact .inr ⟨fun hm => hz (hf.mp hm), by omega⟩
  · rintro (⟨hm, -⟩ | ⟨-, hr⟩)
    · exact h.1.page a hm
    · exact h.isPage hr

theorem RunInv.fresh (h : RunInv L events s free) (hs : Xv6.kalloc s = .ok (r, t)) (hr : r ≠ 0) :
    refs events r = 0 := by
  cases free with
  | nil =>
    rw [kalloc_empty h.1] at hs
    cases hs
    exact absurd rfl hr
  | cons a rest =>
    have hz := (h.1.mem_free a (h.1.page a (by simp))).mp (by simp)
    obtain ⟨t', ht, -⟩ := kalloc_cons h.1
    rw [ht] at hs
    cases hs
    exact hz

theorem RunInv.kalloc_ok (h : RunInv L events s free) : ∃ r t, Xv6.kalloc s = .ok (r, t) := by
  cases free with
  | nil => exact ⟨0, s, kalloc_empty h.1⟩
  | cons a rest =>
    obtain ⟨t, ht, -⟩ := kalloc_cons h.1
    exact ⟨a, t, ht⟩

theorem RunInv.release_ok (h : RunInv L events s free) (hr : 0 < refs events a) :
    ∃ t, Xv6.kfree L a s = .ok t := by
  by_cases hone : refs events a = 1
  · obtain ⟨t, ht, -⟩ := kfree_last h.1 (h.isPage hr) hone
    exact ⟨t, ht⟩
  · obtain ⟨t, ht, -⟩ := kfree_shared h.1 (h.isPage hr) (by omega)
    exact ⟨t, ht⟩

-- As long as no count reaches 2^31, every run keeps the free pages, the counts
-- and the outstanding references in agreement, and no call of it panics.
theorem pages_owned (h : Run L mem events s) (hb : Bounded events) :
    ∃ free, Owned L events s free := by
  obtain ⟨free, hinv⟩ := h.inv hb
  refine ⟨free, hinv.1.chain, hinv.1.nodup, hinv.1.page, ?_, ?_, fun r t => hinv.fresh,
    hinv.partition, hinv.kalloc_ok, fun a hr => ⟨?_, hinv.release_ok hr⟩⟩
  · intro a hp
    rw [hinv.1.count a hp, hinv.1.mem_free a hp]
  · intro a hr
    exact hinv.1.count a (hinv.isPage hr)
  · exact ⟨_, incref_of_index (pa2pageindex_page (hinv.isPage hr))⟩

theorem exists_booted : ∃ s a rest refs, kinit sampleLayout (fun _ _ => 0) = .ok s ∧
    AllocInv sampleLayout s (a :: rest) refs ∧ refs = fun _ => 0 := by
  obtain ⟨s, free, hs, hinv⟩ := kinit_spec sampleLayout fun _ _ => 0
  cases free with
  | nil =>
    have hm := (hinv.mem_free 0x80022000 (by decide)).mpr rfl
    simp at hm
  | cons a rest => exact ⟨s, a, rest, _, hs, hinv, rfl⟩

theorem exists_first_kalloc : ∃ s a, Run sampleLayout (fun _ _ => 0) [.kalloc a] s ∧ a ≠ 0 ∧
    Bounded [.kalloc a] ∧ ∃ free, RunInv sampleLayout [.kalloc a] s free := by
  obtain ⟨s, a, rest, refs', hs, hinv, rfl⟩ := exists_booted
  have hrun : RunInv sampleLayout [] s (a :: rest) := ⟨hinv, fun _ _ => rfl⟩
  have hne := Nat.ne_of_gt (hinv.page a (by simp)).pos
  obtain ⟨t, ht, -⟩ := kalloc_cons hinv
  refine ⟨t, a, .kalloc (.boot hs) ht, hne, bounded_nil.cons ?_, hrun.kalloc ht⟩
  intro b
  simp only [refs]
  split_ifs <;> omega

theorem exists_incref_run (n : Nat) (hn : n + 1 < 0x80000000) :
    ∃ events s free a, Run sampleLayout (fun _ _ => 0) events s ∧ Bounded events ∧
      RunInv sampleLayout events s free ∧ refs events a = n + 1 := by
  induction n with
  | zero =>
    obtain ⟨s, a, hs, hne, hb, free, hinv⟩ := exists_first_kalloc
    exact ⟨_, s, free, a, hs, hb, hinv, by simp [refs, hne]⟩
  | succ n ih =>
    obtain ⟨events, s, free, a, hrun, hb, hinv, hr⟩ := ih (by omega)
    have hpos : 0 < refs events a := by omega
    obtain ⟨t, ht, -⟩ := incref_spec hinv.1 (hinv.isPage hpos) hpos (by omega)
    refine ⟨.incref a :: events, t, free, a, .incref hrun hpos ht, hb.cons ?_,
      hinv.incref hpos (by omega) ht, ?_⟩
    · intro b
      have hlt := hb events (List.suffix_refl _) b
      simp only [refs]
      split_ifs with hab
      · subst hab
        omega
      · exact hlt
    · simp only [refs, if_true, hr]
      omega

theorem pages_owned_shared_page : ∃ events a s, Run sampleLayout (fun _ _ => 0)
    (.kfree a :: events) s ∧ refs (.kfree a :: events) a = 1 ∧ Bounded (.kfree a :: events) ∧
    ∃ free, Owned sampleLayout (.kfree a :: events) s free := by
  obtain ⟨events, s, free, a, hrun, hb, hinv, hr⟩ := exists_incref_run 1 (by omega)
  obtain ⟨u, hu⟩ := hinv.release_ok (a := a) (by omega)
  have hb' : Bounded (.kfree a :: events) := by
    apply hb.cons
    intro b
    have hlt := hb events (List.suffix_refl _) b
    simp only [refs]
    split_ifs <;> omega
  have hrun' := Run.kfree hrun (by omega) hu
  refine ⟨events, a, u, hrun', ?_, hb', pages_owned hrun' hb'⟩
  simp only [refs, if_true, hr]
  omega

-- One reference too many: the 2^31st reference on a page leaves -2^31 in its
-- count, so that the count no longer equals the outstanding references.
theorem refcount_overflows : ∃ events s a, Run sampleLayout (fun _ _ => 0) events s ∧
    0 < refs events a ∧ s.refcount (a / PGSIZE) ≠ refs events a := by
  obtain ⟨events, s, free, a, hrun, -, hinv, hr⟩ := exists_incref_run 0x7ffffffe (by decide)
  have hpos : 0 < refs events a := by omega
  have hp := hinv.isPage hpos
  refine ⟨_, _, a, .incref hrun hpos (incref_of_index (pa2pageindex_page hp)), ?_, ?_⟩
  · simp only [refs, if_true, hr]
    omega
  · simp only [Function.update_self, refs, if_true, hr, hinv.1.count a hp]
    decide

end Xv6.Kalloc
