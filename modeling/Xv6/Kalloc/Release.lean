import Mathlib.Data.Finset.Card
import Xv6.Lib.Reach
import Xv6.Kalloc.Ownership

namespace Xv6.Kalloc

open Lib Function List

-- Where a process stands inside kfree(pa) or kalloc(). Each step below is one
-- lock-protected section, or one memset of a page that is on no list.
inductive Pc where
  | decref (pa : Nat)
  | getref (pa : Nat)
  | junk (pa : Nat)
  | push (pa : Nat)
  | pop
  | fill (r : Nat)
  | incref (r : Nat)
  | done
  deriving DecidableEq

-- `pushes` counts how often each page was put on the free list.
structure Conc where
  phys : Phys
  pc : Nat → Pc
  pushes : Nat → Nat

def Conc.goto (s : Conc) (t : Nat) (c : Pc) : Conc := { s with pc := update s.pc t c }

def step (s : Conc) (t : Nat) : Except Panic Conc :=
  match s.pc t with
  | .decref pa => do
      let p ← Xv6.decref pa s.phys
      return { s with phys := p }.goto t (.getref pa)
  | .getref pa => do
      let rc ← Xv6.getref pa s.phys
      return s.goto t (if 0 < rc then .done else .junk pa)
  | .junk pa => return { s with phys := s.phys.memset pa 1 }.goto t (.push pa)
  | .push pa =>
    return { s with
      phys := kmemPush pa s.phys
      pushes := update s.pushes pa (s.pushes pa + 1) }.goto t .done
  | .pop =>
    let (r, p) := kmemPop s.phys
    return { s with phys := p }.goto t (if r = 0 then .done else .fill r)
  | .fill r => return { s with phys := s.phys.memset r 5 }.goto t (.incref r)
  | .incref r => do
      let p ← Xv6.incref r s.phys
      return { s with phys := p }.goto t .done
  | .done => return s

-- `k` holders of page `pa` are about to call kfree on it, one for each of its
-- references, while any number of other processes are about to call kalloc.
structure Start (L : Layout) (mem : Nat → Fin 512 → BitVec 64) (pa k : Nat) (s : Conc) : Prop where
  run : ∃ events, Run L mem events s.phys ∧ Bounded events ∧ refs events pa = k
  pos : 0 < k
  holder : ∀ t, t < k → s.pc t = .decref pa
  other : ∀ t, k ≤ t → s.pc t = .pop
  fresh : s.pushes = fun _ => 0

def Step (s u : Conc) : Prop := ∃ t, step s t = .ok u

-- The drop of the last reference does not overtake a releaser that has
-- decremented the count and not read it back yet.
def Ordered (pa : Nat) (s : Conc) (t : Nat) : Prop :=
  s.pc t = .decref pa → s.phys.refcount (pa / PGSIZE) = 1 → ∀ u, u ≠ t → s.pc u ≠ .getref pa

def OrderedStep (pa : Nat) (s u : Conc) : Prop := ∃ t, Ordered pa s t ∧ step s t = .ok u

-- The page was pushed at most once, only after the last reference was dropped,
-- and exactly once when all of its holders have returned from kfree.
def ReleasedOnce (pa k : Nat) (s : Conc) : Prop :=
  s.pushes pa ≤ 1 ∧ (0 < s.pushes pa → ∀ t, t < k → s.pc t ≠ .decref pa) ∧
    ((∀ t, t < k → s.pc t = .done) → s.pushes pa = 1)

def waiting (pc : Nat → Pc) (pa k : Nat) : Finset Nat :=
  (Finset.range k).filter fun t => pc t = .decref pa

structure Shape (L : Layout) (pa k : Nat) (s : Conc) (l : List Nat) : Prop where
  chain : Chain s.phys.next 0 s.phys.freelist l
  nodup : l.Nodup
  page : ∀ a ∈ l, IsPage L a
  releaser : ∀ t, t < k → s.pc t ∈ [.decref pa, .getref pa, .junk pa, .push pa, .done]
  other : ∀ t, k ≤ t → s.pc t ∈ [.pop, .done] ∨
    ∃ r, s.pc t ∈ [.fill r, .incref r] ∧ IsPage L r ∧ r ∉ l

-- Until the push, the count is the number of releasers that are still to drop
-- their reference. Once it is zero, a single releaser is left.
structure Pending (pa k : Nat) (s : Conc) (l : List Nat) : Prop where
  pushes : s.pushes pa = 0
  out : pa ∉ l
  kept : ∀ t, s.pc t ≠ .fill pa ∧ s.pc t ≠ .incref pa
  count : s.phys.refcount (pa / PGSIZE) = (waiting s.pc pa k).card
  early : 0 < (waiting s.pc pa k).card → ∀ t, s.pc t ≠ .junk pa ∧ s.pc t ≠ .push pa
  last : (waiting s.pc pa k).card = 0 → ∃ u, u < k ∧ s.pc u ≠ .done ∧
    ∀ t, t < k → t ≠ u → s.pc t = .done

structure Released (pa k : Nat) (s : Conc) : Prop where
  pushes : s.pushes pa = 1
  done : ∀ t, t < k → s.pc t = .done

def ReleaseInv (L : Layout) (pa k : Nat) (s : Conc) : Prop :=
  IsPage L pa ∧ k < 0x80000000 ∧ ∃ l, Shape L pa k s l ∧ (Pending pa k s l ∨ Released pa k s)

variable {L : Layout} {pa k t : Nat} {s u : Conc} {l : List Nat} {c : Pc}

theorem waiting_update_of_ne (h : pc t ≠ .decref pa) (hc : c ≠ .decref pa) :
    waiting (update pc t c) pa k = waiting pc pa k := by
  apply Finset.filter_congr
  intro v _
  by_cases hv : v = t
  · subst hv
    simp [h, hc]
  · rw [update_of_ne hv]

theorem waiting_update_erase (ht : t < k) (h : pc t = .decref pa) (hc : c ≠ .decref pa) :
    (waiting (update pc t c) pa k).card + 1 = (waiting pc pa k).card := by
  have he : waiting (update pc t c) pa k = (waiting pc pa k).erase t := by
    ext v
    by_cases hv : v = t
    · subst hv
      simp [waiting, hc]
    · simp [waiting, hv]
  have hm : t ∈ waiting pc pa k := by simp [waiting, ht, h]
  rw [he, Finset.card_erase_add_one hm]

theorem Shape.move (h : Shape L pa k s l) (hf : u.phys.freelist = s.phys.freelist)
    (hm : ∀ a ∈ l, u.phys.mem a = s.phys.mem a) (hpc : u.pc = update s.pc t c)
    (hr : t < k → c ∈ [.decref pa, .getref pa, .junk pa, .push pa, .done])
    (ho : k ≤ t → c ∈ [.pop, .done] ∨ ∃ r, c ∈ [.fill r, .incref r] ∧ IsPage L r ∧ r ∉ l) :
    Shape L pa k u l := by
  refine ⟨?_, h.nodup, h.page, ?_, ?_⟩
  · rw [hf]
    apply h.chain.congr
    intro a ha
    simp only [Phys.next, hm a ha]
  · intro v hv
    rw [hpc, update_apply]
    split_ifs with hvt
    · exact hr (hvt ▸ hv)
    · exact h.releaser v hv
  · intro v hv
    rw [hpc, update_apply]
    split_ifs with hvt
    · exact ho (hvt ▸ hv)
    · exact h.other v hv

theorem Shape.pop (h : Shape L pa k s (r :: l)) (ht : k ≤ t)
    (hf : u.phys.freelist = s.phys.next r) (hm : u.phys.mem = s.phys.mem)
    (hpc : u.pc = update s.pc t (.fill r)) : Shape L pa k u l := by
  obtain ⟨-, -, htail⟩ := h.chain
  obtain ⟨hrl, hnd⟩ := nodup_cons.mp h.nodup
  refine ⟨?_, hnd, fun a ha => h.page a (by simp [ha]), ?_, ?_⟩
  · rw [hf]
    apply htail.congr
    intro a _
    simp only [Phys.next, hm]
  · intro v hv
    have hvt : v ≠ t := by omega
    rw [hpc, update_of_ne hvt]
    exact h.releaser v hv
  · intro v hv
    rw [hpc]
    by_cases hvt : v = t
    · subst hvt
      exact .inr ⟨r, by simp, h.page r (by simp), hrl⟩
    · rw [update_of_ne hvt]
      rcases h.other v hv with ho | ⟨q, hq, hpq, hql⟩
      · exact .inl ho
      · exact .inr ⟨q, hq, hpq, fun hm => hql (by simp [hm])⟩

theorem Pending.decref (hsh : Shape L pa k s l) (h : Pending pa k s l) (ht : t < k)
    (hpc : s.pc t = .decref pa) (hord : Ordered pa s t) (hu : u.pc = update s.pc t (.getref pa))
    (hpush : u.pushes = s.pushes) (hcount : u.phys.refcount (pa / PGSIZE) = s.phys.refcount (pa / PGSIZE) - 1) :
    Pending pa k u l := by
  have hcard := waiting_update_erase (c := .getref pa) ht hpc (by simp)
  have hpos : 0 < (waiting s.pc pa k).card := by omega
  have hearly := h.early hpos
  refine ⟨by rw [hpush]; exact h.pushes, h.out, ?_, ?_, ?_, ?_⟩
  · intro v
    rw [hu, update_apply]
    split_ifs
    · simp
    · exact h.kept v
  · rw [hcount, h.count, hu]
    omega
  · intro _ v
    rw [hu, update_apply]
    split_ifs
    · simp
    · exact hearly v
  · intro hzero
    rw [hu] at hzero ⊢
    have hone : s.phys.refcount (pa / PGSIZE) = 1 := by
      rw [h.count]
      omega
    refine ⟨t, ht, by simp, ?_⟩
    intro v hv hvt
    rw [update_of_ne hvt]
    have hg := hord hpc hone v hvt
    have hd : s.pc v ≠ .decref pa := by
      intro hd
      have hm : v ∈ waiting (update s.pc t (.getref pa)) pa k := by
        simp [waiting, hv, hvt, hd]
      exact absurd hzero (Finset.card_ne_zero_of_mem hm)
    have := hsh.releaser v hv
    have := hearly v
    simp_all

theorem Pending.move (h : Pending pa k s l) (hu : u.pc = update s.pc t c) (hpush : u.pushes = s.pushes)
    (hcount : u.phys.refcount (pa / PGSIZE) = s.phys.refcount (pa / PGSIZE))
    (hout : pa ∉ l') (hd : s.pc t ≠ .decref pa) (hc : c ∉ [.decref pa, .fill pa, .incref pa])
    (hearly : 0 < (waiting s.pc pa k).card → c ∉ [.junk pa, .push pa])
    (hlast : (waiting s.pc pa k).card = 0 → t < k → s.pc t ≠ .done ∧ c ≠ .done) :
    Pending pa k u l' := by
  simp only [mem_cons, not_mem_nil, or_false, not_or] at hc hearly
  have hw : waiting u.pc pa k = waiting s.pc pa k := by
    rw [hu, waiting_update_of_ne hd hc.1]
  refine ⟨by rw [hpush]; exact h.pushes, hout, ?_, ?_, ?_, ?_⟩
  · intro v
    rw [hu, update_apply]
    split_ifs
    · exact hc.2
    · exact h.kept v
  · rw [hcount, hw]
    exact h.count
  · intro hpos v
    rw [hw] at hpos
    rw [hu, update_apply]
    split_ifs
    · exact hearly hpos
    · exact h.early hpos v
  · intro hzero
    rw [hw] at hzero
    obtain ⟨w, hwk, hwd, hrest⟩ := h.last hzero
    rw [hu]
    refine ⟨w, hwk, ?_, ?_⟩
    · rw [update_apply]
      split_ifs with hwt
      · exact (hlast hzero (hwt ▸ hwk)).2
      · exact hwd
    · intro v hv hvw
      by_cases hvt : v = t
      · subst hvt
        exact absurd (hrest v hv hvw) (hlast hzero hv).1
      · rw [update_of_ne hvt]
        exact hrest v hv hvw

theorem Released.move (h : Released pa k s) (hu : u.pc = update s.pc t c)
    (hpush : u.pushes = s.pushes) (ht : k ≤ t) : Released pa k u := by
  refine ⟨by rw [hpush]; exact h.pushes, ?_⟩
  intro v hv
  have hne : v ≠ t := by omega
  rw [hu, update_of_ne hne]
  exact h.done v hv

theorem Pending.push (h : Pending pa k s l) (ht : t < k) (hpc : s.pc t = .push pa)
    (hu : u.pc = update s.pc t .done) (hpush : u.pushes pa = s.pushes pa + 1) :
    Released pa k u := by
  refine ⟨by rw [hpush, h.pushes], ?_⟩
  have hzero : (waiting s.pc pa k).card = 0 := by
    by_contra hne
    exact (h.early (Nat.pos_of_ne_zero hne) t).2 hpc
  obtain ⟨w, -, -, hrest⟩ := h.last hzero
  intro v hv
  rw [hu, update_apply]
  split_ifs with hvt
  · rfl
  · by_cases hvw : v = w
    · have htw : t ≠ w := fun he => hvt (hvw.trans he.symm)
      rw [hrest t ht htw] at hpc
      cases hpc
    · exact hrest v hv hvw

theorem waiting_card_le (pc : Nat → Pc) (pa k : Nat) : (waiting pc pa k).card ≤ k := by
  have h := Finset.card_filter_le (Finset.range k) fun t => pc t = .decref pa
  rwa [Finset.card_range] at h

theorem Pending.decref_eq (h : Pending pa k s l) (hp : IsPage L pa) (hk : k < 0x80000000) :
    Xv6.decref pa s.phys = .ok { s.phys with
      refcount := update s.phys.refcount (pa / PGSIZE)
        (s.phys.refcount (pa / PGSIZE) - 1) } := by
  have hle := waiting_card_le s.pc pa k
  rw [decref_of_index (pa2pageindex_page hp) (by rw [h.count]; omega), wrap32_eq] <;>
    rw [h.count] <;> omega

theorem ReleaseInv.releaser_step (h : ReleaseInv L pa k s) (ht : t < k) (hord : Ordered pa s t)
    (hs : step s t = .ok u) : ReleaseInv L pa k u := by
  obtain ⟨hp, hk, l, hsh, hph⟩ := h
  have hmem := hsh.releaser t ht
  have hko : ¬k ≤ t := by omega
  rcases hph with hpend | hrel
  · have hfar : ∀ a ∈ l, a ≠ pa := by
      rintro a ha rfl
      exact hpend.out ha
    simp only [mem_cons, not_mem_nil, or_false] at hmem
    rcases hmem with hpc | hpc | hpc | hpc | hpc
    · simp only [step, hpc, hpend.decref_eq hp hk, ok_bind] at hs
      cases hs
      refine ⟨hp, hk, l, hsh.move rfl (fun _ _ => rfl) rfl (by simp) (absurd · hko), .inl ?_⟩
      exact hpend.decref hsh ht hpc hord rfl rfl (by simp [Conc.goto])
    · simp only [step, hpc, getref_of_index (pa2pageindex_page hp), ok_bind] at hs
      cases hs
      refine ⟨hp, hk, l, hsh.move rfl (fun _ _ => rfl) rfl (by split_ifs <;> simp)
        (absurd · hko), .inl ?_⟩
      -- a releaser that reads a positive count returns, the last one reads zero
      refine hpend.move rfl rfl rfl hpend.out (by simp [hpc]) (by split_ifs <;> simp) ?_ ?_
      · intro hpos
        rw [hpend.count, if_pos (by omega)]
        simp
      · intro hzero _
        rw [hpend.count, if_neg (by omega)]
        simp [hpc]
    · simp only [step, hpc] at hs
      cases hs
      refine ⟨hp, hk, l, hsh.move rfl ?_ rfl (by simp) (absurd · hko), .inl ?_⟩
      · intro a ha
        simp [Conc.goto, Phys.memset, hfar a ha]
      · refine hpend.move rfl rfl rfl hpend.out (by simp [hpc]) (by simp) ?_ (by simp [hpc])
        intro hpos
        exact absurd hpc (hpend.early hpos t).1
    · simp only [step, hpc] at hs
      cases hs
      refine ⟨hp, hk, pa :: l, ?_, .inr (hpend.push ht hpc rfl (by simp [Conc.goto]))⟩
      refine ⟨chain_kmemPush hsh.chain hsh.page hp hpend.out,
        nodup_cons.mpr ⟨hpend.out, hsh.nodup⟩, ?_, ?_, ?_⟩
      · intro a ha
        rcases mem_cons.mp ha with rfl | ha
        · exact hp
        · exact hsh.page a ha
      · intro v hv
        by_cases hvt : v = t
        · subst hvt
          simp [Conc.goto]
        · simpa [Conc.goto, hvt] using hsh.releaser v hv
      · intro v hv
        have hvt : v ≠ t := by omega
        have hkept := hpend.kept v
        simp only [Conc.goto, update_of_ne hvt]
        rcases hsh.other v hv with ho | ⟨r, hr, hpr, hrl⟩
        · exact .inl ho
        · refine .inr ⟨r, hr, hpr, ?_⟩
          simp only [mem_cons, not_or]
          refine ⟨?_, hrl⟩
          rintro rfl
          simp only [mem_cons, not_mem_nil, or_false] at hr
          rcases hr with hr | hr
          · exact hkept.1 hr
          · exact hkept.2 hr
    · simp only [step, hpc] at hs
      cases hs
      exact ⟨hp, hk, l, hsh, .inl hpend⟩
  · have hdone := hrel.done t ht
    simp only [step, hdone] at hs
    cases hs
    exact ⟨hp, hk, l, hsh, .inr hrel⟩

theorem ReleaseInv.other_step (h : ReleaseInv L pa k s) (ht : k ≤ t) (hs : step s t = .ok u) :
    ReleaseInv L pa k u := by
  obtain ⟨hp, hk, l, hsh, hph⟩ := h
  have hkt : ¬t < k := by omega
  rcases hsh.other t ht with hmem | ⟨r, hmem, hpr, hrl⟩ <;>
    simp only [mem_cons, not_mem_nil, or_false] at hmem
  · rcases hmem with hpc | hpc
    · simp only [step, hpc, kmemPop] at hs
      cases hs
      cases l with
      | nil =>
        have hf : s.phys.freelist = 0 := hsh.chain
        simp only [hf, if_true]
        refine ⟨hp, hk, [], hsh.move rfl (by simp) rfl (absurd · hkt) (by simp), ?_⟩
        rcases hph with hpend | hrel
        · exact .inl (hpend.move rfl rfl rfl hpend.out (by simp [hpc]) (by simp) (by simp)
            (by omega))
        · exact .inr (hrel.move rfl rfl ht)
      | cons r rest =>
        have hhead := hsh.chain.1
        have hne := hsh.chain.2.1
        simp only [hhead, hne, if_false]
        refine ⟨hp, hk, rest, hsh.pop ht rfl rfl rfl, ?_⟩
        rcases hph with hpend | hrel
        · have hout := hpend.out
          simp only [mem_cons, not_or] at hout
          refine .inl (hpend.move rfl rfl rfl hout.2 (by simp [hpc]) ?_ (by simp) (by omega))
          simpa using Ne.symm hout.1
        · exact .inr (hrel.move rfl rfl ht)
    · simp only [step, hpc] at hs
      cases hs
      exact ⟨hp, hk, l, hsh, hph⟩
  · have hrpa : Pending pa k s l → r ≠ pa := by
      rintro hpend rfl
      have := hpend.kept t
      tauto
    rcases hmem with hpc | hpc
    · simp only [step, hpc] at hs
      cases hs
      refine ⟨hp, hk, l, hsh.move rfl ?_ rfl (absurd · hkt) ?_, ?_⟩
      · intro a ha
        have har : a ≠ r := by
          rintro rfl
          exact hrl ha
        simp [Conc.goto, Phys.memset, har]
      · intro _
        exact .inr ⟨r, by simp, hpr, hrl⟩
      · rcases hph with hpend | hrel
        · exact .inl (hpend.move rfl rfl rfl hpend.out (by simp [hpc])
            (by simpa using hrpa hpend) (by simp) (by omega))
        · exact .inr (hrel.move rfl rfl ht)
    · simp only [step, hpc, incref_of_index (pa2pageindex_page hpr), ok_bind] at hs
      cases hs
      refine ⟨hp, hk, l, hsh.move rfl (fun _ _ => rfl) rfl (absurd · hkt) (by simp), ?_⟩
      rcases hph with hpend | hrel
      · refine .inl (hpend.move rfl rfl ?_ hpend.out (by simp [hpc]) (by simp) (by simp) (by omega))
        have hne : pa / PGSIZE ≠ r / PGSIZE := fun he => hrpa hpend ((hp.index_inj hpr).mp he).symm
        simp only [Conc.goto, update_of_ne hne]
      · exact .inr (hrel.move rfl rfl ht)

theorem Start.releaseInv (h : Start L mem pa k s) : ReleaseInv L pa k s := by
  obtain ⟨events, hrun, hb, hr⟩ := h.run
  have hk := h.pos
  obtain ⟨free, hinv⟩ := hrun.inv hb
  have hp : IsPage L pa := hinv.isPage (by omega)
  have hlt := hinv.1.bound pa hp
  have hpc : ∀ t, s.pc t = .decref pa ∨ s.pc t = .pop := by
    intro t
    by_cases ht : t < k
    · exact .inl (h.holder t ht)
    · exact .inr (h.other t (by omega))
  have hw : waiting s.pc pa k = Finset.range k := by
    apply Finset.filter_true_of_mem
    intro t ht
    exact h.holder t (Finset.mem_range.mp ht)
  refine ⟨hp, by omega, free, ⟨hinv.1.chain, hinv.1.nodup, hinv.1.page, ?_, ?_⟩, .inl ⟨?_, ?_, ?_, ?_, ?_, ?_⟩⟩
  · intro t ht
    simp [h.holder t ht]
  · intro t ht
    simp [h.other t ht]
  · rw [h.fresh]
  · rw [hinv.1.mem_free pa hp]
    omega
  · intro t
    rcases hpc t with ht | ht <;> simp [ht]
  · rw [hw, Finset.card_range, hinv.1.count pa hp, hr]
  · intro _ t
    rcases hpc t with ht | ht <;> simp [ht]
  · intro hzero
    rw [hw, Finset.card_range] at hzero
    omega

theorem ReleaseInv.releasedOnce (h : ReleaseInv L pa k s) : ReleasedOnce pa k s := by
  obtain ⟨-, -, l, -, hpend | hrel⟩ := h
  · refine ⟨by rw [hpend.pushes]; omega, ?_, ?_⟩
    · intro hpos
      rw [hpend.pushes] at hpos
      omega
    · intro hdone
      have hzero : (waiting s.pc pa k).card = 0 := by
        rw [Finset.card_eq_zero, waiting, Finset.filter_eq_empty_iff]
        intro t ht
        rw [hdone t (Finset.mem_range.mp ht)]
        simp
      obtain ⟨w, hw, hnd, -⟩ := hpend.last hzero
      exact absurd (hdone w hw) hnd
  · refine ⟨by rw [hrel.pushes], ?_, fun _ => hrel.pushes⟩
    intro _ t ht
    rw [hrel.done t ht]
    simp

theorem ReleaseInv.step_ok (h : ReleaseInv L pa k s) (t : Nat) : ∃ u, step s t = .ok u := by
  obtain ⟨hp, hk, l, hsh, hph⟩ := h
  have hidx := pa2pageindex_page hp
  by_cases ht : t < k
  · rcases hph with hpend | hrel
    · have hmem := hsh.releaser t ht
      simp only [mem_cons, not_mem_nil, or_false] at hmem
      rcases hmem with hpc | hpc | hpc | hpc | hpc <;>
        simp [step, hpc, hpend.decref_eq hp hk, getref_of_index hidx]
    · simp [step, hrel.done t ht]
  · rcases hsh.other t (by omega) with hmem | ⟨r, hmem, hpr, -⟩ <;>
      simp only [mem_cons, not_mem_nil, or_false] at hmem
    · rcases hmem with hpc | hpc <;> simp [step, hpc]
    · rcases hmem with hpc | hpc <;>
        simp [step, hpc, incref_of_index (pa2pageindex_page hpr)]

-- If every drop of a last reference is ordered after the reads of the earlier ones, the page is
-- released exactly once.
theorem released_once_of_ordered (h : Reach (Start L mem pa k) (OrderedStep pa) s) :
    ReleasedOnce pa k s ∧ ∀ t, ∃ u, step s t = .ok u := by
  have hinv : ReleaseInv L pa k s := by
    refine h.invariant (fun s hs => hs.releaseInv) ?_
    rintro s u - hi ⟨t, hord, hs⟩
    by_cases ht : t < k
    · exact hi.releaser_step ht hord hs
    · exact hi.other_step (by omega) hs
  exact ⟨hinv.releasedOnce, hinv.step_ok⟩

-- The converse: once the last drop overtakes a releaser that has not read the
-- count back, both of them can read zero and push the page.
theorem exists_double_push (hp : IsPage L pa) (hpc : s.pc t = .decref pa)
    (hv : s.pc v = .getref pa) (hne : v ≠ t) (hone : s.phys.refcount (pa / PGSIZE) = 1) :
    ∃ u, Relation.ReflTransGen Step s u ∧ u.pushes pa = s.pushes pa + 2 := by
  have hidx := pa2pageindex_page hp
  have hw : wrap32 (1 - 1) = 0 := rfl
  let s1 : Conc := { s with
    phys := { s.phys with refcount := update s.phys.refcount (pa / PGSIZE) 0 } }.goto t (.getref pa)
  let s2 := s1.goto t (.junk pa)
  let s3 := s2.goto v (.junk pa)
  let s4 := { s3 with phys := s3.phys.memset pa 1 }.goto t (.push pa)
  let s5 := { s4 with
    phys := kmemPush pa s4.phys
    pushes := update s4.pushes pa (s4.pushes pa + 1) }.goto t .done
  let s6 := { s5 with phys := s5.phys.memset pa 1 }.goto v (.push pa)
  let s7 := { s6 with
    phys := kmemPush pa s6.phys
    pushes := update s6.pushes pa (s6.pushes pa + 1) }.goto v .done
  have hdec : Xv6.decref pa s.phys = .ok { s.phys with
      refcount := update s.phys.refcount (pa / PGSIZE) 0 } := by
    rw [decref_of_index hidx (by omega), hone, hw]
  have h1 : Step s s1 := ⟨t, by simp [step, hpc, hdec, s1]⟩
  have h2 : Step s1 s2 := ⟨t, by simp [step, s1, s2, Conc.goto, getref_of_index hidx]⟩
  have h3 : Step s2 s3 := ⟨v, by simp [step, s1, s2, s3, Conc.goto, hne, hv, getref_of_index hidx]⟩
  have h4 : Step s3 s4 := ⟨t, by simp [step, s2, s3, s4, Conc.goto, hne.symm]⟩
  have h5 : Step s4 s5 := ⟨t, by simp [step, s4, s5, Conc.goto]⟩
  have h6 : Step s5 s6 := ⟨v, by simp [step, s3, s4, s5, s6, Conc.goto, hne]⟩
  have h7 : Step s6 s7 := ⟨v, by simp [step, s6, s7, Conc.goto]⟩
  refine ⟨s7, ?_, ?_⟩
  · exact (((((((Relation.ReflTransGen.single h1).tail h2).tail h3).tail h4).tail h5).tail h6).tail h7)
  · simp [s7, s6, s5, s4, s3, s2, s1, Conc.goto]

def releaseState (p : Phys) (pa k : Nat) : Conc where
  phys := p
  pc t := if t < k then .decref pa else .pop
  pushes _ := 0

theorem exists_start (n : Nat) (hn : n + 1 < 0x80000000) : ∃ p pa, IsPage sampleLayout pa ∧
    p.refcount (pa / PGSIZE) = (n : Int) + 1 ∧
    Start sampleLayout (fun _ _ => 0) pa (n + 1) (releaseState p pa (n + 1)) := by
  obtain ⟨events, p, free, pa, hrun, hb, hinv, hr⟩ := exists_incref_run n hn
  have hp : IsPage sampleLayout pa := hinv.isPage (by omega)
  refine ⟨p, pa, hp, by rw [hinv.1.count pa hp, hr],
    ⟨events, hrun, hb, hr⟩, by omega, ?_, ?_, rfl⟩
  · intro t ht
    exact if_pos ht
  · intro t ht
    have hnt : ¬t < n + 1 := by omega
    exact if_neg hnt

theorem exists_first_drop : ∃ pa s u, IsPage sampleLayout pa ∧
    Start sampleLayout (fun _ _ => 0) pa 2 s ∧ OrderedStep pa s u ∧
    u.pc 0 = .getref pa ∧ u.pc 1 = .decref pa ∧ u.phys.refcount (pa / PGSIZE) = 1 ∧ u.pushes pa = 0 := by
  obtain ⟨p, pa, hp, hr, hstart⟩ := exists_start 1 (by omega)
  have hdec : Xv6.decref pa p = .ok { p with
      refcount := update p.refcount (pa / PGSIZE) 1 } := by
    rw [decref_of_index (pa2pageindex_page hp) (by omega), hr]
    rfl
  let u := { releaseState p pa 2 with
    phys := { p with refcount := update p.refcount (pa / PGSIZE) 1 } }.goto 0 (.getref pa)
  refine ⟨pa, _, u, hp, hstart, ⟨0, ?_, ?_⟩, ?_⟩
  · intro _ hone
    simp only [releaseState] at hone
    omega
  · simp [step, releaseState, hdec, u]
  · simp [u, Conc.goto, releaseState]

-- The second of two holders drops the last reference while the first is between decref and getref.
theorem double_release : ∃ pa s, Reach (Start sampleLayout (fun _ _ => 0) pa 2) Step s ∧
    ¬ReleasedOnce pa 2 s := by
  obtain ⟨pa, s, u, hp, hstart, ⟨t, -, ht⟩, h0, h1, hone, hz⟩ := exists_first_drop
  obtain ⟨v, hsteps, hv⟩ := exists_double_push hp h1 h0 (by omega) hone
  have hreach := (Reach.step (.start hstart) ⟨t, ht⟩).steps hsteps
  refine ⟨pa, v, hreach, ?_⟩
  rintro ⟨hle, -⟩
  omega

theorem released_once_two_holders : ∃ pa s u,
    Start sampleLayout (fun _ _ => 0) pa 2 s ∧ OrderedStep pa s u ∧
    ReleasedOnce pa 2 u ∧ ∀ t, ∃ v, step u t = .ok v := by
  obtain ⟨pa, s, u, -, hstart, hs, -⟩ := exists_first_drop
  exact ⟨pa, s, u, hstart, hs, released_once_of_ordered (.step (.start hstart) hs)⟩

end Xv6.Kalloc
