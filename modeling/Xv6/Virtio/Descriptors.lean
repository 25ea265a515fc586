import Xv6.Virtio
import Xv6.Lib.Holder
import Mathlib.Data.Fintype.Card

namespace Xv6.Virtio

open Lib Function

variable {ι β : Type} [DecidableEq ι] [DecidableEq β] {s t : State ι β} {p q : ι} {c d : Chain} {i : Fin NUM}

instance Chain.decidableHas (c : Chain) (i : Fin NUM) : Decidable (c.Has i) := inferInstanceAs (Decidable (_ ∨ _ ∨ _))

def Chain.Distinct (c : Chain) : Prop := c.head ≠ c.data ∧ c.head ≠ c.status ∧ c.data ≠ c.status

-- The descriptors are free, or belong to one call each.
structure Chains (free : Fin NUM → Bool) (chain : ι → Option Chain) : Prop where
  distinct : ∀ p c, chain p = some c → c.Distinct
  own : ∀ p c, chain p = some c → ∀ i, c.Has i → free i = false
  disjoint : ∀ p q c d, chain p = some c → chain q = some d → p ≠ q → ∀ i, c.Has i → ¬d.Has i
  cover : ∀ i, free i = false → ∃ p c, chain p = some c ∧ c.Has i

variable {free : Fin NUM → Bool} {chain chain' : ι → Option Chain}

omit [DecidableEq ι] in
theorem allocDesc_some (h : allocDesc free = some i) : free i = true := List.find?_some h

theorem allocDesc_none (h : allocDesc free = none) (i : Fin NUM) : free i = false := by
  have := List.find?_eq_none.mp h i (List.mem_finRange i)
  simpa using this

def taken3 (free : Fin NUM → Bool) (c : Chain) : Fin NUM → Bool :=
  update (update (update free c.head false) c.data false) c.status false

theorem taken3_eq (free : Fin NUM → Bool) (c : Chain) (i : Fin NUM) : taken3 free c i = if c.Has i then false else free i := by
  simp only [taken3, Chain.Has, update_apply]
  split_ifs <;> simp_all

theorem Chains.take (h : Chains free chain) (hp : chain p = none) (hc : c.Distinct)
    (hfree : ∀ i, c.Has i → free i = true) : Chains (taken3 free c) (update chain p (some c)) := by
  have hother : ∀ q d, update chain p (some c) q = some d → q = p ∧ d = c ∨ q ≠ p ∧ chain q = some d := by
    intro q d hq
    by_cases hqp : q = p
    · subst hqp
      rw [update_self] at hq
      exact .inl ⟨rfl, (Option.some.inj hq).symm⟩
    · rw [update_of_ne hqp] at hq
      exact .inr ⟨hqp, hq⟩
  -- the descriptors of a call were not free
  have hnot : ∀ q d, chain q = some d → ∀ i, d.Has i → ¬c.Has i := fun q d hq i hi hci => by
    have := h.own q d hq i hi
    simp [hfree i hci] at this
  refine ⟨fun q d hq => ?_, fun q d hq i hi => ?_, fun q q' d d' hq hq' hne i hi => ?_, fun i hi => ?_⟩
  · rcases hother q d hq with ⟨-, rfl⟩ | ⟨-, hq⟩
    · exact hc
    · exact h.distinct q d hq
  · rw [taken3_eq]
    rcases hother q d hq with ⟨-, rfl⟩ | ⟨-, hq⟩
    · rw [if_pos hi]
    · rw [if_neg (hnot q d hq i hi)]
      exact h.own q d hq i hi
  · rcases hother q d hq with ⟨hqp, hd⟩ | ⟨-, hold⟩ <;> rcases hother q' d' hq' with ⟨hqp', hd'⟩ | ⟨-, hold'⟩
    · exact absurd (hqp.trans hqp'.symm) hne
    · exact fun hi' => hnot q' d' hold' i hi' (hd ▸ hi)
    · exact hd' ▸ hnot q d hold i hi
    · exact h.disjoint q q' d d' hold hold' hne i hi
  · rw [taken3_eq] at hi
    by_cases hci : c.Has i
    · exact ⟨p, c, update_self .., hci⟩
    · rw [if_neg hci] at hi
      obtain ⟨q, d, hq, hd⟩ := h.cover i hi
      have hqp : q ≠ p := by
        rintro rfl
        simp [hp] at hq
      exact ⟨q, d, by rw [update_of_ne hqp]; exact hq, hd⟩

def freed3 (free : Fin NUM → Bool) (c : Chain) : Fin NUM → Bool :=
  update (update (update free c.head true) c.data true) c.status true

theorem freed3_eq (free : Fin NUM → Bool) (c : Chain) (i : Fin NUM) : freed3 free c i = if c.Has i then true else free i := by
  simp only [freed3, Chain.Has, update_apply]
  split_ifs <;> simp_all

theorem Chains.give (h : Chains free chain) (hp : chain p = some c) :
    Chains (freed3 free c) (update chain p none) := by
  have hother : ∀ q d, update chain p none q = some d → q ≠ p ∧ chain q = some d := by
    intro q d hq
    by_cases hqp : q = p
    · subst hqp
      simp at hq
    · rw [update_of_ne hqp] at hq
      exact ⟨hqp, hq⟩
  refine ⟨fun q d hq => h.distinct q d (hother q d hq).2, fun q d hq i hi => ?_, fun q q' d d' hq hq' hne i hi =>
    h.disjoint q q' d d' (hother q d hq).2 (hother q' d' hq').2 hne i hi, fun i hi => ?_⟩
  · obtain ⟨hqp, hq⟩ := hother q d hq
    rw [freed3_eq, if_neg (h.disjoint q p d c hq hp hqp i hi)]
    exact h.own q d hq i hi
  · rw [freed3_eq] at hi
    split_ifs at hi with hci
    obtain ⟨q, d, hq, hd⟩ := h.cover i hi
    have hqp : q ≠ p := by
      rintro rfl
      exact hci (Option.some.inj (hp.symm.trans hq) ▸ hd)
    exact ⟨q, d, by rw [update_of_ne hqp]; exact hq, hd⟩

def countFree (free : Fin NUM → Bool) : Nat := (Finset.univ.filter fun i => free i = true).card

theorem countFree_take (h : free i = true) : countFree free = countFree (update free i false) + 1 := by
  have hset : (Finset.univ.filter fun j => update free i false j = true) =
      (Finset.univ.filter fun j => free j = true).erase i := by
    ext j
    by_cases hj : j = i
    · simp [hj]
    · simp [hj]
  rw [countFree, countFree, hset, Finset.card_erase_add_one (by simp [h])]

theorem countFree_mono (h : ∀ i, free' i = true → free i = true) :
    countFree free' ≤ countFree free :=
  Finset.card_le_card fun i hi => by simpa using h i (by simpa using hi)

theorem countFree_eq_zero (h : ∀ i, free i = false) : countFree free = 0 := by
  simp [countFree, h]

theorem freeDesc_eq (h : s.disk.free i = false) (p : ι) : freeDesc p i s = .ok (s.putBack p i) := by
  simp [freeDesc, i.isLt, h]

-- Descriptors that were free already are freed.
def State.putBacks (s : State ι β) (p : ι) (is : List (Fin NUM)) : State ι β := is.foldl (fun s i => s.putBack p i) s

-- What alloc3_desc() does: it takes three free descriptors, or there are fewer. Then it has
-- freed those again that it took.
theorem alloc3Desc_spec (p : ι) (s : State ι β) :
    (∃ c : Chain, c.Distinct ∧ (∀ i, c.Has i → s.disk.free i = true) ∧
      alloc3Desc p s = .ok (some c, { s with disk := { s.disk with free := taken3 s.disk.free c } })) ∨
    (∃ is : List (Fin NUM), (∀ i ∈ is, s.disk.free i = true) ∧ countFree s.disk.free < 3 ∧
      alloc3Desc p s = .ok (none, s.putBacks p is)) := by
  cases h0 : allocDesc s.disk.free with
  | none =>
    right
    refine ⟨[], by simp, ?_, ?_⟩
    · rw [countFree_eq_zero (allocDesc_none h0)]
      decide
    · simp only [alloc3Desc, h0]
      rfl
  | some i0 =>
    have hi0 := allocDesc_some h0
    have hcount0 := countFree_take hi0
    cases h1 : allocDesc (update s.disk.free i0 false) with
    | none =>
      right
      refine ⟨[i0], by simpa using hi0, ?_, ?_⟩
      · rw [hcount0, countFree_eq_zero (allocDesc_none h1)]
        decide
      · simp only [alloc3Desc, h0, State.take, h1]
        rw [freeDesc_eq (by simp)]
        simp [State.putBacks, State.putBack, update_idem]
    | some i1 =>
      have hi1 := allocDesc_some h1
      have hne01 : i1 ≠ i0 := by
        rintro rfl
        simp at hi1
      have hcount1 := countFree_take hi1
      rw [update_of_ne hne01] at hi1
      cases h2 : allocDesc (update (update s.disk.free i0 false) i1 false) with
      | none =>
        right
        refine ⟨[i0, i1], by simp [hi0, hi1], ?_, ?_⟩
        · rw [hcount0, hcount1, countFree_eq_zero (allocDesc_none h2)]
          decide
        · simp only [alloc3Desc, h0, State.take, h1, h2]
          rw [freeDesc_eq (by simp [hne01.symm]), ok_bind, freeDesc_eq (by simp [State.putBack, hne01])]
          have hfree : update (update (update (update s.disk.free i0 false) i1
              false) i0 true) i1 true = update (update s.disk.free i0 true) i1 true := by
            funext j
            simp only [update_apply]
            split_ifs <;> rfl
          simp only [State.putBacks, State.putBack, List.foldl_cons, List.foldl_nil, hfree]
          rfl
      | some i2 =>
        left
        have hi2 := allocDesc_some h2
        have hne2 : i2 ≠ i1 ∧ i2 ≠ i0 := by
          constructor
          · rintro rfl
            simp at hi2
          · rintro rfl
            simp [hne01.symm] at hi2
        rw [update_of_ne hne2.1, update_of_ne hne2.2] at hi2
        refine ⟨⟨i0, i1, i2⟩, ⟨hne01.symm, hne2.2.symm, hne2.1.symm⟩, ?_, ?_⟩
        · rintro i (rfl | rfl | rfl)
          · exact hi0
          · exact hi1
          · exact hi2
        · simp only [alloc3Desc, h0, State.take, h1, h2]
          rfl

theorem putBacks_spec (h : ∀ i ∈ is, s.disk.free i = true) (p : ι) :
    ∃ desc tasks, s.putBacks p is = { s with disk := { s.disk with desc := desc }, tasks := tasks } ∧
      (∀ i, s.disk.free i = false → desc i = s.disk.desc i) ∧ (tasks p = s.tasks p) ∧
      ∀ q c, SleepsOn tasks q c → SleepsOn s.tasks q c := by
  induction is generalizing s with
  | nil => exact ⟨s.disk.desc, s.tasks, rfl, fun _ _ => rfl, rfl, fun _ _ hs => hs⟩
  | cons i is ih =>
    have hi : s.disk.free i = true := h i List.mem_cons_self
    have hfree : (s.putBack p i).disk.free = s.disk.free := by
      funext j
      by_cases hj : j = i
      · simp [State.putBack, hj, hi]
      · simp [State.putBack, hj]
    obtain ⟨desc, tasks, heq, hdesc, hself, hsleep⟩ := @ih (s.putBack p i) fun j hj => by
      rw [hfree]
      exact h j (List.mem_cons_of_mem _ hj)
    refine ⟨desc, tasks, ?_, fun j hj => ?_, ?_, fun q c hs => ?_⟩
    · rw [State.putBacks, List.foldl_cons]
      refine heq.trans ?_
      dsimp only
      rw [hfree]
      rfl
    · rw [hdesc j (by rw [hfree]; exact hj)]
      have hji : j ≠ i := by
        rintro rfl
        simp [hi] at hj
      simp [State.putBack, hji]
    · rw [hself]
      simp [State.putBack, Xv6.wakeup]
    · exact (sleepsOn_wakeup.mp (hsleep q c hs)).1

-- The descriptors, the header and the entry of info[] of a call, as the device reads them.
structure Formatted (blockno : β → Nat) (dk : Disk β) (b : β) (write : Bool) (c : Chain) : Prop where
  head : dk.desc c.head = { addr := .ops c.head, len := 16, flags := VRING_DESC_F_NEXT, next := c.data }
  data : dk.desc c.data = { addr := .data b, len := Fs.BSIZE,
                            flags := (if write then 0 else VRING_DESC_F_WRITE) + VRING_DESC_F_NEXT, next := c.status }
  status : dk.desc c.status = { addr := .status c.head, len := 1, flags := VRING_DESC_F_WRITE, next := 0 }
  op : dk.ops c.head = { type := if write then VIRTIO_BLK_T_OUT else VIRTIO_BLK_T_IN, reserved := 0,
                         sector := sector blockno b }
  info : (dk.info c.head).b = some b

variable {blockno : β → Nat} {dk dk' : Disk β} {b : β} {write : Bool}

omit [DecidableEq β] in
theorem Formatted.congr (h : Formatted blockno dk b write c) (hdesc : ∀ i, c.Has i → dk'.desc i = dk.desc i)
    (hops : dk'.ops c.head = dk.ops c.head) (hinfo : (dk'.info c.head).b = (dk.info c.head).b) :
    Formatted blockno dk' b write c :=
  ⟨(hdesc _ (.inl rfl)).trans h.head, (hdesc _ (.inr (.inl rfl))).trans h.data,
    (hdesc _ (.inr (.inr rfl))).trans h.status, hops.trans h.op, hinfo.trans h.info⟩

omit [DecidableEq β] in
theorem formatted_format (hc : c.Distinct) : Formatted blockno (dk.format blockno b write c) b write c := by
  obtain ⟨h1, h2, h3⟩ := hc
  constructor <;> simp [Disk.format, h1, h2, h3]

omit [DecidableEq β] in
theorem Formatted.request (h : Formatted blockno dk b write c) :
    dk.request c.head = some ({ buf := b, write := write, sector := sector blockno b }, c.head) := by
  have h1 : (dk.desc ⟨c.head, c.head.isLt⟩) = _ := h.head
  have h2 : (dk.desc ⟨c.data, c.data.isLt⟩) = _ := h.data
  have h3 : (dk.desc ⟨c.status, c.status.isLt⟩) = _ := h.status
  cases write <;> simp [Disk.request, h1, h2, h3, h.op]

theorem freeChain_eq (hhead : (s.disk.desc c.head).flags % 2 = 1 ∧ (s.disk.desc c.head).next = c.data)
    (hdata : (s.disk.desc c.data).flags % 2 = 1 ∧ (s.disk.desc c.data).next = c.status)
    (hstatus : (s.disk.desc c.status).flags % 2 = 0) (hc : c.Distinct)
    (hfree : ∀ i, c.Has i → s.disk.free i = false) (p : ι) (fuel : Nat) :
    freeChain p (fuel + 3) c.head s = .ok (((s.putBack p c.head).putBack p c.data).putBack p c.status) := by
  obtain ⟨h1, h2, h3⟩ := hc
  have hdata' : (s.putBack p c.head).disk.desc ⟨c.data, c.data.isLt⟩ = s.disk.desc c.data := by
    simp [State.putBack, Ne.symm h1]
  have hstatus' : ((s.putBack p c.head).putBack p c.data).disk.desc ⟨c.status, c.status.isLt⟩ = s.disk.desc c.status := by
    simp [State.putBack, Ne.symm h2, Ne.symm h3]
  rw [freeChain, dif_pos c.head.isLt, Fin.eta, freeDesc_eq (hfree _ (.inl rfl)), ok_bind, if_pos hhead.1, hhead.2,
    freeChain, dif_pos c.data.isLt, hdata',
    freeDesc_eq (by simpa [State.putBack, Ne.symm h1] using hfree _ (.inr (.inl rfl))), ok_bind, if_pos hdata.1, hdata.2,
    freeChain, dif_pos c.status.isLt, hstatus',
    freeDesc_eq (by simpa [State.putBack, Ne.symm h2, Ne.symm h3] using hfree _ (.inr (.inr rfl))), ok_bind,
    if_neg (by simp [hstatus])]

end Xv6.Virtio
