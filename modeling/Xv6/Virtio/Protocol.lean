import Xv6.Virtio.Descriptors
import Mathlib.Order.Interval.Finset.Nat

set_option linter.unusedSectionVars false

namespace Xv6.Virtio

open Lib Function List

variable {ι β : Type} {s t : State ι β} {p q : ι} {c : Chain} {b : β} {write : Bool}
  {blockno : β → Nat} {n m : Nat} {r : Request ι β} {e : Pending}

def State.done (s : State ι β) : List Nat := s.finished.map Prod.fst

def Fact (blockno : β → Nat) (s : State ι β) (p : ι) : Pc β → Prop
  | .ring b write c => Formatted blockno s.disk b write c ∧ s.busy b = true
  | .idx b write c =>
    Formatted blockno s.disk b write c ∧ s.busy b = true ∧ s.disk.availRing (slot s.disk.availIdx) = c.head
  | .wait b write c n | .waitSleep b write c n =>
    Formatted blockno s.disk b write c ∧ s.issued[n]? = some ⟨p, b, write, c⟩ ∧ (s.busy b = true ↔ n ∉ s.done)
  | .free b write c n => Formatted blockno s.disk b write c ∧ s.issued[n]? = some ⟨p, b, write, c⟩ ∧ n ∈ s.done
  | .rwEnd b n => (n, b) ∈ s.finished ∧ ∃ write c, s.issued[n]? = some ⟨p, b, write, c⟩
  | .intrBody => s.finished.length < s.published.length
  | _ => True

def Awaits (pc : Pc β) (r : Request ι β) (n : Nat) : Prop :=
  pc = .wait r.buf r.write r.chain n ∨ pc = .waitSleep r.buf r.write r.chain n

structure Calls (blockno : β → Nat) (s : State ι β) : Prop where
  holder : Holder s.lock fun p => (s.pc p).locked
  chains : Chains s.disk.free fun p => (s.pc p).chain
  bufs : ∀ p q b, (s.pc p).buf = some b → (s.pc q).buf = some b → p = q
  fact : ∀ p, Fact blockno s p (s.pc p)
  awaited : ∀ n r, s.issued[n]? = some r → n ∉ s.done → Awaits (s.pc r.caller) r n
  reported : ∀ n b, (n, b) ∈ s.finished → ∃ r, s.issued[n]? = some r ∧ r.buf = b
  sleepers : ∀ p, SleepsOn s.tasks p .free → countFree s.disk.free < 3

-- The rings and what the device does. The requests that it has taken are with it or published,
-- and the driver has looked at the first ones of these.
structure Queues (blockno : β → Nat) (s : State ι β) : Prop where
  avail : s.disk.availIdx = s.issued.length % 2 ^ 16
  last : s.lastAvail = s.taken % 2 ^ 16
  used : s.disk.usedIdx = s.published.length % 2 ^ 16
  seen : s.disk.used_idx = s.finished.length % 2 ^ 16
  taken_le : s.taken ≤ s.issued.length
  perm : (s.pending.map Pending.n ++ s.published).Perm (List.range s.taken)
  done : s.done = s.published.take s.finished.length
  ring : ∀ n r, s.taken ≤ n → s.issued[n]? = some r → s.disk.availRing (slot n) = r.chain.head
  heads : ∀ e ∈ s.pending, ∃ r, s.issued[e.n]? = some r ∧ e.head = r.chain.head ∧
    (e.performed = true → (s.disk.info r.chain.head).status = 0)
  usedRing : ∀ m n, s.finished.length ≤ m → s.published[m]? = some n → ∃ r, s.issued[n]? = some r ∧
    s.disk.usedRing (slot m) = r.chain.head ∧ (s.disk.info r.chain.head).status = 0
  performed : (s.performed.map Prod.fst).Perm ((s.pending.filter Pending.performed).map Pending.n ++ s.published)
  ops : ∀ n op, (n, op) ∈ s.performed → ∃ r, s.issued[n]? = some r ∧ op = ⟨r.buf, r.write, sector blockno r.buf⟩

theorem slot_mod (n : Nat) : slot (n % 2 ^ 16) = slot n := by
  apply Fin.ext
  simp only [slot, Fin.val_ofNat, NUM]
  omega

theorem slot_ne (h : n < m) (h' : m < n + NUM) : slot n ≠ slot m := by
  intro heq
  have := congrArg Fin.val heq
  simp only [slot, Fin.val_ofNat, NUM] at this h'
  omega

namespace Queues

section

variable (h : Queues blockno s)
include h

theorem nodup : (s.pending.map Pending.n ++ s.published).Nodup :=
  h.perm.nodup_iff.mpr nodup_range

theorem finished_le : s.finished.length ≤ s.published.length := by
  have := congrArg List.length h.done
  simp only [State.done, length_map, length_take] at this
  omega

theorem lt_of_published (hn : n ∈ s.published) : n < s.taken :=
  mem_range.mp (h.perm.mem_iff.mp (mem_append_right _ hn))

theorem published_of_done (hn : n ∈ s.done) : n ∈ s.published := by
  rw [h.done] at hn
  exact mem_of_mem_take hn

theorem queued_not_done (hn : s.taken ≤ n) : n ∉ s.done := fun hd => by
  have := h.lt_of_published (h.published_of_done hd)
  omega

theorem pending_not_published (he : e ∈ s.pending) : e.n ∉ s.published := fun hd =>
  (nodup_append.mp h.nodup).2.2 _ (mem_map_of_mem he) _ hd rfl

theorem pending_not_done (he : e ∈ s.pending) : e.n ∉ s.done :=
  fun hd => h.pending_not_published he (h.published_of_done hd)

theorem unseen_not_done (hm : s.finished.length ≤ m) (hn : s.published[m]? = some n) : n ∉ s.done := by
  rw [h.done]
  intro hd
  obtain ⟨k, hk, heq⟩ := mem_take_iff_getElem.mp hd
  obtain ⟨hm', heq'⟩ := List.getElem?_eq_some_iff.mp hn
  have := (nodup_append.mp h.nodup).2.1.getElem_inj_iff.mp (heq.trans heq'.symm)
  omega

theorem congr (havail : disk.availIdx = s.disk.availIdx) (hring : disk.availRing = s.disk.availRing)
    (hused : disk.usedIdx = s.disk.usedIdx) (husedRing : disk.usedRing = s.disk.usedRing)
    (hseen : disk.used_idx = s.disk.used_idx)
    (hstatus : ∀ n r, s.issued[n]? = some r → n ∉ s.done → (disk.info r.chain.head).status = (s.disk.info r.chain.head).status)
    (busy : β → Bool) (lock : Option ι) (tasks : ι → Task (Chan β)) (pc : ι → Pc β) :
    Queues blockno { s with disk := disk, busy := busy, lock := lock, tasks := tasks, pc := pc } where
  avail := havail.trans h.avail
  last := h.last
  used := hused.trans h.used
  seen := hseen.trans h.seen
  taken_le := h.taken_le
  perm := h.perm
  done := h.done
  ring := by
    simp only [hring]
    exact h.ring
  heads := fun e he => by
    obtain ⟨r, hr, hhead, hst⟩ := h.heads e he
    exact ⟨r, hr, hhead, fun hp => (hstatus _ r hr (h.pending_not_done he)).trans (hst hp)⟩
  usedRing := fun m n hm hn => by
    obtain ⟨r, hr, hslot, hst⟩ := h.usedRing m n hm hn
    refine ⟨r, hr, ?_, (hstatus n r hr (h.unseen_not_done hm hn)).trans hst⟩
    simp only [husedRing]
    exact hslot
  performed := h.performed
  ops := h.ops

end

end Queues

namespace Calls

theorem head_inj (h : Calls blockno s) (hr : s.issued[n]? = some r) (hn : n ∉ s.done)
    (hr' : s.issued[m]? = some r') (hm : m ∉ s.done) (heq : r.chain.head = r'.chain.head) : n = m := by
  have ha := h.awaited n r hr hn
  have ha' := h.awaited m r' hr' hm
  have hchain : (s.pc r.caller).chain = some r.chain := by
    rcases ha with ha | ha <;> rw [ha] <;> rfl
  have hchain' : (s.pc r'.caller).chain = some r'.chain := by
    rcases ha' with ha' | ha' <;> rw [ha'] <;> rfl
  by_cases hcaller : r.caller = r'.caller
  · rw [← hcaller] at ha'
    rcases ha with ha | ha <;> rcases ha' with ha' | ha' <;> simp_all
  · exact absurd (.inl heq) (h.chains.disjoint _ _ _ _ hchain hchain' hcaller _ (.inl rfl))

-- So there are at most NUM of them, and fewer if other heads are in use.
theorem card_add_le (h : Calls blockno s) (U : Finset Nat) (hU : ∀ n ∈ U, n ∉ s.done ∧ n < s.issued.length)
    (H : Finset (Fin NUM)) (hH : ∀ n ∈ U, ∀ r, s.issued[n]? = some r → r.chain.head ∉ H) : U.card + H.card ≤ NUM := by
  have hhead : ∀ n ∈ U, ∃ r, s.issued[n]? = some r :=
    fun n hn => ⟨_, getElem?_eq_getElem (hU n hn).2⟩
  choose f hf using hhead
  have hle : U.attach.card ≤ (Finset.univ \ H).card := by
    refine Finset.card_le_card_of_injOn (fun x => (f x.1 x.2).chain.head) (fun x _ => ?_) fun x _ y _ heq => ?_
    · simp [hH x.1 x.2 _ (hf x.1 x.2)]
    · exact Subtype.ext (h.head_inj (hf x.1 x.2) (hU x.1 x.2).1 (hf y.1 y.2) (hU y.1 y.2).1 heq)
  rw [Finset.card_attach, Finset.card_sdiff_of_subset (Finset.subset_univ H), Finset.card_univ, Fintype.card_fin] at hle
  have := Finset.card_le_univ H
  rw [Fintype.card_fin] at this
  omega

end Calls

structure Inv (blockno : β → Nat) (s : State ι β) : Prop where
  calls : Calls blockno s
  queues : Queues blockno s

namespace Inv

theorem caller_ne (h : Inv blockno s) (hr : s.issued[n]? = some r) (hn : n ∉ s.done)
    (hp : ∀ (r : Request ι β) n, ¬Awaits (s.pc p) r n) : r.caller ≠ p :=
  fun heq => hp r n (heq ▸ h.calls.awaited n r hr hn)

theorem chain_of_awaits (h : Awaits pc r n) : pc.chain = some r.chain := by
  rcases h with h | h <;> rw [h] <;> rfl

theorem head_notHas (h : Inv blockno s) (hpc : s.pc p = pc) (hr : s.issued[n]? = some r) (hn : n ∉ s.done)
    (hp : ∀ (r : Request ι β) n, ¬Awaits pc r n) (hc : pc.chain = some c) : ¬c.Has r.chain.head := by
  subst hpc
  exact h.calls.chains.disjoint _ _ _ _ (chain_of_awaits (h.calls.awaited n r hr hn)) hc (h.caller_ne hr hn hp) _
    (.inl rfl)

end Inv

variable [DecidableEq ι]

namespace Calls

-- A step of p, which comes to pc. The other calls are not in a section of vdisk_lock.
theorem step (h : Calls blockno s) (hl : s.lock = none ∨ s.lock = some p) (hplace : t.pc = update s.pc p pc)
    (hlock : t.lock = if pc.locked = true then some p else none)
    (hchains : Chains t.disk.free fun q => (t.pc q).chain)
    (hbuf : ∀ b, pc.buf = some b → (s.pc p).buf = some b) (hself : Fact blockno t p pc)
    (hother : ∀ q b write c n, q ≠ p → s.pc q = .waitSleep b write c n →
      Fact blockno s q (.waitSleep b write c n) → Fact blockno t q (.waitSleep b write c n))
    (hawaited : ∀ n r, t.issued[n]? = some r → n ∉ t.done → Awaits (t.pc r.caller) r n)
    (hreported : ∀ n b, (n, b) ∈ t.finished → ∃ r, t.issued[n]? = some r ∧ r.buf = b)
    (hsleep : ∀ q, SleepsOn t.tasks q .free → countFree t.disk.free < 3) : Calls blockno t := by
  have hpc : t.pc p = pc := by rw [hplace, update_self]
  have hstay : ∀ q, q ≠ p → t.pc q = s.pc q := fun q hq => by rw [hplace, update_of_ne hq]
  have hold : ∀ q b, (t.pc q).buf = some b → (s.pc q).buf = some b := by
    intro q b hq
    by_cases hqp : q = p
    · subst hqp
      exact hbuf b (hpc ▸ hq)
    · rwa [hstay q hqp] at hq
  refine ⟨h.holder.step hl (fun q hq => by rw [hstay q hq]) (by rw [hpc]; exact hlock), hchains,
    fun q q' b hq hq' => h.bufs q q' b (hold q b hq) (hold q' b hq'), fun q => ?_, hawaited, hreported, hsleep⟩
  by_cases hqp : q = p
  · rw [hqp, hpc]
    exact hself
  · rw [hstay q hqp]
    have hout := h.holder.outside hl hqp
    have hfact := h.fact q
    cases hq : s.pc q with
    | waitSleep b write c n => exact hother q b write c n hqp hq (hq ▸ hfact)
    | out | call b write | allocSleep b write | intrCall => trivial
    | _ => simp [hq, Pc.locked] at hout

theorem quiet (h : Calls blockno s) (hl : s.lock = none ∨ s.lock = some p) (hpc : s.pc p = pc₀) (lock : Option ι)
    (hlock : lock = if pc.locked = true then some p else none)
    (hchains : Chains disk.free fun q => (update s.pc p pc q).chain)
    (hbuf : ∀ b, pc.buf = some b → pc₀.buf = some b)
    (hdisk : ∀ q b write c n, q ≠ p → s.pc q = .waitSleep b write c n → Formatted blockno s.disk b write c →
      Formatted blockno disk b write c) (hbusy : ∀ q b, q ≠ p → (s.pc q).buf = some b → busy b = s.busy b)
    (hself : Fact blockno { s with disk := disk, busy := busy } p pc)
    (hawaits : ∀ (r : Request ι β) n, Awaits pc₀ r n → n ∉ s.done → Awaits pc r n)
    (hsleep : ∀ q, SleepsOn tasks q .free → countFree disk.free < 3) :
    Calls blockno ({ s with disk := disk, busy := busy, lock := lock, tasks := tasks }.goto p pc) := by
  refine h.step hl rfl hlock hchains (hpc ▸ hbuf) (by cases pc <;> exact hself) (fun q b write c n hq hpcq hf => ?_)
    (fun n r hr hn => ?_) h.reported hsleep
  · refine ⟨hdisk q b write c n hq hpcq hf.1, hf.2.1, ?_⟩
    simp only [State.goto, hbusy q b hq (by rw [hpcq]; rfl)]
    exact hf.2.2
  · have hold := h.awaited n r hr hn
    by_cases hrp : r.caller = p
    · rw [hrp, hpc] at hold
      simp only [State.goto, hrp, update_self]
      exact hawaits r n hold hn
    · simp only [State.goto, update_of_ne hrp]
      exact hold

end Calls

theorem chain_update (pcs : ι → Pc β) (p : ι) (pc : Pc β) :
    (fun q => (update pcs p pc q).chain) = update (fun q => (pcs q).chain) p pc.chain := by
  funext q
  by_cases hq : q = p
  · subst hq
    simp
  · simp [hq]

theorem chains_stay (h : Chains free fun q => (s.pc q).chain)
    (hpc : pc.chain = (s.pc p).chain) : Chains free fun q => (update s.pc p pc q).chain := by
  rw [chain_update, hpc, update_eq_self p fun q => (s.pc q).chain]
  exact h

namespace Inv

theorem lock_of_locked (h : Inv blockno s) (hpc : s.pc p = pc) (hl : pc.locked = true) : s.lock = some p := by
  subst hpc
  exact (h.calls.holder p).mpr hl

theorem lock_of_ready (h : Inv blockno s) (hready : s.ready p) : s.lock = none ∨ s.lock = some p := by
  cases hl : (s.pc p).locked with
  | true => exact .inr ((h.calls.holder p).mpr hl)
  | false => exact .inl (hready.2.1 hl)

theorem move (h : Inv blockno s) (hl : s.lock = none ∨ s.lock = some p) (hpc : s.pc p = pc₀)
    (tasks : ι → Task (Chan β)) (lock : Option ι) (pc : Pc β) (hlock : lock = if pc.locked = true then some p else none)
    (hchain : pc.chain = pc₀.chain) (hbuf : ∀ b, pc.buf = some b → pc₀.buf = some b)
    (hself : Fact blockno s p pc) (hawaits : ∀ (r : Request ι β) n, Awaits pc₀ r n → n ∉ s.done → Awaits pc r n)
    (hsleep : ∀ q, SleepsOn tasks q .free → SleepsOn s.tasks q .free) :
    Inv blockno ({ s with lock := lock, tasks := tasks }.goto p pc) := by
  refine ⟨h.calls.quiet hl hpc lock hlock (chains_stay h.calls.chains (hpc ▸ hchain)) hbuf
    (fun _ _ _ _ _ _ _ hf => hf) (fun _ _ _ _ => rfl) ?_ hawaits fun q hq => h.calls.sleepers q (hsleep q hq),
    h.queues.congr (by rfl) (by rfl) (by rfl) (by rfl) (by rfl) (fun _ _ _ _ => by rfl) ..⟩
  cases pc <;> exact hself

end Inv

variable [DecidableEq β]

namespace Inv

theorem alloc (h : Inv blockno s) (hready : s.ready p) (hpc : s.pc p = .alloc b write) :
    ∃ t, s.step blockno p = .ok t ∧ Inv blockno t := by
  have hl := h.lock_of_ready hready
  have hnone : (s.pc p).chain = none := by rw [hpc]; rfl
  rcases alloc3Desc_spec p s with ⟨c, hc, hfree, heq⟩ | ⟨is, his, hcount, heq⟩
  · refine ⟨_, by simp only [State.step, hpc, heq, ok_bind]; rfl, ?_⟩
    refine ⟨h.calls.quiet hl hpc s.lock (h.lock_of_locked hpc rfl) ?_ (fun _ hb => hb)
      (fun _ _ _ _ _ _ _ hf => hf.congr (fun _ _ => rfl) rfl rfl) (fun _ _ _ _ => rfl) trivial (by simp [Awaits])
      fun q hq => ?_, h.queues.congr (by rfl) (by rfl) (by rfl) (by rfl) (by rfl) (fun _ _ _ _ => by rfl) ..⟩
    · rw [chain_update]
      exact h.calls.chains.take hnone hc hfree
    · refine lt_of_le_of_lt (countFree_mono fun i hi => ?_) (h.calls.sleepers q hq)
      simp only [taken3_eq] at hi
      split_ifs at hi
      exact hi
  · obtain ⟨desc, tasks, hput, hdesc, hme, hsleep⟩ := putBacks_spec his p
    refine ⟨_, by simp only [State.step, hpc, heq, hput, ok_bind]; rfl, ?_⟩
    refine ⟨h.calls.quiet hl hpc none rfl (chains_stay h.calls.chains hnone.symm) (fun _ hb => hb)
      (fun q b write c n hq hpcq hf => ?_) (fun _ _ _ _ => rfl) trivial (by simp [Awaits]) fun q _ => hcount,
      h.queues.congr (by rfl) (by rfl) (by rfl) (by rfl) (by rfl) (fun _ _ _ _ => by rfl) ..⟩
    exact hf.congr (fun i hi => hdesc i (h.calls.chains.own q c (by simp only [hpcq]; rfl) i hi)) rfl rfl

theorem format (h : Inv blockno s) (hready : s.ready p) (hpc : s.pc p = .format b write c) :
    Inv blockno ({ s with disk := s.disk.format blockno b write c, busy := update s.busy b true }.goto p
      (.ring b write c)) := by
  have hl := h.lock_of_ready hready
  have hchain : (s.pc p).chain = some c := by rw [hpc]; rfl
  -- the other calls have other descriptors and other buffers
  have hdisj : ∀ q b' write' c' n, q ≠ p → s.pc q = .waitSleep b' write' c' n → ∀ i, c'.Has i → ¬c.Has i :=
    fun q b' write' c' n hq hpcq i hi =>
      h.calls.chains.disjoint q p c' c (by simp only [hpcq]; rfl) hchain hq i hi
  refine ⟨h.calls.quiet hl hpc s.lock (h.lock_of_locked hpc rfl) (chains_stay h.calls.chains hchain.symm)
    (fun _ hb => hb) (fun q b' write' c' n hq hpcq hf => ?_) (fun q b' hq hb => ?_) ?_ (by simp [Awaits])
    h.calls.sleepers, h.queues.congr (by rfl) (by rfl) (by rfl) (by rfl) (by rfl) (fun n r hr hn => ?_) ..⟩
  · have hhead : c'.head ≠ c.head := fun heq => hdisj q b' write' c' n hq hpcq _ (.inl rfl) (.inl heq)
    refine hf.congr (fun i hi => ?_) ?_ ?_
    · have hnot := hdisj q b' write' c' n hq hpcq i hi
      simp only [Chain.Has, not_or] at hnot
      simp [Disk.format, hnot]
    · simp [Disk.format, hhead]
    · simp [Disk.format, hhead]
  · have hne : b' ≠ b := by
      rintro rfl
      exact hq (h.calls.bufs q p b' hb (by rw [hpc]; rfl))
    exact update_of_ne hne ..
  · exact ⟨formatted_format (h.calls.chains.distinct p c hchain), update_self ..⟩
  · have hne : r.chain.head ≠ c.head := fun heq => h.head_notHas hpc hr hn (by simp [Awaits]) rfl (.inl heq)
    simp [Disk.format, hne]

theorem slot_free (h : Inv blockno s) (hpc : s.pc p = .ring b write c) (hn : s.taken ≤ n) (hn' : n < s.issued.length) :
    slot n ≠ slot s.disk.availIdx := by
  have hcard := h.calls.card_add_le (Finset.Ico s.taken s.issued.length)
    (fun m hm => ⟨h.queues.queued_not_done (Finset.mem_Ico.mp hm).1, (Finset.mem_Ico.mp hm).2⟩) {c.head}
    fun m hm r hr => by
      have hnot := h.head_notHas hpc hr (h.queues.queued_not_done (Finset.mem_Ico.mp hm).1) (by simp [Awaits]) rfl
      simp only [Finset.mem_singleton]
      exact fun heq => hnot (.inl heq)
  rw [Nat.card_Ico, Finset.card_singleton] at hcard
  rw [h.queues.avail, slot_mod]
  exact slot_ne hn' (by omega)

section

variable (h : Inv blockno s) (hready : s.ready p)
include h hready

theorem ring (hpc : s.pc p = .ring b write c) :
    Inv blockno ({ s with
      disk := { s.disk with
        availRing := update s.disk.availRing (slot s.disk.availIdx) c.head } }.goto p (.idx b write c)) := by
  have hchain : (s.pc p).chain = some c := by rw [hpc]; rfl
  have hfact := h.calls.fact p
  rw [hpc] at hfact
  refine ⟨h.calls.quiet (h.lock_of_ready hready) hpc s.lock (h.lock_of_locked hpc rfl)
    (chains_stay h.calls.chains hchain.symm) (fun _ hb => hb)
    (fun _ _ _ _ _ _ _ hf => hf.congr (fun _ _ => rfl) rfl rfl) (fun _ _ _ _ => rfl)
    ⟨hfact.1.congr (fun _ _ => rfl) rfl rfl, hfact.2, update_self ..⟩ (by simp [Awaits]) h.calls.sleepers, ?_⟩
  · obtain ⟨h1, h2, h3, h4, h5, h6, h7, hring, h9, h10, h11, h12⟩ := h.queues
    refine ⟨h1, h2, h3, h4, h5, h6, h7, fun n r hn hr => ?_, h9, h10, h11, h12⟩
    obtain ⟨hlt, -⟩ := List.getElem?_eq_some_iff.mp hr
    simp only [State.goto, update_of_ne (h.slot_free hpc hn hlt)]
    exact hring n r hn hr

theorem idx (hpc : s.pc p = .idx b write c) :
    Inv blockno ({ s with
      disk := { s.disk with availIdx := (s.disk.availIdx + 1) % 2 ^ 16 }
      issued := s.issued ++ [Request.mk p b write c] }.goto p (.wait b write c s.issued.length)) := by
  have hl := h.lock_of_ready hready
  have hchain : (s.pc p).chain = some c := by rw [hpc]; rfl
  have hfact := h.calls.fact p
  rw [hpc] at hfact
  obtain ⟨hform, hbusy, hslot⟩ := hfact
  have hkeep : ∀ {n : Nat} {r}, s.issued[n]? = some r → (s.issued ++ [Request.mk p b write c])[n]? = some r := by
    intro n r hr
    obtain ⟨hlt, -⟩ := List.getElem?_eq_some_iff.mp hr
    rwa [getElem?_append_left hlt]
  have hlast : (s.issued ++ [Request.mk p b write c])[s.issued.length]? = some ⟨p, b, write, c⟩ := by simp
  -- a number up to the last one is old or the new one
  have hcases : ∀ {n : Nat} {r}, (s.issued ++ [Request.mk p b write c])[n]? = some r →
      s.issued[n]? = some r ∨ n = s.issued.length ∧ r = ⟨p, b, write, c⟩ := by
    intro n r hr
    rcases Nat.lt_trichotomy n s.issued.length with hlt | rfl | hgt
    · rw [getElem?_append_left hlt] at hr
      exact .inl hr
    · rw [hlast] at hr
      exact .inr ⟨rfl, (Option.some.inj hr).symm⟩
    · rw [getElem?_eq_none (by simp; omega)] at hr
      simp at hr
  constructor
  · refine h.calls.step hl rfl (h.lock_of_locked hpc rfl) (chains_stay h.calls.chains hchain.symm)
      (by rw [hpc]; exact fun _ hb => hb) ⟨hform.congr (fun _ _ => rfl) rfl rfl, hlast, iff_of_true hbusy
        (h.queues.queued_not_done h.queues.taken_le)⟩
      (fun q b' write' c' n _ _ hf => ⟨hf.1.congr (fun _ _ => rfl) rfl rfl, hkeep hf.2.1, hf.2.2⟩)
      (fun n r hr hn => ?_) (fun n b' hb => ?_) h.calls.sleepers
    · rcases hcases hr with hold | ⟨rfl, rfl⟩
      · have ha := h.calls.awaited n r hold hn
        have hne : r.caller ≠ p := by
          intro heq
          rw [heq, hpc] at ha
          simp [Awaits] at ha
        simp only [State.goto, update_of_ne hne]
        exact ha
      · exact .inl (update_self ..)
    · obtain ⟨r, hr, hrb⟩ := h.calls.reported n b' hb
      exact ⟨r, hkeep hr, hrb⟩
  · obtain ⟨havail, h2, h3, h4, htaken, h6, h7, hring, hheads, hused, h11, hops⟩ := h.queues
    refine ⟨?_, h2, h3, h4, ?_, h6, h7, fun n r hn hr => ?_, fun e he => ?_, fun m n hm hn => ?_, h11, fun n op ho => ?_⟩
    · simp only [State.goto, havail, length_append, length_singleton]
      omega
    · simp only [State.goto, length_append, length_singleton]
      omega
    · rcases hcases hr with hold | ⟨rfl, rfl⟩
      · exact hring n r hn hold
      · rw [havail, slot_mod] at hslot
        exact hslot
    · obtain ⟨r, hr, hrest⟩ := hheads e he
      exact ⟨r, hkeep hr, hrest⟩
    · obtain ⟨r, hr, hrest⟩ := hused m n hm hn
      exact ⟨r, hkeep hr, hrest⟩
    · obtain ⟨r, hr, hrest⟩ := hops n op ho
      exact ⟨r, hkeep hr, hrest⟩

theorem freeing (hpc : s.pc p = .free b write c n) : ∃ t, s.step blockno p = .ok t ∧ Inv blockno t := by
  have hl := h.lock_of_ready hready
  have hchain : (s.pc p).chain = some c := by rw [hpc]; rfl
  have hdist := h.calls.chains.distinct p c hchain
  have hfact := h.calls.fact p
  rw [hpc] at hfact
  obtain ⟨hform, hreq, hdone⟩ := hfact
  have hdisj : ∀ q b' write' c' m, q ≠ p → s.pc q = .waitSleep b' write' c' m → ∀ i, c'.Has i → ¬c.Has i :=
    fun q b' write' c' m hq hpcq i hi =>
      h.calls.chains.disjoint q p c' c (by simp only [hpcq]; rfl) hchain hq i hi
  have hflag : ((if write then 0 else VRING_DESC_F_WRITE) + VRING_DESC_F_NEXT) % 2 = 1 := by
    cases write <;> rfl
  -- free_chain() does not look at info[]
  have hrun := freeChain_eq (s := { s with disk := { s.disk with
      info := update s.disk.info c.head { s.disk.info c.head with b := none } } })
    ⟨by rw [hform.head]; rfl, by rw [hform.head]⟩ ⟨by rw [hform.data]; exact hflag, by rw [hform.data]⟩
    (by simp [hform.status]) hdist (h.calls.chains.own p c hchain) p 6
  refine ⟨_, by simp only [State.step, hpc, hrun, ok_bind]; rfl, ?_⟩
  refine ⟨h.calls.quiet hl hpc s.lock (h.lock_of_locked hpc rfl) ?_ (fun _ hb => hb)
    (fun q b' write' c' m hq hpcq hf => ?_) (fun _ _ _ _ => rfl) ?_ (by simp [Awaits]) fun q hq => ?_,
    h.queues.congr (by rfl) (by rfl) (by rfl) (by rfl) (by rfl) (fun m r hr hm => ?_) ..⟩
  · rw [chain_update]
    exact h.calls.chains.give hchain
  · have hhead : c'.head ≠ c.head := fun heq => hdisj q b' write' c' m hq hpcq _ (.inl rfl) (.inl heq)
    refine hf.congr (fun i hi => ?_) rfl (by simp [State.putBack, hhead])
    have hnot := hdisj q b' write' c' m hq hpcq i hi
    simp only [Chain.Has, not_or] at hnot
    simp [State.putBack, hnot]
  · obtain ⟨⟨m, b'⟩, hb, rfl⟩ := mem_map.mp hdone
    obtain ⟨r, hr, rfl⟩ := h.calls.reported m b' hb
    rw [hreq] at hr
    obtain rfl := Option.some.inj hr
    exact ⟨hb, write, c, hreq⟩
  · -- its wakeup() has left nobody asleep
    obtain ⟨hs, hor⟩ := sleepsOn_wakeup.mp hq
    rcases hor with rfl | hne
    · have hs' := (sleepsOn_wakeup.mp (sleepsOn_wakeup.mp hs).1).1
      exact absurd hs'.1 hready.2.2
    · exact absurd rfl hne
  · have hne : r.chain.head ≠ c.head := fun heq => h.head_notHas hpc hr hm (by simp [Awaits]) rfl (.inl heq)
    simp [State.putBack, hne]

theorem report (hpc : s.pc p = .intrBody) : ∃ t, s.step blockno p = .ok t ∧ Inv blockno t := by
  have hl := h.lock_of_ready hready
  have hlt : s.finished.length < s.published.length := by
    have hfact := h.calls.fact p
    rwa [hpc] at hfact
  -- the entry of the used ring is that of a call which waits
  obtain ⟨n, hn⟩ : ∃ n, s.published[s.finished.length]? = some n := ⟨_, getElem?_eq_getElem hlt⟩
  obtain ⟨r, hr, hslot, hstatus⟩ := h.queues.usedRing _ n le_rfl hn
  have hnot := h.queues.unseen_not_done le_rfl hn
  have hne : r.caller ≠ p := h.caller_ne hr hnot (by simp [Awaits, hpc])
  have hwait : s.pc r.caller = .waitSleep r.buf r.write r.chain n := by
    rcases h.calls.awaited n r hr hnot with ha | ha
    · have hout := h.calls.holder.outside hl hne
      simp [ha, Pc.locked] at hout
    · exact ha
  have hfact := h.calls.fact r.caller
  rw [hwait] at hfact
  obtain ⟨hform, -, -⟩ := hfact
  have hget : s.published.getD s.finished.length 0 = n := by
    rw [getD_eq_getElem?_getD, hn]
    rfl
  have hid : s.disk.usedRing (slot s.disk.used_idx) = r.chain.head := by rw [h.queues.seen, slot_mod, hslot]
  refine ⟨{ s with
      disk := { s.disk with used_idx := (s.disk.used_idx + 1) % 2 ^ 16 }
      busy := update s.busy r.buf false
      tasks := Xv6.wakeup s.tasks p (.buf r.buf)
      finished := s.finished ++ [(n, r.buf)] }.goto p .intrTest, ?_, ?_, ?_⟩
  · simp only [State.step, hpc, hid, dif_pos r.chain.head.isLt, Fin.eta, if_pos hstatus, hform.info, hget]
  · have hdone : ∀ m, m ∈ (s.finished ++ [(n, r.buf)]).map Prod.fst ↔ m ∈ s.done ∨ m = n := by
      simp [State.done]
    refine h.calls.step hl rfl (h.lock_of_locked hpc rfl) (chains_stay h.calls.chains (by rw [hpc]; rfl))
      (by simp [Pc.buf]) trivial (fun q b' write' c' m hqp hq hfact => ?_) (fun m r' hr' hm => ?_)
      (fun m b' hb => ?_) fun q hq => h.calls.sleepers q (sleepsOn_wakeup.mp hq).1
    · obtain ⟨hform', hreq', hiff⟩ := hfact
      refine ⟨hform'.congr (fun _ _ => rfl) rfl rfl, hreq', ?_⟩
      simp only [State.done, State.goto]
      rw [hdone]
      by_cases hqr : q = r.caller
      · -- it is the call that is told
        subst hqr
        obtain ⟨rfl, -, -, rfl⟩ : r.buf = b' ∧ r.write = write' ∧ r.chain = c' ∧ n = m := by
          simpa using hwait.symm.trans hq
        simp
      · have hb : b' ≠ r.buf := by
          rintro rfl
          exact hqr (h.calls.bufs q r.caller r.buf (by rw [hq]; rfl) (by rw [hwait]; rfl))
        have hm : m ≠ n := by
          rintro rfl
          rw [hr] at hreq'
          exact hqr (by rw [Option.some.inj hreq'])
        rw [update_of_ne hb, hiff]
        simp [hm]
    · have hm' : m ∉ s.done := fun hd => hm ((hdone m).mpr (.inl hd))
      have ha := h.calls.awaited m r' hr' hm'
      have hne' : r'.caller ≠ p := h.caller_ne hr' hm' (by simp [Awaits, hpc])
      simp only [State.goto, update_of_ne hne']
      exact ha
    · rcases mem_append.mp hb with hb | hb
      · exact h.calls.reported m b' hb
      · obtain ⟨rfl, rfl⟩ : m = n ∧ b' = r.buf := by simpa using hb
        exact ⟨r, hr, rfl⟩
  · obtain ⟨h1, h2, h3, hseen, h5, h6, hd, h8, h9, hused, h11, h12⟩ := h.queues
    refine ⟨h1, h2, h3, ?_, h5, h6, ?_, h8, h9, fun m k hm hk => ?_, h11, h12⟩
    · simp only [State.goto, hseen, length_append, length_singleton]
      omega
    · simp only [State.goto, State.done, map_append, map_cons, map_nil, length_append,
        length_singleton]
      rw [take_add_one, hn, ← hd]
      rfl
    · simp only [State.goto, length_append, length_singleton] at hm
      exact hused m k (by omega) hk

theorem step : ∃ t, s.step blockno p = .ok t ∧ Inv blockno t := by
  have hl := h.lock_of_ready hready
  have hfact := h.calls.fact p
  cases hpc : s.pc p with
  | out => exact absurd hpc hready.1
  | call b write =>
    exact ⟨_, by simp only [State.step, hpc], h.move hl hpc s.tasks (some p) (.alloc b write) rfl rfl
      (fun _ hb => hb) trivial (by simp [Awaits]) fun _ hs => hs⟩
  | alloc b write => exact h.alloc hready hpc
  | allocSleep b write =>
    exact ⟨_, by simp only [State.step, hpc]; rfl, h.move hl hpc _ (some p) (.alloc b write) rfl rfl
      (fun _ hb => hb) trivial (by simp [Awaits]) fun _ hs => hs.of_awaken⟩
  | format b write c => exact ⟨_, by simp only [State.step, hpc], h.format hready hpc⟩
  | ring b write c => exact ⟨_, by simp only [State.step, hpc], h.ring hready hpc⟩
  | idx b write c => exact ⟨_, by simp only [State.step, hpc], h.idx hready hpc⟩
  | wait b write c n =>
    rw [hpc] at hfact
    cases hbusy : s.busy b with
    | true =>
      refine ⟨_, by simp only [State.step, hpc, hbusy, if_true]; rfl, h.move hl hpc _ none (.waitSleep b write c n) rfl
        rfl (fun _ hb => hb) hfact (fun r m ha _ => .inr ?_) fun q hs => ?_⟩
      · simpa [Awaits] using ha
      · rcases sleepsOn_sleep.mp hs with ⟨-, hb⟩ | ⟨-, hs⟩
        · simp at hb
        · exact hs
    | false =>
      have hdone : n ∈ s.done := by
        by_contra hn
        simp [hfact.2.2.mpr hn] at hbusy
      refine ⟨_, by simp only [State.step, hpc, hbusy, Bool.false_eq_true, if_false],
        h.move hl hpc s.tasks s.lock (.free b write c n) (h.lock_of_locked hpc rfl) rfl (fun _ hb => hb)
          ⟨hfact.1, hfact.2.1, hdone⟩ (fun r m ha hm => ?_) fun _ hs => hs⟩
      have heq : n = m := by
        simp only [Awaits, Pc.wait.injEq, reduceCtorEq, or_false] at ha
        exact ha.2.2.2
      exact absurd hdone (heq ▸ hm)
  | waitSleep b write c n =>
    rw [hpc] at hfact
    exact ⟨_, by simp only [State.step, hpc]; rfl, h.move hl hpc _ (some p) (.wait b write c n) rfl rfl
      (fun _ hb => hb) hfact (fun r m ha _ => .inl (by simpa [Awaits] using ha)) fun _ hs => hs.of_awaken⟩
  | free b write c n => exact h.freeing hready hpc
  | rwEnd b n =>
    exact ⟨_, by simp only [State.step, hpc], h.move hl hpc s.tasks none .out rfl rfl (by simp [Pc.buf]) trivial
      (by simp [Awaits]) fun _ hs => hs⟩
  | intrCall =>
    exact ⟨_, by simp only [State.step, hpc], h.move hl hpc s.tasks (some p) .intrTest rfl rfl (by simp [Pc.buf])
      trivial (by simp [Awaits]) fun _ hs => hs⟩
  | intrTest =>
    by_cases hne : s.disk.used_idx ≠ s.disk.usedIdx
    · have hlt : s.finished.length < s.published.length := by
        refine lt_of_le_of_ne h.queues.finished_le fun heq => hne ?_
        rw [h.queues.seen, h.queues.used, heq]
      exact ⟨_, by simp only [State.step, hpc, if_pos hne], h.move hl hpc s.tasks s.lock .intrBody
        (h.lock_of_locked hpc rfl) rfl (by simp [Pc.buf]) hlt (by simp [Awaits]) fun _ hs => hs⟩
    · exact ⟨_, by simp only [State.step, hpc, if_neg hne], h.move hl hpc s.tasks none .out rfl rfl
        (by simp [Pc.buf]) trivial (by simp [Awaits]) fun _ hs => hs⟩
  | intrBody => exact h.report hready hpc

end

end Inv

end Xv6.Virtio
