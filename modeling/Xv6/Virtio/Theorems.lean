import Xv6.Virtio.Protocol

namespace Xv6.Virtio

open Lib Function List

variable {ι β : Type} {s t : State ι β} {p q : ι} {blockno : β → Nat} {n k : Nat} {r : Request ι β} {e : Pending}

theorem exists_split (h : l[k]? = some a) : ∃ xs ys, l = xs ++ a :: ys ∧
    (∀ b, l.set k b = xs ++ b :: ys) ∧ l.eraseIdx k = xs ++ ys := by
  obtain ⟨hlt, rfl⟩ := List.getElem?_eq_some_iff.mp h
  refine ⟨l.take k, l.drop (k + 1), by simp, fun b => ?_, eraseIdx_eq_take_drop_succ ..⟩
  rw [set_eq_take_append_cons_drop, if_pos hlt]

namespace Inv

theorem device (h : Inv blockno s) {lastAvail taken : Nat} {pending : List Pending} {performed : List (Nat × Op β)}
    {published : List Nat} {disk : Disk β} (hpub : s.published.length ≤ published.length)
    (hdesc : disk.desc = s.disk.desc) (hops : disk.ops = s.disk.ops) (hinfo : ∀ i, (disk.info i).b = (s.disk.info i).b)
    (hfree : disk.free = s.disk.free) (hring : disk.availRing = s.disk.availRing) (hidx : disk.availIdx = s.disk.availIdx) :
    Calls blockno { s with disk := disk, lastAvail := lastAvail, taken := taken, pending := pending, performed := performed,
                           published := published } := by
  obtain ⟨h1, h2, h3, hfact, h5, h6, h7⟩ := h.calls
  refine ⟨h1, by rw [hfree]; exact h2, h3, fun p => ?_, h5, h6, by rw [hfree]; exact h7⟩
  have hform : ∀ {b write c}, Formatted blockno s.disk b write c → Formatted blockno disk b write c :=
    fun hf => hf.congr (fun i _ => congrFun hdesc i) (congrFun hops _) (hinfo _)
  have hold := hfact p
  cases hpc : s.pc p with
  | ring b write c =>
    rw [hpc] at hold
    exact ⟨hform hold.1, hold.2⟩
  | idx b write c =>
    rw [hpc] at hold
    refine ⟨hform hold.1, hold.2.1, ?_⟩
    simp only [hring, hidx]
    exact hold.2.2
  | wait b write c n | waitSleep b write c n | free b write c n =>
    rw [hpc] at hold
    exact ⟨hform hold.1, hold.2⟩
  | rwEnd b n =>
    rw [hpc] at hold
    exact hold
  | intrBody =>
    rw [hpc] at hold
    exact lt_of_lt_of_le hold hpub
  | out | call b write | alloc b write | allocSleep b write | format b write c | intrCall | intrTest => trivial

theorem take (h : Inv blockno s) (hne : s.lastAvail ≠ s.disk.availIdx) : Inv blockno s.deviceTake := by
  refine ⟨h.device le_rfl rfl rfl (fun _ => rfl) rfl rfl rfl, ?_⟩
  obtain ⟨h1, hlast, h3, h4, hle, hperm, h7, hring, hheads, h10, hperf, h12⟩ := h.queues
  have hlt : s.taken < s.issued.length := by
    refine lt_of_le_of_ne hle fun heq => hne ?_
    rw [hlast, h1, heq]
  have hget : s.issued[s.taken]? = some s.issued[s.taken] := getElem?_eq_getElem hlt
  refine ⟨h1, ?_, h3, h4, hlt, ?_, h7, fun n r hn hr => hring n r (by simp only [State.deviceTake] at hn; omega) hr,
    fun e he => ?_, h10, ?_, h12⟩
  · simp only [State.deviceTake, hlast]
    omega
  · simp only [State.deviceTake, map_append, map_cons, map_nil, range_succ]
    rw [append_assoc]
    refine (List.Perm.append_left _ perm_append_comm).trans ?_
    rw [← append_assoc]
    exact hperm.append_right _
  · rcases mem_append.mp he with he | he
    · exact hheads e he
    · obtain rfl := mem_singleton.mp he
      refine ⟨_, hget, ?_, by simp⟩
      rw [hlast, slot_mod, hring s.taken _ le_rfl hget]
  · simpa [State.deviceTake] using hperf

theorem perform (h : Inv blockno s) (he : s.pending[k]? = some e) (hnot : e.performed = false) :
    Inv blockno (s.devicePerform k) := by
  have hmem := mem_of_getElem? he
  obtain ⟨r, hr, hhead, -⟩ := h.queues.heads e hmem
  -- the caller waits, so that the descriptors are those of its request
  have hnd := h.queues.pending_not_done hmem
  have hform : Formatted blockno s.disk r.buf r.write r.chain := by
    have hfact := h.calls.fact r.caller
    rcases h.calls.awaited _ r hr hnd with ha | ha <;> rw [ha] at hfact <;> exact hfact.1
  have hreq := hform.request
  rw [← hhead] at hreq
  obtain ⟨xs, ys, hsplit, hset, -⟩ := exists_split he
  have heq : s.devicePerform k = { s with
      disk := { s.disk with
        info := update s.disk.info r.chain.head { s.disk.info r.chain.head with status := 0 } }
      pending := xs ++ { e with performed := true } :: ys
      performed := s.performed ++ [(e.n, ⟨r.buf, r.write, sector blockno r.buf⟩)] } := by
    simp only [State.devicePerform, he, hreq, hset]
  rw [heq]
  refine ⟨h.device le_rfl rfl rfl (fun i => ?_) rfl rfl rfl, ?_⟩
  · by_cases hi : i = r.chain.head
    · subst hi
      simp
    · simp [hi]
  obtain ⟨h1, h2, h3, h4, h5, hperm, h7, h8, hheads, hused, hperf, hops⟩ := h.queues
  rw [hsplit] at hperm hperf
  -- a status that was 0 still is
  have hstatus : ∀ i, (s.disk.info i).status = 0 →
      (update s.disk.info r.chain.head { s.disk.info r.chain.head with status := 0 } i).status = 0 := by
    intro i hi
    by_cases hir : i = r.chain.head
    · simp [hir]
    · simp [hir, hi]
  refine ⟨h1, h2, h3, h4, h5, by simpa using hperm, h7, h8, fun e' he' => ?_, fun m n hm hn => ?_, ?_, fun n op ho => ?_⟩
  · have hcases : e' = { e with performed := true } ∨ e' ∈ s.pending := by
      rw [hsplit]
      simp only [mem_append, mem_cons] at he' ⊢
      tauto
    rcases hcases with rfl | he'
    · exact ⟨r, hr, hhead, fun _ => by simp⟩
    · obtain ⟨r', hr', hhead', hst⟩ := hheads e' he'
      exact ⟨r', hr', hhead', fun hp => hstatus _ (hst hp)⟩
  · obtain ⟨r', hr', hslot, hst⟩ := hused m n hm hn
    exact ⟨r', hr', hslot, hstatus _ hst⟩
  · simp only [map_append, map_cons, map_nil, filter_append, filter_cons, hnot,
      Bool.false_eq_true, if_false, if_true, append_assoc, cons_append] at hperf ⊢
    exact (perm_append_singleton ..).trans ((hperf.cons _).trans perm_middle.symm)
  · rcases mem_append.mp ho with ho | ho
    · exact hops n op ho
    · obtain ⟨rfl, rfl⟩ : n = e.n ∧ op = ⟨r.buf, r.write, sector blockno r.buf⟩ := by simpa using ho
      exact ⟨r, hr, rfl⟩

theorem used_slot_free (h : Inv blockno s) (he : e ∈ s.pending) (hm : s.finished.length ≤ m)
    (hm' : m < s.published.length) : slot m ≠ slot s.disk.usedIdx := by
  obtain ⟨r, hr, -⟩ := h.queues.heads e he
  have hnodup : (s.published.drop s.finished.length).Nodup :=
    (nodup_append.mp h.queues.nodup).2.1.sublist (drop_sublist ..)
  have hunseen : ∀ n ∈ (s.published.drop s.finished.length).toFinset, n ∉ s.done ∧ n < s.issued.length ∧ n ∈ s.published := by
    intro n hn
    obtain ⟨j, hj⟩ := mem_iff_getElem?.mp (mem_toFinset.mp hn)
    rw [getElem?_drop] at hj
    have hpub := mem_of_getElem? hj
    exact ⟨h.queues.unseen_not_done (by omega) hj, lt_of_lt_of_le (h.queues.lt_of_published hpub) h.queues.taken_le, hpub⟩
  have hcard := h.calls.card_add_le (s.published.drop s.finished.length).toFinset
    (fun n hn => ⟨(hunseen n hn).1, (hunseen n hn).2.1⟩) {r.chain.head} fun n hn r' hr' => by
      simp only [Finset.mem_singleton]
      intro heq
      have := h.calls.head_inj hr' (hunseen n hn).1 hr (h.queues.pending_not_done he) heq
      exact h.queues.pending_not_published he (this ▸ (hunseen n hn).2.2)
  rw [toFinset_card_of_nodup hnodup, length_drop, Finset.card_singleton] at hcard
  rw [h.queues.used, slot_mod]
  exact slot_ne hm' (by omega)

theorem publish (h : Inv blockno s) (he : s.pending[k]? = some e) (hdone : e.performed = true) :
    Inv blockno (s.devicePublish k) := by
  have hmem := mem_of_getElem? he
  obtain ⟨xs, ys, hsplit, -, herase⟩ := exists_split he
  have heq : s.devicePublish k = { s with
      disk := { s.disk with
        usedRing := update s.disk.usedRing (slot s.disk.usedIdx) e.head
        usedIdx := (s.disk.usedIdx + 1) % 2 ^ 16 }
      pending := xs ++ ys
      published := s.published ++ [e.n] } := by
    simp only [State.devicePublish, he, herase]
  rw [heq]
  refine ⟨h.device (by simp) rfl rfl (fun _ => rfl) rfl rfl rfl, ?_⟩
  have hle := h.queues.finished_le
  obtain ⟨h1, h2, hu, h4, h5, hperm, hd, h8, hheads, hused, hperf, h12⟩ := h.queues
  obtain ⟨r, hr, hhead, hst⟩ := hheads e hmem
  refine ⟨h1, h2, ?_, h4, h5, ?_, ?_, h8, fun e' he' => ?_, fun m n hm hn => ?_, ?_, h12⟩
  · simp only [hu, length_append, length_singleton]
    omega
  · rw [hsplit] at hperm
    refine List.Perm.trans ?_ hperm
    simp only [map_append, map_cons, append_assoc, cons_append]
    refine List.Perm.append_left _ ?_
    rw [← append_assoc]
    exact perm_append_singleton ..
  · rw [take_append_of_le_length hle]
    exact hd
  · refine hheads e' ?_
    rw [hsplit]
    simp only [mem_append, mem_cons] at he' ⊢
    tauto
  · rcases Nat.lt_or_ge m s.published.length with hlt | hge
    · rw [getElem?_append_left hlt] at hn
      obtain ⟨r', hr', hslot, hst'⟩ := hused m n hm hn
      refine ⟨r', hr', ?_, hst'⟩
      simp only [update_of_ne (h.used_slot_free hmem hm hlt)]
      exact hslot
    · have hlast : m = s.published.length := by
        obtain ⟨hlt, -⟩ := List.getElem?_eq_some_iff.mp hn
        simp only [length_append, length_singleton] at hlt
        omega
      subst hlast
      obtain rfl : e.n = n := by simpa using hn
      refine ⟨r, hr, ?_, hst hdone⟩
      rw [hu, slot_mod]
      simp only [update_self]
      exact hhead
  · rw [hsplit] at hperf
    refine hperf.trans ?_
    simp only [filter_append, filter_cons, hdone, if_true, map_append, map_cons, append_assoc,
      cons_append]
    refine List.Perm.append_left _ ?_
    rw [← append_assoc]
    exact (perm_append_singleton ..).symm

variable [DecidableEq ι] [DecidableEq β]

omit [DecidableEq β] in
theorem enter (h : Inv blockno s) (hout : s.pc p = .out) (hl : pc.locked = false) (hchain : pc.chain = none)
    (hbuf : ∀ b q, pc.buf = some b → (s.pc q).buf ≠ some b) (hself : Fact blockno (s.goto p pc) p pc) :
    Inv blockno (s.goto p pc) := by
  have hother : ∀ q, q ≠ p → (s.goto p pc).pc q = s.pc q := fun q hq => update_of_ne hq ..
  have hpc : (s.goto p pc).pc p = pc := update_self ..
  refine ⟨⟨fun q => ?_, chains_stay h.calls.chains (by rw [hout, hchain]; rfl), fun q q' b hq hq' => ?_, fun q => ?_,
    fun n r hr hn => ?_, h.calls.reported, h.calls.sleepers⟩,
    h.queues.congr (by rfl) (by rfl) (by rfl) (by rfl) (by rfl) (fun _ _ _ _ => by rfl) ..⟩
  · by_cases hqp : q = p
    · subst hqp
      have hno : s.lock ≠ some q := fun hlock => by
        have := (h.calls.holder q).mp hlock
        simp [hout, Pc.locked] at this
      simp only [hpc, hl]
      exact iff_of_false hno Bool.false_ne_true
    · simp only [hother q hqp]
      exact h.calls.holder q
  · by_cases hqp : q = p <;> by_cases hqp' : q' = p
    · exact hqp.trans hqp'.symm
    · rw [hqp, hpc] at hq
      rw [hother q' hqp'] at hq'
      exact absurd hq' (hbuf b q' hq)
    · rw [hqp', hpc] at hq'
      rw [hother q hqp] at hq
      exact absurd hq (hbuf b q hq')
    · rw [hother q hqp] at hq
      rw [hother q' hqp'] at hq'
      exact h.calls.bufs q q' b hq hq'
  · by_cases hqp : q = p
    · subst hqp
      rw [hpc]
      exact hself
    · have hfact := h.calls.fact q
      rw [hother q hqp]
      cases hq : s.pc q <;> rw [hq] at hfact <;> exact hfact
  · have hne : r.caller ≠ p := h.caller_ne hr hn (by simp [Awaits, hout])
    rw [hother _ hne]
    exact h.calls.awaited n r hr hn

theorem next (h : Inv blockno s) {e : Event ι β} (he : e.enabled s) :
    ∃ t, s.next blockno e = .ok t ∧ Inv blockno t := by
  cases e with
  | step p => exact h.step he
  | take => exact ⟨_, rfl, h.take he⟩
  | perform k =>
    obtain ⟨e, hk, hnot⟩ := he
    exact ⟨_, rfl, h.perform hk hnot⟩
  | publish k =>
    obtain ⟨e, hk, hdone⟩ := he
    exact ⟨_, rfl, h.publish hk hdone⟩
  | kill p =>
    obtain ⟨⟨h1, h2, h3, h4, h5, h6, h7⟩, hq⟩ := h
    exact ⟨_, rfl, ⟨h1, h2, h3, h4, h5, h6, fun q hs => h7 q hs.of_kill⟩,
      hq.congr (by rfl) (by rfl) (by rfl) (by rfl) (by rfl) (fun _ _ _ _ => by rfl) ..⟩
  | intr p => exact ⟨_, rfl, h.enter he rfl rfl (by simp [Pc.buf]) trivial⟩
  | call p b write =>
    refine ⟨_, rfl, h.enter he.1 rfl rfl (fun b' q hb => ?_) trivial⟩
    obtain rfl : b = b' := by simpa [Pc.buf] using hb
    exact he.2 q

end Inv

theorem Start.inv (h : Start s) : Inv blockno s := by
  obtain ⟨hfree, h1, h2, h3, h4, hlock, hp, hpend, hiss, htaken, hperf, hpub, hfin⟩ := h
  have hpc : ∀ p, s.pc p = .out := fun p => (hp p).1
  refine ⟨⟨fun p => ?_, ⟨?_, ?_, ?_, ?_⟩, ?_, fun p => ?_, ?_, ?_, fun p hs => absurd hs.1 (hp p).2⟩, ?_⟩
  · simp [hlock, hpc, Pc.locked]
  · simp [hpc, Pc.chain]
  · simp [hpc, Pc.chain]
  · simp [hpc, Pc.chain]
  · simp [hfree]
  · simp [hpc, Pc.buf]
  · rw [hpc]
    trivial
  · simp [hiss]
  · simp [hfin]
  · constructor <;> simp [State.done, h1, h2, h3, h4, hpend, hiss, htaken, hperf, hpub, hfin]

variable [DecidableEq ι] [DecidableEq β]

theorem inv_reach (h : Reach Start (Step blockno) s) : Inv blockno s := by
  refine h.invariant (I := Inv blockno) (fun s hs => hs.inv) fun s t _ hi hs => ?_
  obtain ⟨e, he, hnext⟩ := hs
  obtain ⟨t', hnext', ht⟩ := hi.next he
  rw [hnext] at hnext'
  exact Except.ok.inj hnext' ▸ ht

-- The protocol between the callers, virtio_disk_intr() and the device.
theorem disk_protocol (h : Reach Start (Step blockno) s) :
    -- the descriptors are free or belong to one call
    (∀ i, s.disk.free i = true ↔ ∀ p c, (s.pc p).chain = some c → ¬c.Has i) ∧
    (∀ p c, (s.pc p).chain = some c → c.Distinct) ∧
    (∀ p q c d, (s.pc p).chain = some c → (s.pc q).chain = some d → p ≠ q → ∀ i, c.Has i → ¬d.Has i) ∧
    -- the slots that are written hold nothing that is still to be looked at
    (∀ p b write c, s.pc p = .ring b write c → ∀ n, s.taken ≤ n → n < s.issued.length → slot n ≠ slot s.disk.availIdx) ∧
    (∀ e ∈ s.pending, ∀ m, s.finished.length ≤ m → m < s.published.length → slot m ≠ slot s.disk.usedIdx) ∧
    -- a request is performed and completed once, as it was issued and to the buffer that issued it
    (s.performed.map Prod.fst).Nodup ∧ s.done.Nodup ∧
    (∀ n op, (n, op) ∈ s.performed → ∃ r, s.issued[n]? = some r ∧ op = ⟨r.buf, r.write, sector blockno r.buf⟩) ∧
    (∀ n b, (n, b) ∈ s.finished → n ∈ s.performed.map Prod.fst ∧ ∃ r, s.issued[n]? = some r ∧ r.buf = b) ∧
    -- or is on its way, and its call waits
    (∀ n r, s.issued[n]? = some r → n ∉ s.done → Awaits (s.pc r.caller) r n ∧
      (s.taken ≤ n ∨ (∃ e ∈ s.pending, e.n = n) ∨ n ∈ s.published.drop s.finished.length)) ∧
    -- virtio_disk_rw() returns after its request is done
    (∀ p b n, s.pc p = .rwEnd b n → (n, b) ∈ s.finished ∧ ∃ write c, s.issued[n]? = some ⟨p, b, write, c⟩) ∧
    -- nothing panics
    (∀ e : Event ι β, e.enabled s → ∃ t, s.next blockno e = .ok t) ∧
    -- nobody waits for descriptors that are free
    (3 ≤ countFree s.disk.free → ∀ p, ¬SleepsOn s.tasks p .free) := by
  have hi := inv_reach h
  have hnodup := hi.queues.nodup
  have hperf : (s.performed.map Prod.fst).Nodup := by
    refine hi.queues.performed.nodup_iff.mpr (hnodup.sublist ?_)
    exact (filter_sublist.map Pending.n).append (List.Sublist.refl _)
  have hdone : s.done.Nodup := by
    rw [hi.queues.done]
    exact (nodup_append.mp hnodup).2.1.sublist (take_sublist ..)
  refine ⟨fun i => ⟨fun hf p c hc hhas => ?_, fun hall => ?_⟩, hi.calls.chains.distinct, hi.calls.chains.disjoint,
    fun p b write c hpc n hn hn' => hi.slot_free hpc hn hn', fun e he m hm hm' => hi.used_slot_free he hm hm', hperf,
    hdone, hi.queues.ops, fun n b hb => ⟨?_, hi.calls.reported n b hb⟩,
    fun n r hr hn => ⟨hi.calls.awaited n r hr hn, ?_⟩, fun p b n hpc => ?_, fun e he => ?_, fun hcount p hs => ?_⟩
  · have := hi.calls.chains.own p c hc i hhas
    simp [hf] at this
  · by_contra hf
    obtain ⟨p, c, hc, hhas⟩ := hi.calls.chains.cover i (by simpa using hf)
    exact hall p c hc hhas
  · refine hi.queues.performed.mem_iff.mpr (mem_append_right _ (hi.queues.published_of_done ?_))
    exact mem_map.mpr ⟨(n, b), hb, rfl⟩
  · rcases Nat.lt_or_ge n s.taken with hlt | hge
    · right
      rcases mem_append.mp (hi.queues.perm.mem_iff.mpr (mem_range.mpr hlt)) with hmem | hmem
      · obtain ⟨e, he, hen⟩ := mem_map.mp hmem
        exact .inl ⟨e, he, hen⟩
      · right
        rw [hi.queues.done] at hn
        rw [← take_append_drop s.finished.length s.published] at hmem
        exact (mem_append.mp hmem).resolve_left hn
    · exact .inl hge
  · have hfact := hi.calls.fact p
    rw [hpc] at hfact
    exact hfact
  · obtain ⟨t, ht, -⟩ := hi.next he
    exact ⟨t, ht⟩
  · have := hi.calls.sleepers p hs
    omega

instance Event.decidableEnabled (s : State (Fin 2) (Fin 1)) : ∀ e : Event (Fin 2) (Fin 1), Decidable (e.enabled s)
  | .call _ _ _ => inferInstanceAs (Decidable (_ ∧ _))
  | .intr _ => inferInstanceAs (Decidable (_ = _))
  | .step _ => inferInstanceAs (Decidable (_ ∧ _ ∧ _))
  | .kill _ => inferInstanceAs (Decidable True)
  | .take => inferInstanceAs (Decidable (_ ≠ _))
  | .perform k => inferInstanceAs (Decidable (∃ e, s.pending[k]? = some e ∧ e.performed = false))
  | .publish k => inferInstanceAs (Decidable (∃ e, s.pending[k]? = some e ∧ e.performed = true))

def sampleDisk : State (Fin 2) (Fin 1) where
  disk := {
    desc := fun _ => { addr := .null, len := 0, flags := 0, next := 0 }
    availRing := fun _ => 0
    availIdx := 0
    usedRing := fun _ => 0
    usedIdx := 0
    free := fun _ => true
    used_idx := 0
    info := fun _ => { b := none, status := 0 }
    ops := fun _ => { type := 0, reserved := 0, sector := 0 } }
  busy := fun _ => false
  lock := none
  tasks := fun _ => { state := .RUNNABLE, chan := none, killed := false }
  pc := fun _ => .out
  lastAvail := 0
  pending := []
  issued := []
  taken := 0
  performed := []
  published := []
  finished := []

theorem sampleDisk_start : Start sampleDisk := by
  simp [Start, sampleDisk]

-- The first process reads a block, and the second one takes the interrupt.
def sampleRead : List (Event (Fin 2) (Fin 1)) :=
  [.call 0 0 false, .step 0, .step 0, .step 0, .step 0, .step 0, .step 0, .take, .perform 0, .publish 0,
    .intr 1, .step 1, .step 1, .step 1, .step 1, .step 0, .step 0, .step 0]

theorem disk_protocol_read : ∃ s : State (Fin 2) (Fin 1), s.pc 0 = .rwEnd 0 0 ∧ (0, 0) ∈ s.finished := by
  obtain ⟨s, hs, hpc⟩ : ∃ s, (runs (fun s e => Event.enabled s e) (State.next fun _ => 7) sampleDisk sampleRead) =
      some s ∧ s.pc 0 = .rwEnd 0 0 :=
    exists_of_any (by decide +kernel)
  have hreach : Reach Start (Step fun _ => 7) s :=
    Reach.runs (fun e _ s t he hn => ⟨e, he, hn⟩) (.start sampleDisk_start) hs
  obtain ⟨-, -, -, -, -, -, -, -, -, -, hend, -⟩ := disk_protocol hreach
  exact ⟨s, hpc, (hend 0 0 0 hpc).1⟩

end Xv6.Virtio
