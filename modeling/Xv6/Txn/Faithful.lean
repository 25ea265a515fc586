import Xv6.Txn.Buffers

set_option linter.unusedSectionVars false

namespace Xv6.Txn

open Lib Bio Fs Function

-- The blocks of the log on the disk: its header and the copies.
def Area.own (A : Area) (n : Nat) : Prop := n = A.start ∨ A.start < n ∧ n < A.start + A.size

instance Area.decidableOwn (A : Area) (n : Nat) : Decidable (A.own n) := inferInstanceAs (Decidable (_ ∨ _))

variable {ι : Type} {A : Area} {s t : State ι} {p : ι}

-- Processes that give back a buffer they changed only after bwrite() or log_write(). The log's own
-- blocks are not logged, and no block that a commit is about is changed meanwhile.
def Careful (A : Area) (s : State ι) : Event ι → Prop
  | .client (.bget _ dev _) => dev = A.dev
  | .client (.modify _ b _) => s.ops.log.committing = true →
      (s.buf b).blockno ∉ s.ops.log.lh ∧ ¬A.own (s.buf b).blockno
  | .client (.release _ b) => s.dirty b = false
  | .logWrite p b => (s.buf b).lock = some p ∧ ¬A.own (s.buf b).blockno
  | _ => True

theorem Careful.orderly (h : Careful A s e) (he : ∀ p, e ≠ .op (.endOp p)) : Orderly A s e := by
  cases e with
  | client e =>
    cases e with
    | bget p dev n => exact h
    | _ => exact trivial
  | op e =>
    cases e with
    | endOp p => exact absurd rfl (he p)
    | _ => exact trivial
  | logWrite p b => exact h.1
  | instr p => exact trivial

-- The turn i of write_log() is behind its statement x.
def Past (x : Instr) : Ops.Place → List Instr → Nat → Prop
  | .writeLog tail, sc, i => i < tail ∨ i = tail ∧ x ∉ sc
  | _, _, _ => True

-- The cache and the log against the contents that the blocks were given last.
structure Faithful (A : Area) (s : State ι) : Prop where
  content : Content A.dev s.bio s.latest s.dirty s.pinned
  outside : ∀ n ∈ s.ops.log.lh, ¬A.own n
  room : ∀ i, i < s.ops.log.lh.length → i + 1 < A.size
  -- commit() leaves no buffer changed for longer than to the next statement
  clean : ∀ p, (s.ops.place p).commits = true → ∀ r, needs (s.script p) r = true →
    s.bio.call p ≠ .waits (s.reg p r) → s.dirty (s.reg p r) = true → ∃ rest, s.script p = .bwrite r :: rest
  moved : ∀ p, (s.ops.place p).commits = true → ∀ i n, s.ops.log.lh[i]? = some n →
    Past .toLog (s.ops.place p) (s.script p) i → s.latest (A.start + i + 1) = s.latest n
  saved : ∀ p, (s.ops.place p).commits = true → ∀ i n, s.ops.log.lh[i]? = some n →
    Past (.bwrite .log) (s.ops.place p) (s.script p) i → s.bio.disk (A.start + i + 1) = s.latest n
  installed : ∀ p tail n, s.ops.place p = .install tail → s.ops.log.lh[tail]? = some n →
    .bwrite .home ∉ s.script p → s.bio.disk n = s.latest n

theorem Faithful.own (h : Faithful A s) {i n : Nat} (hn : s.ops.log.lh[i]? = some n) : A.own (A.start + i + 1) := by
  obtain ⟨hlt, -⟩ := List.getElem?_eq_some_iff.mp hn
  have := h.room i hlt
  exact .inr ⟨by omega, by omega⟩

theorem Faithful.not_own (h : Faithful A s) {i n : Nat} (hn : s.ops.log.lh[i]? = some n) : ¬A.own n :=
  h.outside n (List.mem_of_getElem? hn)

theorem Along.past_toLog (h : Along A lh u pl sc)
    (hi : Past (.bwrite .log) pl sc i) : Past .toLog pl sc i := by
  cases h with
  | @writeLog tail n sc hn hsc =>
    refine Or.imp_right (fun hpast => ⟨hpast.1, ?_⟩) hi
    simp only [Txn.writeLog, List.suffix_cons_iff, List.suffix_nil] at hsc
    rcases hsc with rfl | rfl | rfl | rfl | rfl | rfl | rfl <;> simp_all
  | logged hn => exact Or.imp_right (fun hpast => ⟨hpast.1, by simp⟩) hi
  | writeHead hsc | install hn hsc | installed hn | erase | finish hsc hlh => trivial

theorem Past.tail (h : Past x pl rest j) (hi : i ≠ x) :
    Past x pl (i :: rest) j := by
  cases pl with
  | writeLog tail => exact Or.imp_right (fun ⟨hj, hx⟩ => ⟨hj, by simp [hx, Ne.symm hi]⟩) h
  | _ => trivial

variable [Fintype ι] [DecidableEq ι]

-- A step that leaves the log and the statements of commit(), and the contents of the blocks
-- that a commit is about. What it writes on the disk are the contents given last.
theorem Faithful.outer (h : Faithful A s) (hr : Regular A s) (hops : t.ops = s.ops) (hscript : t.script = s.script)
    (hreg : t.reg = s.reg) (hcontent : Content A.dev t.bio t.latest t.dirty t.pinned)
    (hlatest : s.ops.log.committing = true → ∀ m, m ∈ s.ops.log.lh ∨ A.own m → t.latest m = s.latest m)
    (hdisk : ∀ m, t.bio.disk m = s.bio.disk m ∨ t.bio.disk m = t.latest m)
    (hclean : ∀ p, (s.ops.place p).commits = true → ∀ r, needs (s.script p) r = true →
      t.bio.call p ≠ .waits (s.reg p r) → t.dirty (s.reg p r) = true →
      s.bio.call p ≠ .waits (s.reg p r) ∧ s.dirty (s.reg p r) = true) : Faithful A t := by
  refine ⟨hcontent, hops ▸ h.outside, hops ▸ h.room, ?_, ?_, ?_, ?_⟩
  · rw [hops, hscript, hreg]
    intro p hp r hneeds hwaits hdirty
    obtain ⟨hwaits, hdirty⟩ := hclean p hp r hneeds hwaits hdirty
    exact h.clean p hp r hneeds hwaits hdirty
  · rw [hops, hscript]
    intro p hp i n hn hpast
    have hkeep := hlatest (hr.committing hp)
    rw [hkeep _ (.inr (h.own hn)), hkeep n (.inl (List.mem_of_getElem? hn))]
    exact h.moved p hp i n hn hpast
  · rw [hops, hscript]
    intro p hp i n hn hpast
    have hkeep := hlatest (hr.committing hp)
    rw [hkeep n (.inl (List.mem_of_getElem? hn))]
    rcases hdisk (A.start + i + 1) with heq | heq
    · rw [heq]
      exact h.saved p hp i n hn hpast
    · rw [heq, hkeep _ (.inr (h.own hn))]
      exact h.moved p hp i n hn ((hr.along p hp).past_toLog hpast)
  · rw [hops, hscript]
    intro p tail n hp hn hnot
    have hcom := hr.committing (p := p) (by rw [hp]; rfl)
    rcases hdisk n with heq | heq
    · rw [heq, hlatest hcom n (.inl (List.mem_of_getElem? hn))]
      exact h.installed p tail n hp hn hnot
    · exact heq

theorem not_commits_of_asks (h : s.ops.place q = .out ∨ s.ops.place q = .inOp) :
    (s.ops.place q).commits = false := by
  rcases h with h | h <;> rw [h] <;> rfl

theorem Regular.reg_ne (h : Regular A s) (hp : (s.ops.place p).commits = true)
    (hneeds : needs (s.script p) r = true) (hwaits : s.bio.call p ≠ .waits (s.reg p r))
    (hb : (s.buf b).lock = some q) (hq : (s.ops.place q).commits = false) : s.reg p r ≠ b := by
  rintro rfl
  rcases (h.regs p hp r hneeds).1 with hlock | hw
  · have heq : some q = some p := hb.symm.trans hlock
    obtain rfl := Option.some.inj heq
    simp [hp] at hq
  · exact hwaits hw

theorem Faithful.within (h : Faithful A s) (hr : Regular A s) (he : e.enabled s.bio)
    (hn : Bio.next s.bio e = .ok t.bio) (ht : t = { s with bio := t.bio })
    (hcontent : Content A.dev t.bio s.latest s.dirty s.pinned) (hdisk : t.bio.disk = s.bio.disk) : Faithful A t := by
  have hlatest : t.latest = s.latest := by rw [ht]
  have hdirty : t.dirty = s.dirty := by rw [ht]
  have hpinned : t.pinned = s.pinned := by
    rw [ht]
    rfl
  refine h.outer hr (by rw [ht]) (by rw [ht]) (by rw [ht]) ?_ (fun _ _ _ => by rw [hlatest])
    (fun m => .inl (by rw [hdisk])) fun p hp r hneeds hwaits hd => ?_
  · rw [hlatest, hdirty, hpinned]
    exact hcontent
  · rw [hdirty] at hd
    refine ⟨fun hw => ?_, hd⟩
    -- it got the lock, so nobody had the buffer changed
    by_cases hproc : e.proc = some p
    · obtain rfl := proc_waits he hw hproc
      obtain ⟨b, hb, hfree⟩ := he
      obtain rfl : s.reg p r = b := by simpa [hw] using hb
      obtain ⟨q, hq⟩ := h.content.dirty _ hd
      simp [hfree] at hq
    · exact hwaits ((call_event he hn hproc).trans hw)

theorem Faithful.modify (h : Faithful A s) (hr : Regular A s) (hA : A.dev ≠ 0)
    (hout : s.bio.call p = .out) (hb : (s.buf b).lock = some p)
    (hplace : s.ops.place p = .out ∨ s.ops.place p = .inOp) (hc : Careful A s (.client (.modify p b v))) :
    Faithful A (s.modify b v) := by
  have hdev := hr.cached.owned.dev p b hb
  have hvalid := hr.cached.owned.valid_of_out hout hb
  refine h.outer hr rfl rfl rfl ?_ (fun hcom m hm => ?_) (fun m => .inl rfl) fun q hq r hneeds hwaits hd => ?_
  · exact h.content.modify hr.cached.bio.unique hA hb hdev hvalid v
  · obtain ⟨h1, h2⟩ := hc hcom
    refine update_of_ne ?_ ..
    rintro rfl
    exact hm.elim h1 h2
  · have hne := hr.reg_ne hq hneeds hwaits hb (not_commits_of_asks hplace)
    exact ⟨hwaits, by simpa [State.modify, update_of_ne hne] using hd⟩

theorem State.bwrite_eq (hn : s.bwrite p b = .ok t) : (s.buf b).lock = some p ∧ t = { s with
    bio := { s.bio with disk := update s.bio.disk (s.buf b).blockno (s.buf b).data }
    dirty := update s.dirty b false } := by
  obtain ⟨bio, hbio, rfl⟩ := bind_return_eq_ok.mp hn
  obtain ⟨hlock, rfl⟩ := Bio.State.bwrite_eq_ok (mapError_eq_ok.mp hbio)
  exact ⟨hlock, rfl⟩

section

variable (h : Faithful A s) (hr : Regular A s)
include h hr

-- bwrite() by the process that has b locked writes what the block was given last.
theorem Faithful.bwrite_disk (hout : s.bio.call p = .out) (hb : (s.buf b).lock = some p) (m : Nat) :
    (m ≠ (s.buf b).blockno ∧
      update s.bio.disk (s.buf b).blockno (s.buf b).data m = s.bio.disk m) ∨
    (m = (s.buf b).blockno ∧ update s.bio.disk (s.buf b).blockno (s.buf b).data m = s.latest m) := by
  by_cases hm : m = (s.buf b).blockno
  · refine .inr ⟨hm, ?_⟩
    rw [hm, update_self]
    exact h.content.data b (hr.cached.owned.dev p b hb) (hr.cached.owned.valid_of_out hout hb)
  · exact .inl ⟨hm, update_of_ne hm ..⟩

theorem Faithful.bwrite_content (hout : s.bio.call p = .out) (hb : (s.buf b).lock = some p) :
    Content A.dev { s.bio with disk := update s.bio.disk (s.buf b).blockno (s.buf b).data } s.latest
      (update s.dirty b false) s.pinned :=
  h.content.bwrite (hr.cached.owned.dev p b hb) (hr.cached.owned.valid_of_out hout hb) (if_pos hb)

theorem Faithful.bwrite (hout : s.bio.call p = .out)
    (hplace : s.ops.place p = .out ∨ s.ops.place p = .inOp) (hn : s.bwrite p b = .ok t) : Faithful A t := by
  obtain ⟨hb, rfl⟩ := State.bwrite_eq hn
  refine h.outer hr rfl rfl rfl (h.bwrite_content hr hout hb) (fun _ _ _ => rfl) (fun m => ?_)
    fun q hq r hneeds hwaits hd => ?_
  · exact (h.bwrite_disk hr hout hb m).imp (fun hm => hm.2) fun hm => hm.2
  · have hne := hr.reg_ne hq hneeds hwaits hb (not_commits_of_asks hplace)
    exact ⟨hwaits, by simpa [update_of_ne hne] using hd⟩

theorem Faithful.client (hA : A.dev ≠ 0) (he : e.enabled s.bio) (ha : Asks s e)
    (hc : Careful A s (.client e)) (hn : s.client e = .ok t) : Faithful A t := by
  have hwithin : (do
      let bio ← (Bio.next s.bio e).mapError Panic.bio
      return ({ s with bio := bio } : State ι)) = .ok t →
      (∀ u, Bio.next s.bio e = .ok u → Content A.dev u s.latest s.dirty s.pinned ∧ u.disk = s.bio.disk) →
      Faithful A t := by
    intro hn hu
    obtain ⟨bio, hb, rfl⟩ := bind_return_eq_ok.mp hn
    rw [mapError_eq_ok] at hb
    obtain ⟨hcontent, hdisk⟩ := hu bio hb
    exact h.within hr he hb rfl hcontent hdisk
  cases e with
  | bget q dev n =>
    refine hwithin hn fun u hu => ⟨h.content.bget hr.cached.bio hu, ?_⟩
    obtain ⟨⟨b, c⟩, -, hu⟩ := bind_eq_ok.mp hu
    rw [return_eq_ok] at hu
    rw [← hu]
    rfl
  | lock q =>
    refine hwithin hn fun u hu => ?_
    obtain ⟨b, hb, hfree⟩ := he
    simp only [Bio.next, hb] at hu
    cases hu
    refine ⟨h.content.congr (Cache.set_field Buf.shown rfl rfl) rfl (fun b' hb' => ?_) (fun _ hp => hp), rfl⟩
    have hbb : b' ≠ b := by
      rintro rfl
      obtain ⟨q', hq'⟩ := h.content.dirty b' hb'
      simp [hfree] at hq'
    simp [Bio.State.lock, Bio.State.setBuf, Cache.set_of_ne _ _ hbb]
  | fill q =>
    refine hwithin hn fun u hu => ?_
    obtain ⟨b, hb⟩ := he
    simp only [Bio.next, hb] at hu
    cases hu
    refine ⟨h.content.fill hr.cached.bio.unique hA ?_, ?_⟩
    · exact hr.cached.owned.dev q b (hr.cached.owned.fills q b hb)
    · rw [Bio.State.fill]
      split <;> rfl
  | modify q b v =>
    simp only [State.client, Except.ok.injEq] at hn
    exact hn ▸ h.modify hr hA he.1 he.2 ha hc
  | bwrite q b => exact h.bwrite hr he ha hn
  | release q b =>
    refine hwithin hn fun u hu => ⟨h.content.release hc hu, ?_⟩
    rw [(Bio.State.release_eq_ok hu).2]
    rfl
  | brelse q =>
    refine hwithin hn fun u hu => ?_
    obtain ⟨b, hb⟩ := he
    simp only [Bio.next, hb] at hu
    cases hu
    refine ⟨h.content.brelse, ?_⟩
    rw [Bio.State.brelse]
    split <;> rfl
  | bpin b | bunpin b => exact ha.elim

theorem Faithful.logWrite (hp : s.ops.place p = .inOp) (hout : s.bio.call p = .out)
    (hc : Careful A s (.logWrite p b)) (hn : s.logWrite A p b = .ok t) : Faithful A t := by
  obtain ⟨hb, hown⟩ := hc
  obtain ⟨⟨new, l⟩, hnew, hn⟩ := bind_eq_ok.mp hn
  obtain ⟨ops, hops, rfl⟩ := bind_return_eq_ok.mp hn
  rw [mapError_eq_ok] at hnew hops
  have hcom := hr.ops.not_committing hp
  have hzero := hr.idle hcom
  obtain ⟨new', l', hl', rfl⟩ := Ops.State.logWrite_eq_ok hops
  cases hnew.symm.trans hl'
  have hquiet : ∀ q, ¬(s.ops.place q).commits = true := fun q => by simp [hr.not_commits hcom q]
  have hinstall : ∀ q tail, s.ops.place q ≠ .install tail := by
    intro q tail hq
    exact hquiet q (by rw [hq]; rfl)
  have hpinned : s.pinned = s.ops.log.lh := by rw [State.pinned, hzero, List.drop_zero]
  have hdev := hr.cached.owned.dev p b hb
  have hvalid := hr.cached.owned.valid_of_out hout hb
  have hcontent := h.content
  rw [hpinned] at hcontent
  obtain ⟨-, hsize, -, ⟨hmem, rfl, rfl⟩ | ⟨hnot, rfl, rfl⟩⟩ := Ops.Log.logWrite_cases hnew
  · refine ⟨?_, h.outside, h.room, fun q hq => absurd hq (hquiet q), fun q hq => absurd hq (hquiet q),
      fun q hq => absurd hq (hquiet q), fun q tail _ hq => absurd hq (hinstall q tail)⟩
    simp only [State.pinned, hzero, List.drop_zero, Bool.false_eq_true, if_false]
    exact hcontent.clean hdev hvalid hmem
  · refine ⟨?_, fun n hn => ?_, fun i hi => ?_, fun q hq => absurd hq (hquiet q), fun q hq => absurd hq (hquiet q),
      fun q hq => absurd hq (hquiet q), fun q tail _ hq => absurd hq (hinstall q tail)⟩
    · simp only [State.pinned, hzero, List.drop_zero, if_true]
      have hset : (s.bio.bpin b).cache = s.bio.cache.set b { s.buf b with refcnt := (s.buf b).refcnt + 1 } := rfl
      have hno : ((s.bio.bpin b).cache.buf b).blockno = (s.buf b).blockno :=
        Cache.set_field Buf.blockno hset rfl b
      refine (hcontent.bpin hdev hvalid).clean ?_ ?_ ?_
      · exact (Cache.set_field Buf.dev hset rfl b).trans hdev
      · exact (Cache.set_field Buf.valid hset rfl b).trans hvalid
      · rw [hno]
        exact List.mem_append_right _ (List.mem_singleton_self _)
    · rcases List.mem_append.mp hn with hn | hn
      · exact h.outside n hn
      · rw [List.mem_singleton.mp hn]
        exact hown
    · simp only [List.length_append, List.length_singleton] at hi
      omega

end

theorem Faithful.quiet (h : Faithful A s) (ht : t = { s with ops := t.ops, script := t.script })
    (hlh : t.ops.log.lh = s.ops.log.lh)
    (hplace : ∀ q, (t.ops.place q).commits = true → t.ops.place q = s.ops.place q ∧ t.script q = s.script q) :
    Faithful A t := by
  have hbio : t.bio = s.bio := by rw [ht]
  have hreg : t.reg = s.reg := by rw [ht]
  have hlatest : t.latest = s.latest := by rw [ht]
  have hdirty : t.dirty = s.dirty := by rw [ht]
  have hunp : t.unpinned = s.unpinned := by rw [ht]
  refine ⟨?_, by rw [hlh]; exact h.outside, by rw [hlh]; exact h.room, fun q hq => ?_, fun q hq => ?_,
    fun q hq => ?_, fun q tail n hq => ?_⟩
  · rw [State.pinned, hlh, hunp, hbio, hlatest, hdirty]
    exact h.content
  · obtain ⟨hpl, hsc⟩ := hplace q hq
    rw [hpl] at hq
    rw [hsc, hbio, hreg, hdirty]
    exact h.clean q hq
  · obtain ⟨hpl, hsc⟩ := hplace q hq
    rw [hpl] at hq
    rw [hlh, hpl, hsc, hlatest]
    exact h.moved q hq
  · obtain ⟨hpl, hsc⟩ := hplace q hq
    rw [hpl] at hq
    rw [hlh, hpl, hsc, hlatest, hbio]
    exact h.saved q hq
  · obtain ⟨hpl, hsc⟩ := hplace q (by rw [hq]; rfl)
    rw [hlh, hsc, hlatest, hbio]
    exact h.installed q tail n (hpl ▸ hq)

theorem Faithful.turn (h : Faithful A s) (hbio : t.bio = s.bio) (hlatest : t.latest = s.latest)
    (hdirty : t.dirty = s.dirty) (hpinned : t.pinned = s.pinned)
    (hlh : ∀ (i : Nat) n, t.ops.log.lh[i]? = some n → s.ops.log.lh[i]? = some n) (hops : Ops.Admission t.ops)
    (hp : (t.ops.place p).commits = true) (hneeds : ∀ r, needs (t.script p) r = false)
    (hpast : ∀ x (i : Nat) n, t.ops.log.lh[i]? = some n → x = .toLog ∨ x = .bwrite .log →
      Past x (t.ops.place p) (t.script p) i →
      (s.ops.place p).commits = true ∧ Past x (s.ops.place p) (s.script p) i)
    (hinstall : ∀ tail n, t.ops.place p = .install tail → t.ops.log.lh[tail]? = some n →
      .bwrite .home ∈ t.script p) : Faithful A t := by
  have honly : ∀ q, (t.ops.place q).commits = true → q = p := fun q hq => hops.solo q p hq hp
  refine ⟨by rw [hbio, hlatest, hdirty, hpinned]; exact h.content, fun n hn => ?_, fun i hi => ?_,
    fun q hq r hr => ?_, fun q hq i n hn hx => ?_, fun q hq i n hn hx => ?_, fun q tail n hq hn hnot => ?_⟩
  · obtain ⟨i, hi⟩ := List.getElem?_of_mem hn
    exact h.not_own (hlh i n hi)
  · obtain ⟨hlt, -⟩ := List.getElem?_eq_some_iff.mp (hlh i _ (List.getElem?_eq_getElem hi))
    exact h.room i hlt
  · rw [honly q hq, hneeds] at hr
    simp at hr
  · rw [honly q hq] at hx
    obtain ⟨hc, hx⟩ := hpast _ i n hn (.inl rfl) hx
    rw [hlatest]
    exact h.moved p hc i n (hlh i n hn) hx
  · rw [honly q hq] at hx
    obtain ⟨hc, hx⟩ := hpast _ i n hn (.inr rfl) hx
    rw [hlatest, hbio]
    exact h.saved p hc i n (hlh i n hn) hx
  · obtain rfl := honly q (by rw [hq]; rfl)
    exact absurd (hinstall tail n hq hn) hnot

theorem past_body (hn : lh[i]? = some n)
    (hx : x = .toLog ∨ x = .bwrite .log) (h : Past x (.writeLog tail) (body A lh (.writeLog tail)) i) : i < tail := by
  rcases h with h | ⟨rfl, hnot⟩
  · exact h
  · rcases hx with rfl | rfl <;> simp [body, hn, Txn.writeLog] at hnot

theorem Turn.past (h : Turn lh pl pl') (hn : lh[i]? = some n) (hx : x = .toLog ∨ x = .bwrite .log)
    (hpast : Past x pl' (body A lh pl') i) : pl.commits = true ∧ Past x pl [] i := by
  obtain ⟨hlt, -⟩ := List.getElem?_eq_some_iff.mp hn
  cases h with
  | empty h => simp [h] at hn
  | begins h => exact absurd (past_body hn hx hpast) (by omega)
  | @logs tail h =>
    have hle := past_body hn hx hpast
    refine ⟨rfl, ?_⟩
    by_cases hi : i = tail
    · exact .inr ⟨hi, by simp⟩
    · exact .inl (by omega)
  | logged h => exact ⟨rfl, .inl (by omega)⟩
  | head | installs h | installed h => exact ⟨rfl, trivial⟩

theorem mem_body_install (hn : lh[tail]? = some n) :
    .bwrite .home ∈ body A lh (.install tail) := by
  simp [body, hn, installTrans]

section

variable (h : Faithful A s) (hr : Regular A s)
include h hr

theorem Faithful.op (he : (Event.op e).enabled s) (hn : s.op A e = .ok t) : Faithful A t := by
  obtain ⟨hadm, hcase, hapart⟩ := hr.op_cases he hn
  cases hcase with
  | quiet ht hlh hp => exact h.quiet ht hlh fun q hq => hapart.commits hp hq
  | turn ht hlh hturn hsc =>
    have hscript : t.script (proc e) = body A s.ops.log.lh (t.ops.place (proc e)) := by
      rw [ht]
      exact update_self ..
    refine h.turn (p := proc e) (by rw [ht]) (by rw [ht]) (by rw [ht]) ?_ (fun i n => by rw [hlh]; exact id) hadm
      hturn.commits (fun r => by rw [hscript]; exact needs_body ..) (fun x i n hn hx hpast => ?_)
      fun tail n htail hn => ?_
    · rw [State.pinned, hlh, ht, State.pinned]
    · rw [hlh] at hn
      rw [hscript] at hpast
      obtain ⟨hc, hpast⟩ := hturn.past hn hx hpast
      exact ⟨hc, hsc hc ▸ hpast⟩
    · rw [hlh] at hn
      rw [hscript, htail]
      exact mem_body_install hn
  | erase ht hp hlh hplace =>
    have hscript : t.script (proc e) = writeHead A := by
      rw [ht]
      exact update_self ..
    have hunp := (hp ▸ hr.along _ (by rw [hp]; rfl) : Along A _ _ .erase _).unpinned_erase
    refine h.turn (p := proc e) (by rw [ht]) (by rw [ht]) (by rw [ht]) ?_ (by simp [hlh]) hadm
      (by rw [hplace]; rfl) (fun r => by rw [hscript]; exact needs_writeHead A r) (by simp [hlh]) (by simp [hplace])
    simp [State.pinned, hlh, hunp]

theorem Faithful.only (hp : (s.ops.place p).commits = true) (hops : t.ops = s.ops)
    (hcontent : Content A.dev t.bio t.latest t.dirty t.pinned)
    (hclean : ∀ r, needs (t.script p) r = true → t.bio.call p ≠ .waits (t.reg p r) → t.dirty (t.reg p r) = true → ∃ rest, t.script p = .bwrite r :: rest)
    (hmoved : ∀ (i : Nat) n, s.ops.log.lh[i]? = some n → Past .toLog (s.ops.place p) (t.script p) i → t.latest (A.start + i + 1) = t.latest n)
    (hsaved : ∀ (i : Nat) n, s.ops.log.lh[i]? = some n → Past (.bwrite .log) (s.ops.place p) (t.script p) i → t.bio.disk (A.start + i + 1) = t.latest n)
    (hinstalled : ∀ (tail : Nat) n, s.ops.place p = .install tail → s.ops.log.lh[tail]? = some n → .bwrite .home ∉ t.script p → t.bio.disk n = t.latest n) :
    Faithful A t := by
  have honly : ∀ q, (t.ops.place q).commits = true → q = p := fun q hq => hr.ops.solo q p (hops ▸ hq) hp
  refine ⟨hcontent, hops ▸ h.outside, hops ▸ h.room, fun q hq => ?_, fun q hq => ?_, fun q hq => ?_,
    fun q tail n hq => ?_⟩
  · rw [honly q hq]
    exact hclean
  · rw [honly q hq, hops]
    exact hmoved
  · rw [honly q hq, hops]
    exact hsaved
  · obtain rfl := honly q (by rw [hq]; rfl)
    rw [hops] at hq ⊢
    exact hinstalled tail n hq

end

-- A process in commit() before its next statement, with the buffers of its local variables.
structure Ready (A : Area) (s : State ι) (p : ι) (i : Instr) (rest : List Instr) : Prop where
  commits : (s.ops.place p).commits = true
  out : s.bio.call p = .out
  script : s.script p = i :: rest
  along : Along A s.ops.log.lh s.unpinned (s.ops.place p) (i :: rest)
  lock : ∀ r, needs (i :: rest) r = true → (s.buf (s.reg p r)).lock = some p
  dev : ∀ r, needs (i :: rest) r = true → (s.buf (s.reg p r)).dev = A.dev
  valid : ∀ r, needs (i :: rest) r = true → (s.buf (s.reg p r)).valid = true
  blockno : ∀ r, needs (i :: rest) r = true →
    (s.buf (s.reg p r)).blockno = target A s.ops.log.lh (s.ops.place p) r
  data : ∀ r, needs (i :: rest) r = true →
    (s.buf (s.reg p r)).data = s.latest (target A s.ops.log.lh (s.ops.place p) r)
  clean : ∀ r, needs (i :: rest) r = true → i ≠ .bwrite r → s.dirty (s.reg p r) = false
  apart : needs (i :: rest) .log = true → needs (i :: rest) .home = true → s.reg p .log ≠ s.reg p .home

variable {i : Instr} {rest : List Instr}

theorem Faithful.ready (h : Faithful A s) (hr : Regular A s) (hp : (s.ops.place p).commits = true)
    (hout : s.bio.call p = .out) (hsc : s.script p = i :: rest) : Ready A s p i rest := by
  have hregs := hr.regs p hp
  have hclean := h.clean p hp
  have hapart := hr.apart p hp
  have halong := hr.along p hp
  rw [hsc] at hregs hclean hapart halong
  have hlock : ∀ r, needs (i :: rest) r = true → (s.buf (s.reg p r)).lock = some p :=
    fun r hneeds => (hregs r hneeds).1.lock_of_out hout
  have hdev : ∀ r, needs (i :: rest) r = true → (s.buf (s.reg p r)).dev = A.dev :=
    fun r hneeds => hr.cached.owned.dev p _ (hlock r hneeds)
  have hvalid : ∀ r, needs (i :: rest) r = true → (s.buf (s.reg p r)).valid = true :=
    fun r hneeds => hr.cached.owned.valid_of_out hout (hlock r hneeds)
  have hblock : ∀ r, needs (i :: rest) r = true →
      (s.buf (s.reg p r)).blockno = target A s.ops.log.lh (s.ops.place p) r :=
    fun r hneeds => (Prod.mk.inj (hregs r hneeds).2).2
  refine ⟨hp, hout, hsc, halong, hlock, hdev, hvalid, hblock, fun r hneeds => ?_, fun r hneeds hi => ?_,
    fun h1 h2 heq => ?_⟩
  · rw [← hblock r hneeds]
    exact h.content.data _ (hdev r hneeds) (hvalid r hneeds)
  · by_contra hd
    obtain ⟨rest', hrest'⟩ := hclean r hneeds (by simp [hout]) (by simpa using hd)
    exact hi (List.cons.inj hrest').1
  · have hstuck := (hapart h1 h2 heq).1
    simp [hout] at hstuck

theorem Along.lh_of_cons (h : Along A lh u pl (i :: rest))
    (hpl : pl = .writeLog tail ∨ pl = .install tail) : ∃ n, lh[tail]? = some n := by
  cases h with
  | @writeLog tail' n sc hn hsc | @install tail' n sc hn hsc =>
    have htail : tail' = tail := by simpa using hpl
    exact ⟨n, htail ▸ hn⟩
  | writeHead hsc | finish hsc hlh => simp at hpl

section

variable (h : Faithful A s) (hr : Regular A s)
include h hr

theorem Faithful.idle (hd : Ready A s p i rest) (hw : ∀ r, i ≠ .bwrite r) (hl : i ≠ .toLog) (hops : t.ops = s.ops)
    (hscript : t.script p = rest) (hlatest : t.latest = s.latest) (hdisk : t.bio.disk = s.bio.disk)
    (hcontent : Content A.dev t.bio t.latest t.dirty t.pinned)
    (hclean : ∀ r, needs rest r = true → t.bio.call p ≠ .waits (t.reg p r) → t.dirty (t.reg p r) = true → ∃ rest', rest = .bwrite r :: rest') :
    Faithful A t := by
  refine h.only hr hd.commits hops hcontent (hscript ▸ hclean) (fun j n hj hx => ?_) (fun j n hj hx => ?_)
    fun tail n hpl hj hnot => ?_
  · rw [hscript] at hx
    rw [hlatest]
    exact h.moved p hd.commits j n hj (by rw [hd.script]; exact hx.tail hl)
  · rw [hscript] at hx
    rw [hlatest, hdisk]
    exact h.saved p hd.commits j n hj (by rw [hd.script]; exact hx.tail (hw .log))
  · rw [hscript] at hnot
    rw [hlatest, hdisk]
    exact h.installed p tail n hpl hj (by rw [hd.script]; simp [hnot, Ne.symm (hw .home)])

theorem Faithful.bread (hd : Ready A s p (.bread r n) rest)
    (hn : { s with script := update s.script p rest }.exec A p (.bread r n) = .ok t) : Faithful A t := by
  obtain ⟨⟨b, c⟩, hb, hn⟩ := bind_eq_ok.mp hn
  obtain ⟨bio, hbio, rfl⟩ := bind_return_eq_ok.mp hn
  rw [mapError_eq_ok] at hb hbio
  obtain ⟨hcall, -⟩ := bget_chosen hr.cached.bio hb hbio
  refine h.idle hr hd (by simp) (by simp) rfl (update_self ..) rfl ?_ (h.content.bget hr.cached.bio hbio)
    fun r' hneeds hwaits hdirty => ?_
  · obtain ⟨⟨b', c'⟩, -, hbio⟩ := bind_eq_ok.mp hbio
    rw [return_eq_ok] at hbio
    rw [← hbio]
    rfl
  · simp only [update_self] at hwaits hdirty
    have hrr : r' ≠ r := by
      rintro rfl
      simp [hcall] at hwaits
    rw [update_of_ne hrr, hd.clean r' (by simp [needs, hrr, hneeds]) (by simp)] at hdirty
    simp at hdirty

theorem Faithful.toLog (hA : A.dev ≠ 0) (hd : Ready A s p .toLog rest)
    (hpl : s.ops.place p = .writeLog tail) (hrest : rest = [.bwrite .log, .brelse .home, .brelse .log])
    (hn : { s with script := update s.script p rest }.exec A p .toLog = .ok t) : Faithful A t := by
  simp only [State.exec, Except.ok.injEq] at hn
  obtain ⟨n, hget⟩ := hd.along.lh_of_cons (.inl hpl)
  have hno : (s.buf (s.reg p .log)).blockno = A.start + tail + 1 := by rw [hd.blockno .log rfl, hpl, target]
  have hdata : (s.buf (s.reg p .home)).data = s.latest n := by rw [hd.data .home rfl, hpl, target, hget, Option.getD_some]
  have hcontent := h.content.modify hr.cached.bio.unique hA (hd.lock .log rfl) (hd.dev .log rfl) (hd.valid .log rfl)
    (s.buf (s.reg p .home)).data
  have hlatest : t.latest = update s.latest (A.start + tail + 1) (s.latest n) := by
    rw [← hn, ← hno, ← hdata]
    rfl
  have hscript : t.script p = rest := by rw [← hn]; exact update_self ..
  have hkeep : ∀ (j : Nat) m, s.ops.log.lh[j]? = some m → t.latest m = s.latest m := by
    intro j m hj
    rw [hlatest, update_of_ne]
    rintro rfl
    exact h.not_own hj (h.own hget)
  have hpast : ∀ x j, Past x (s.ops.place p) rest j → x ∈ rest → j < tail := by
    intro x j hx hmem
    rw [hpl] at hx
    exact hx.resolve_right fun hc => hc.2 hmem
  refine h.only hr hd.commits (by rw [← hn]; rfl) (by rw [← hn]; exact hcontent) (fun r hneeds _ hdirty => ?_)
    (fun j m hj hx => ?_) (fun j m hj hx => ?_) fun tail' m hpl' => ?_
  · cases r with
    | log => exact ⟨_, hscript.trans hrest⟩
    | home =>
      rw [← hn] at hdirty
      simp only [State.modify, update_of_ne (Ne.symm (hd.apart rfl rfl))] at hdirty
      rw [hd.clean .home rfl (by simp)] at hdirty
      simp at hdirty
  · rw [hkeep j m hj, hlatest]
    by_cases hjt : j = tail
    · subst hjt
      rw [update_self]
      rw [hget, Option.some.injEq] at hj
      rw [hj]
    · rw [update_of_ne (by omega)]
      refine h.moved p hd.commits j m hj ?_
      rw [hpl] at hx ⊢
      exact .inl (hx.resolve_right fun hc => hjt hc.1)
  · rw [hscript] at hx
    rw [hkeep j m hj, ← hn]
    refine h.saved p hd.commits j m hj ?_
    have hlt := hpast _ j hx (by simp [hrest])
    rw [hpl]
    exact .inl hlt
  · simp [hpl] at hpl'

theorem Faithful.toHome (hA : A.dev ≠ 0) (hd : Ready A s p .toHome rest)
    (hpl : s.ops.place p = .install tail) (hrest : rest = [.bwrite .home, .bunpin, .brelse .log, .brelse .home])
    (hn : { s with script := update s.script p rest }.exec A p .toHome = .ok t) : Faithful A t := by
  simp only [State.exec, Except.ok.injEq] at hn
  obtain ⟨n, hget⟩ := hd.along.lh_of_cons (.inr hpl)
  have hno : (s.buf (s.reg p .home)).blockno = n := by rw [hd.blockno .home rfl, hpl, target, hget, Option.getD_some]
  have hdata : (s.buf (s.reg p .log)).data = s.latest n := by
    rw [hd.data .log rfl, hpl, target]
    exact h.moved p hd.commits tail n hget (by rw [hpl]; trivial)
  have hcontent := h.content.modify hr.cached.bio.unique hA (hd.lock .home rfl) (hd.dev .home rfl)
    (hd.valid .home rfl) (s.buf (s.reg p .log)).data
  have hsame : update s.latest (s.buf (s.reg p .home)).blockno (s.buf (s.reg p .log)).data = s.latest := by
    rw [hno, hdata, update_eq_self]
  have hscript : t.script p = rest := by rw [← hn]; exact update_self ..
  refine h.idle hr hd (by simp) (by simp) (by rw [← hn]) hscript (by rw [← hn]) (by rw [← hn]; rfl) ?_
    fun r hneeds _ hdirty => ?_
  · rw [← hn, ← hsame]
    exact hcontent
  · cases r with
    | home => exact ⟨_, hrest⟩
    | log =>
      rw [← hn] at hdirty
      simp only [update_of_ne (hd.apart rfl rfl)] at hdirty
      rw [hd.clean .log rfl (by simp)] at hdirty
      simp at hdirty

theorem Faithful.head (hA : A.dev ≠ 0) (hd : Ready A s p .head rest)
    (hpl : s.ops.place p = .writeHead ∨ s.ops.place p = .finish) (hrest : rest = [.bwrite .log, .brelse .log])
    (hn : { s with script := update s.script p rest }.exec A p .head = .ok t) : Faithful A t := by
  simp only [State.exec, Except.ok.injEq] at hn
  have hneeds : needs (.head :: rest) .log = true := by simp [needs]
  have hno : (s.buf (s.reg p .log)).blockno = A.start := by
    rw [hd.blockno .log hneeds]
    rcases hpl with hpl | hpl <;> rw [hpl] <;> rfl
  have hcontent := h.content.modify hr.cached.bio.unique hA (hd.lock .log hneeds) (hd.dev .log hneeds)
    (hd.valid .log hneeds) (putHead s.ops.log.lh (s.buf (s.reg p .log)).data)
  have hscript : t.script p = rest := by rw [← hn]; exact update_self ..
  have hpast : ∀ x j, Past x (s.ops.place p) (s.script p) j := by
    intro x j
    rcases hpl with hpl | hpl <;> rw [hpl] <;> trivial
  -- the header is no block that a copy is of, or in
  have hkeep : ∀ (j : Nat) m, s.ops.log.lh[j]? = some m →
      t.latest (A.start + j + 1) = s.latest (A.start + j + 1) ∧ t.latest m = s.latest m := by
    intro j m hj
    have hlatest : t.latest = update s.latest A.start
        (putHead s.ops.log.lh (s.buf (s.reg p .log)).data) := by
      rw [← hn, ← hno]
      rfl
    rw [hlatest, update_of_ne (by omega), update_of_ne]
    · exact ⟨rfl, rfl⟩
    · rintro rfl
      exact h.not_own hj (.inl rfl)
  refine h.only hr hd.commits (by rw [← hn]; rfl) (by rw [← hn]; exact hcontent) (fun r hr' _ _ => ?_)
    (fun j m hj _ => ?_) (fun j m hj _ => ?_) fun tail m hpl' => ?_
  · cases r with
    | log => exact ⟨_, hscript.trans hrest⟩
    | home => simp [hscript, hrest, needs] at hr'
  · rw [(hkeep j m hj).1, (hkeep j m hj).2]
    exact h.moved p hd.commits j m hj (hpast _ j)
  · rw [(hkeep j m hj).2, ← hn]
    exact h.saved p hd.commits j m hj (hpast _ j)
  · rcases hpl with hpl | hpl <;> simp [hpl] at hpl'

theorem Faithful.write (hd : Ready A s p (.bwrite r) rest) (hhome : r = .home → ∃ tail, s.ops.place p = .install tail)
    (hn : { s with script := update s.script p rest }.exec A p (.bwrite r) = .ok t) : Faithful A t := by
  have hneeds : needs (.bwrite r :: rest) r = true := by simp [needs]
  obtain ⟨-, rfl⟩ := State.bwrite_eq hn
  have hlock := hd.lock r hneeds
  have hdisk := h.bwrite_disk hr hd.out hlock
  refine h.only hr hd.commits rfl (h.bwrite_content hr hd.out hlock) (fun r' hr' _ hdirty => ?_)
    (fun j m hj hx => ?_) (fun j m hj hx => ?_) fun tail m hpl hj hnot => ?_
  · simp only [update_self] at hr' hdirty ⊢
    by_cases heq : s.reg p r' = s.reg p r
    · simp [heq] at hdirty
    · rw [update_of_ne heq, hd.clean r' (by simp [needs, hr']) ?_] at hdirty
      · simp at hdirty
      · rintro ⟨⟩
        exact heq rfl
  · simp only [update_self] at hx
    exact h.moved p hd.commits j m hj (by rw [hd.script]; exact hx.tail (by simp))
  · simp only [update_self] at hx
    rcases hdisk (A.start + j + 1) with ⟨hm, heq⟩ | ⟨hm, heq⟩
    · refine heq.trans (h.saved p hd.commits j m hj ?_)
      rw [hd.script]
      -- were it this turn, this would be its block
      cases hpl : s.ops.place p with
      | writeLog tail =>
        rw [hpl] at hx
        rcases hx with hlt | ⟨rfl, hnot⟩
        · exact .inl hlt
        · cases r with
          | log => exact absurd (by rw [hd.blockno .log hneeds, hpl, target]) hm
          | home =>
            obtain ⟨tail, htail⟩ := hhome rfl
            simp [hpl] at htail
      | _ => trivial
    · refine heq.trans (h.moved p hd.commits j m hj ?_)
      rw [hd.script]
      exact Past.tail (hd.along.next.2.past_toLog hx) (by simp)
  · simp only [update_self] at hnot
    rcases hdisk m with ⟨hm, heq⟩ | ⟨-, heq⟩
    · refine heq.trans (h.installed p tail m hpl hj ?_)
      rw [hd.script]
      cases r with
      | log => simpa using hnot
      | home => exact absurd (by rw [hd.blockno .home hneeds, hpl, target, hj, Option.getD_some]) hm
    · exact heq

theorem Faithful.unpin (hd : Ready A s p .bunpin rest) (hpl : s.ops.place p = .install tail)
    (hu : s.unpinned = tail) (hget : s.ops.log.lh[tail]? = some n) (hrest : rest = [.brelse .log, .brelse .home])
    (hn : { s with script := update s.script p rest }.exec A p .bunpin = .ok t) : Faithful A t := by
  cases hn
  obtain ⟨hsplit, hnot⟩ := hr.pinned_cons hu hget
  have hno := hd.blockno .home rfl
  rw [hpl, target, hget, Option.getD_some] at hno
  have hcontent := h.content
  rw [hsplit] at hcontent
  refine h.idle hr hd (by simp) (by simp) rfl (update_self ..) rfl rfl ?_ fun r hneeds _ hdirty => ?_
  · simp only [State.pinned, hu]
    exact hcontent.bunpin hno hnot (h.installed p tail n hpl hget (by simp [hd.script, hrest]))
  · rw [hd.clean r (by simp [needs, hneeds]) (by simp)] at hdirty
    simp at hdirty

theorem Faithful.release (hd : Ready A s p (.brelse r) rest)
    (hn : { s with script := update s.script p rest }.exec A p (.brelse r) = .ok t) : Faithful A t := by
  obtain ⟨bio, hbio, rfl⟩ := bind_return_eq_ok.mp hn
  rw [mapError_eq_ok] at hbio
  refine h.idle hr hd (by simp) (by simp) rfl (update_self ..) rfl ?_
    (h.content.release (hd.clean r (by simp [needs]) (by simp)) hbio) fun r' hneeds _ hdirty => ?_
  · rw [(Bio.State.release_eq_ok hbio).2]
    rfl
  · rw [hd.clean r' (by simp [needs, hneeds]) (by simp)] at hdirty
    simp at hdirty

theorem Faithful.instr (hA : A.dev ≠ 0) (he : (Event.instr p).enabled s) (hn : s.instr A p = .ok t) :
    Faithful A t := by
  obtain ⟨hp, hout, hne⟩ := he
  cases hsc : s.script p with
  | nil => exact absurd hsc hne
  | cons i rest =>
    simp only [State.instr, hsc] at hn
    have hd := h.ready hr hp hout hsc
    cases hd.along.next.1 with
    | bread n hn' hfree => exact h.bread hr hd hn
    | home n hn' hmem hlog => exact h.bread hr hd hn
    | toLog tail hpl hrest => exact h.toLog hr hA hd hpl hrest hn
    | toHome tail hpl hrest => exact h.toHome hr hA hd hpl hrest hn
    | head hpl hrest => exact h.head hr hA hd hpl hrest hn
    | bwrite r hhome => exact h.write hr hd hhome hn
    | bunpin tail n hpl hu hget hrest => exact h.unpin hr hd hpl hu hget hrest hn
    | brelse r hneeds => exact h.release hr hd hn

theorem Faithful.next (hA : A.dev ≠ 0) (he : e.enabled s) (hc : Careful A s e)
    (hn : Txn.next A s e = .ok t) : Faithful A t := by
  cases e with
  | client e => exact h.client hr hA he.1 he.2 hc hn
  | op e => exact h.op hr he hn
  | logWrite p b => exact h.logWrite hr he.1 he.2 hc hn
  | instr p => exact h.instr hr hA he hn

end

theorem Start.faithful (h : Start A s) : Faithful A s := by
  obtain ⟨hops, -, -, hbuf, hdata, -, hlatest, -⟩ := h
  have hlh : s.ops.log.lh = [] := by rw [hops.1]
  have hplace : ∀ p, ¬(s.ops.place p).commits = true := fun p => by simp [hops.2 p, Ops.Place.commits]
  refine ⟨⟨fun b hdev hv => ?_, fun n => .inl (by rw [hlatest]), fun b hb => ?_, fun n hn => ?_⟩,
    by simp [hlh], by simp [hlh], fun p hp => absurd hp (hplace p), fun p hp => absurd hp (hplace p),
    fun p hp => absurd hp (hplace p), fun p tail n hp => ?_⟩
  · rw [hlatest]
    exact hdata b hdev hv
  · simp [(hbuf b).2.2] at hb
  · simp [State.pinned, hlh] at hn
  · simp [hops.2 p] at hp

theorem careful_inv (hA : A.dev ≠ 0) (h : Reach (Start A) (Step A (Careful A)) s) : Regular A s ∧ Faithful A s := by
  induction h with
  | start h => exact ⟨h.regular, h.faithful⟩
  | step _ hs ih =>
    obtain ⟨e, he, hc, hn⟩ := hs
    exact ⟨ih.1.next hA he hc.orderly hn, ih.2.next ih.1 hA he hc hn⟩

end Xv6.Txn
