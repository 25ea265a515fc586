import Xv6.Txn.Pins

set_option linter.unusedSectionVars false

namespace Xv6.Txn

open Lib Bio Fs Function List

variable {ι : Type} [DecidableEq ι] {A : Area} {s t : State ι} {p : ι}

-- Operations that use blocks between begin_op() and end_op() only, log at most MAXOPBLOCKS of
-- them, and release their buffers before end_op().
def Modest (A : Area) (s : State ι) : Event ι → Prop
  | .client (.bget p dev _) => dev = A.dev ∧ s.ops.place p = .inOp
  | .client (.modify p _ _) | .client (.bwrite p _) | .client (.release p _) => s.ops.place p = .inOp
  | .logWrite p b => (s.buf b).lock = some p ∧ Ops.Frugal s.ops (.logWrite p (s.buf b).blockno)
  | .op (.endOp p) => ∀ b, (s.buf b).lock ≠ some p
  | _ => True

-- A commit begins with fewer blocks in the log than there are buffers.
def Roomy (s : State ι) : Event ι → Prop
  | .op (.endOp _) => s.ops.log.outstanding = 1 → s.ops.log.lh.length < NBUF
  | _ => True

theorem Modest.orderly (h : Modest A s e) : Orderly A s e := by
  cases e with
  | client e =>
    cases e with
    | bget p dev n => exact h.1
    | _ => exact trivial
  | op e =>
    cases e with
    | endOp p => exact h
    | _ => exact trivial
  | logWrite p b => exact h.1
  | instr p => exact trivial

-- Who holds what, when only operations and commit() use buffers.
structure Sole (s : State ι) : Prop where
  quiet : ∀ p, s.ops.place p ≠ .inOp → (s.ops.place p).commits = false →
    s.bio.call p = .out ∧ ∀ b, ¬Holds s.bio p b
  mine : ∀ p, (s.ops.place p).commits = true → ∀ b, Holds s.bio p b → ∃ r, needs (s.script p) r = true ∧ s.reg p r = b
  room : s.ops.log.committing = true → s.ops.log.lh.length < NBUF

theorem Along.needs_keep
    (h : Along A lh u pl (i :: rest)) (hi : i ≠ .brelse r)
    (hr : needs (i :: rest) r = true ∨ ∃ n, i = .bread r n) : needs rest r = true := by
  cases h with
  | writeLog hn hsc =>
    simp only [Txn.writeLog, suffix_cons_iff, suffix_nil, List.cons.injEq, reduceCtorEq, or_false] at hsc
    rcases hsc with ⟨rfl, rfl⟩ | ⟨rfl, rfl⟩ | ⟨rfl, rfl⟩ | ⟨rfl, rfl⟩ | ⟨rfl, rfl⟩ | ⟨rfl, rfl⟩ <;>
      cases r <;> simp_all [needs]
  | writeHead hsc | finish hsc hlh =>
    simp only [Txn.writeHead, suffix_cons_iff, suffix_nil, List.cons.injEq, reduceCtorEq, or_false] at hsc
    rcases hsc with ⟨rfl, rfl⟩ | ⟨rfl, rfl⟩ | ⟨rfl, rfl⟩ | ⟨rfl, rfl⟩ <;>
      cases r <;> simp_all [needs]
  | install hn hsc =>
    simp only [installTrans, suffix_cons_iff, suffix_nil, List.cons.injEq, reduceCtorEq, or_false] at hsc
    rcases hsc with ⟨rfl, rfl⟩ | ⟨rfl, rfl⟩ | ⟨rfl, rfl⟩ | ⟨rfl, rfl⟩ | ⟨rfl, rfl⟩ | ⟨rfl, rfl⟩ | ⟨rfl, rfl⟩ <;>
      cases r <;> simp_all [needs]

theorem lock_of_bget {dev n : Nat} {b : Fin NBUF} {u v : Bio.State ι Block} (hn : u.bget p dev n = .ok v)
    (h : (v.cache.buf b).lock = some p) : (u.cache.buf b).lock = some p := by
  obtain ⟨⟨b', c⟩, hb', hn⟩ := bind_eq_ok.mp hn
  cases hn
  refine Eq.trans (Eq.symm ?_) h
  rcases Cache.bget_cases hb' with ⟨-, rfl⟩ | ⟨-, -, rfl⟩ <;> exact Cache.set_field Buf.lock rfl (by rfl) b

theorem not_holds_of_release {b : Fin NBUF} {u v : Bio.State ι Block} (hn : u.release p b = .ok v) : ¬Holds v p b := by
  obtain ⟨-, rfl⟩ := State.release_eq_ok hn
  rintro (hlock | hwaits)
  · simp [Bio.State.setBuf] at hlock
  · simp [Bio.State.setBuf, Bio.State.goto] at hwaits

theorem Sole.quiet_bio (h : Sole s) (he : e.enabled s.bio) (hn : Bio.next s.bio e = .ok t.bio)
    (hops : t.ops = s.ops) (hproc : ∀ q, e.proc = some q → s.ops.place q ≠ .inOp → (s.ops.place q).commits = false →
      s.bio.call q ≠ .out) (p : ι) (hp : t.ops.place p ≠ .inOp) (hc : (t.ops.place p).commits = false) :
    t.bio.call p = .out ∧ ∀ b, ¬Holds t.bio p b := by
  rw [hops] at hp hc
  obtain ⟨hout, hfree⟩ := h.quiet p hp hc
  have hother : e.proc ≠ some p := fun heq => hproc p heq hp hc hout
  refine ⟨(call_event he hn hother).trans hout, fun b hb => hfree b (hb.of_event he hn ?_)⟩
  rintro dev n rfl
  exact hother rfl

theorem Sole.client (h : Sole s) (he : e.enabled s.bio)
    (hm : Modest A s (.client e)) (hn : s.client e = .ok t) : Sole t := by
  obtain ⟨hbio, hops, hscript, hreg, -⟩ := State.client_eq hn
  refine ⟨h.quiet_bio he hbio hops fun q hq hp hc hout => ?_, fun p hp b hb => ?_, hops ▸ h.room⟩
  · cases e with
    | bget q' dev n =>
      obtain rfl : q' = q := by simpa [Event.proc] using hq
      exact hp hm.2
    | modify q' b v | bwrite q' b | release q' b =>
      obtain rfl : q' = q := by simpa [Event.proc] using hq
      exact hp hm
    | lock q' =>
      obtain rfl : q' = q := by simpa [Event.proc] using hq
      obtain ⟨b, hb, -⟩ := he
      simp [hout] at hb
    | fill q' | brelse q' =>
      obtain rfl : q' = q := by simpa [Event.proc] using hq
      obtain ⟨b, hb⟩ := he
      simp [hout] at hb
    | bpin b | bunpin b => simp [Event.proc] at hq
  · rw [hops] at hp
    rw [hscript, hreg]
    refine h.mine p hp b (hb.of_event he hbio ?_)
    rintro dev n rfl
    simp [hm.2, Ops.Place.commits] at hp

theorem Sole.logWrite [Fintype ι] (h : Sole s) (hr : Regular A s) (hp : s.ops.place p = .inOp)
    (hn : s.logWrite A p b = .ok t) : Sole t := by
  obtain ⟨⟨new, l⟩, hnew, hn⟩ := bind_eq_ok.mp hn
  obtain ⟨ops, hops, rfl⟩ := bind_return_eq_ok.mp hn
  rw [mapError_eq_ok] at hops
  have hcom := hr.ops.not_committing hp
  have hadm := hr.ops.logWrite hp hops
  obtain ⟨new', l', hl', rfl⟩ := Ops.State.logWrite_eq_ok hops
  have hholds : ∀ q b', Holds (if new then s.bio.bpin b else s.bio) q b' → Holds s.bio q b' := by
    intro q b' hb
    split at hb
    next => exact hb.of_event (e := .bpin b) trivial rfl (by simp)
    next => exact hb
  have hcall : (if new then s.bio.bpin b else s.bio).call = s.bio.call := by
    split <;> rfl
  refine ⟨fun q hq hc => ?_, fun q hq b' hb => h.mine q hq b' (hholds q b' hb), fun hc => ?_⟩
  · obtain ⟨hout, hfree⟩ := h.quiet q hq hc
    exact ⟨by simp only [hcall]; exact hout, fun b' hb => hfree b' (hholds q b' hb)⟩
  · have hpos := hadm.pos (p := p) hp
    have hzero := hadm.alone hc
    omega

theorem Sole.move (h : Sole s) (hbio : t.bio = s.bio) (hreg : t.reg = s.reg)
    (hroom : t.ops.log.committing = true → t.ops.log.lh.length < NBUF) (hp : s.bio.call p = .out)
    (hfree : s.ops.place p = .inOp ∨ (s.ops.place p).commits = true → ∀ b, ¬Holds s.bio p b)
    (hplace : ∀ q, q ≠ p → (s.ops.place q = .inOp → t.ops.place q = .inOp) ∧
      (t.ops.place q).commits = (s.ops.place q).commits ∧ ((t.ops.place q).commits = true → t.script q = s.script q)) :
    Sole t := by
  have hnone : t.ops.place p ≠ .inOp → ∀ b, ¬Holds s.bio p b := by
    intro _ b
    by_cases hin : s.ops.place p = .inOp
    · exact hfree (.inl hin) b
    · cases hc : (s.ops.place p).commits with
      | true => exact hfree (.inr hc) b
      | false => exact (h.quiet p hin hc).2 b
  refine ⟨fun q hq hc => ?_, fun q hq b hb => ?_, hroom⟩
  · rw [hbio]
    by_cases hqp : q = p
    · subst hqp
      exact ⟨hp, hnone hq⟩
    · obtain ⟨h1, h2, -⟩ := hplace q hqp
      exact h.quiet q (fun hin => hq (h1 hin)) (h2 ▸ hc)
  · rw [hbio] at hb
    by_cases hqp : q = p
    · subst hqp
      refine absurd hb (hnone ?_ b)
      intro hin
      simp [hin, Ops.Place.commits] at hq
    · obtain ⟨-, h2, h3⟩ := hplace q hqp
      rw [h3 hq, hreg]
      exact h.mine q (h2 ▸ hq) b hb

theorem Sole.op [Fintype ι] (h : Sole s) (hr : Regular A s) (he : (Event.op e).enabled s)
    (hm : Modest A s (.op e)) (hroom : Roomy s (.op e)) (hn : s.op A e = .ok t) : Sole t := by
  obtain ⟨hadm, hcase, hapart⟩ := hr.op_cases he hn
  obtain ⟨hen, hout, hrest⟩ := he
  refine h.move (p := proc e) ?_ ?_ (fun hc => ?_) hout (fun hp b hb => ?_) fun q hq => ?_
  · cases hcase with
    | quiet ht | turn ht | erase ht => rw [ht]
  · cases hcase with
    | quiet ht | turn ht | erase ht => rw [ht]
  · cases hcase with
    | quiet ht hlh _ hcom =>
      rw [hlh]
      exact h.room (hcom hc)
    | turn ht hlh hturn hsc hlast =>
      rw [hlh]
      rcases hturn.before with hin | hp
      · obtain ⟨he, hone⟩ := hlast hin
        rw [he] at hroom
        exact hroom hone
      · exact h.room (hr.committing hp)
    | erase ht hp hlh => simp [hlh, NBUF, MAXOPBLOCKS]
  · -- what it held it has released
    cases e with
    | endOp p => exact hm b (hb.lock_of_out hout)
    | commit p =>
      obtain ⟨r, hneeds, -⟩ := h.mine p hen b hb
      simp [show s.script p = [] from hrest, needs] at hneeds
    | logWrite p b => exact hrest
    | call p | begin p | kill p =>
      simp only [Ops.Event.enabled] at hen
      simp [proc, hen, Ops.Place.commits] at hp
  · obtain ⟨hsc, hpl | ⟨hpl, hpl'⟩⟩ := hapart q hq
    · exact ⟨fun hin => hpl ▸ hin, by rw [hpl], fun _ => hsc⟩
    · simp [hpl, hpl', Ops.Place.commits]

variable [Fintype ι]

theorem Sole.instr (h : Sole s) (hr : Regular A s) (he : (Event.instr p).enabled s) (hn : s.instr A p = .ok t) :
    Sole t := by
  obtain ⟨i, rest, hsc⟩ := exists_cons_of_ne_nil he.2.2
  obtain ⟨hbio, hops, hscript, hreg, -⟩ := State.instr_eq hsc hn
  have hen := hr.event_enabled he hsc
  have halong := hr.along p he.1
  have hmine := h.mine p he.1
  rw [hsc] at halong hmine
  refine ⟨h.quiet_bio hen hbio hops fun q hq _ hc => ?_, fun q hq b hb => ?_, hops ▸ h.room⟩
  · rw [Instr.event_proc hq, he.1] at hc
    simp at hc
  rw [hops] at hq
  obtain rfl := hr.ops.solo q p hq he.1
  rw [hscript]
  -- what it holds after the statement it needs still
  cases hi : i with
  | bread r n =>
    subst hi
    obtain ⟨b', hchosen, hcall, -⟩ := hr.bread hsc hn
    rw [hchosen]
    rcases hb with hlock | hwaits
    · obtain ⟨r', hr', rfl⟩ := hmine b (.inl (lock_of_bget hbio hlock))
      have hne : r' ≠ r := by
        rintro rfl
        simp [needs] at hr'
      exact ⟨r', halong.needs_keep (by simp) (.inl hr'), update_of_ne hne _ _⟩
    · obtain rfl : b' = b := by simpa [hcall] using hwaits
      exact ⟨r, halong.needs_keep (by simp) (.inr ⟨n, rfl⟩), update_self ..⟩
  | _ =>
    rw [hreg (by simp [hi])]
    obtain ⟨r, hr', rfl⟩ := hmine b (hb.of_event hen hbio (by simp [hi, Instr.event]))
    refine ⟨r, halong.needs_keep ?_ (.inl hr'), rfl⟩
    rintro rfl
    exact not_holds_of_release hbio hb

theorem Sole.next (h : Sole s) (hr : Regular A s) (he : e.enabled s) (hm : Modest A s e)
    (hroom : Roomy s e) (hn : Txn.next A s e = .ok t) : Sole t := by
  cases e with
  | client e => exact h.client he.1 hm hn
  | op e => exact h.op hr he hm hroom hn
  | logWrite p b => exact h.logWrite hr he.1 hn
  | instr p => exact h.instr hr he hn

theorem Start.sole (h : Start A s) : Sole s := by
  obtain ⟨hops, -, hcall, hbuf, -⟩ := h
  have hnone : ∀ p b, ¬Holds s.bio p b := by
    rintro p b (hlock | hwaits)
    · have hfree := (hbuf b).1
      simp only [State.buf] at hfree
      simp [hfree] at hlock
    · simp [hcall] at hwaits
  refine ⟨fun p _ _ => ⟨hcall p, hnone p⟩, fun p _ b hb => absurd hb (hnone p b), fun hc => ?_⟩
  rw [hops.1] at hc
  exact Bool.noConfusion (show false = true from hc)

theorem modest_inv (hA : A.dev ≠ 0) (h : Reach (Start A) (Step A fun s e => Modest A s e ∧ Roomy s e) s) :
    Regular A s ∧ Sole s := by
  induction h with
  | start h => exact ⟨h.regular, h.sole⟩
  | step _ hs ih =>
    obtain ⟨e, he, ⟨hm, hroom⟩, hn⟩ := hs
    exact ⟨ih.1.next hA he (fun _ => hm.orderly) hn, ih.2.next ih.1 he hm hroom hn⟩

theorem Sole.refcnt_eq (h : Sole s) (hr : Regular A s) (hp : (s.ops.place p).commits = true)
    (hout : s.bio.call p = .out) (hfree : ∀ b, ¬Holds s.bio p b) (b : Fin NBUF) :
    (s.bio.cache.buf b).refcnt = s.bio.pins b := by
  have hcom := hr.committing hp
  have hnoop : ∀ q, s.ops.place q ≠ .inOp := by
    intro q hq
    have hpos := hr.ops.pos hq
    have hzero := hr.ops.alone hcom
    omega
  have hall : ∀ q, s.bio.call q = .out ∧ ∀ b, ¬Holds s.bio q b := by
    intro q
    cases hc : (s.ops.place q).commits with
    | true =>
      rw [hr.ops.solo q p hc hp]
      exact ⟨hout, hfree⟩
    | false => exact h.quiet q (hnoop q) hc
  have hlock : (s.bio.cache.buf b).lock = none := by
    cases hl : (s.bio.cache.buf b).lock with
    | none => rfl
    | some q => exact absurd (.inl hl) ((hall q).2 b)
  have hnumber : ∀ c, c ≠ .out → s.bio.number c = 0 := by
    intro c hc
    rw [Bio.State.number, Finset.card_eq_zero, Finset.filter_eq_empty_iff]
    intro q _ hq
    exact hc (hq.symm.trans (hall q).1)
  have hcount := hr.cached.bio.count b
  rw [hcount, Bio.State.users, Bio.State.waiters, hlock, hnumber _ (by simp), hnumber _ (by simp)]
  simp

theorem Regular.exists_unpinned (h : Regular A s) (hA : A.dev ≠ 0) (hlen : s.pinned.length < NBUF) :
    ∃ b, s.bio.pins b = 0 := by
  by_contra hall
  have hblock : ∀ b, (s.bio.cache.buf b).dev = A.dev ∧ (s.bio.cache.buf b).blockno ∈ s.pinned := by
    intro b
    by_contra hb
    exact hall ⟨b, by rw [h.cached.pins, if_neg hb]⟩
  have hinj : Function.Injective fun b => (s.bio.cache.buf b).blockno := by
    intro b b' heq
    exact h.cached.bio.unique b' b ((hblock b').1 ▸ hA) (Prod.ext ((hblock b).1.trans (hblock b').1.symm) heq)
  have hsub : (List.finRange NBUF).map (fun b => (s.bio.cache.buf b).blockno) ⊆ s.pinned := by
    intro n hn
    obtain ⟨b, -, rfl⟩ := mem_map.mp hn
    exact (hblock b).2
  have hle := (List.Nodup.subperm ((nodup_finRange NBUF).map hinj) hsub).length_le
  rw [length_map, length_finRange] at hle
  omega

-- commit() finds a buffer for each block that it reads, if the log had less than NBUF blocks
-- when it began.
theorem commit_has_buffers (hA : A.dev ≠ 0) (h : Reach (Start A) (Step A fun s e => Modest A s e ∧ Roomy s e) s)
    (he : (Event.instr p).enabled s) : s.instr A p ≠ .error (.bio .noBuffers) := by
  obtain ⟨hr, hs⟩ := modest_inv hA h
  obtain ⟨hp, hout, hne⟩ := he
  intro herr
  -- only bread() can panic like this
  have hbread : ∀ r n rest, s.script p = .bread r n :: rest → s.bio.cache.bget A.dev n ≠ .error .noBuffers := by
    intro r n rest hsc hb
    obtain ⟨-, hmiss, hunused⟩ := Cache.bget_error.mp hb
    obtain ⟨xs, hxs⟩ := hr.cached.bio.order
    have halong := hr.along p hp
    rw [hsc] at halong
    obtain ⟨hnext, -⟩ := halong.next
    cases hnext with
    | bread n hn hfree =>
      have hnone : ∀ b, ¬Holds s.bio p b := by
        intro b hb
        obtain ⟨r, hneeds, -⟩ := hs.mine p hp b hb
        rw [hsc, hfree] at hneeds
        simp at hneeds
      have hlen : s.pinned.length < NBUF := by
        have hroom := hs.room (hr.committing hp)
        rw [State.pinned, length_drop]
        omega
      obtain ⟨b, hb⟩ := hr.exists_unpinned hA hlen
      exact hxs.unused_none.mp hunused b (by rw [hs.refcnt_eq hr hp hout hnone, hb])
    | home n hn hmem hlog =>
      obtain ⟨b, hb⟩ := hr.cached.there n hmem
      exact hxs.cached_none.mp hmiss b hb
  cases hsc : s.script p with
  | nil => exact hne hsc
  | cons i rest =>
    simp only [State.instr, hsc] at herr
    cases i with
    | bread r n =>
      rcases bind_eq_error.mp herr with herr | ⟨⟨b, c⟩, hb, herr⟩
      · obtain ⟨e, hb, he⟩ := mapError_eq_error.mp herr
        obtain rfl : e = .noBuffers := by simpa using he
        exact hbread r n rest hsc hb
      · rw [mapError_eq_ok] at hb
        have hget : s.bio.bget p A.dev n = .ok { s.bio.goto p (.waits b) with cache := c } := by
          simp only [Bio.State.bget, hb, ok_bind, pure_eq_ok]
        simp [hget, Except.mapError] at herr
    | toLog | toHome | head | bunpin => simp [State.exec] at herr
    | bwrite r | brelse r =>
      rcases bind_eq_error.mp herr with herr | ⟨bio, -, herr⟩
      · obtain ⟨e, hb, he⟩ := mapError_eq_error.mp herr
        obtain rfl : e = .noBuffers := by simpa using he
        simp only [Bio.State.bwrite, Bio.State.release] at hb
        split at hb <;> simp at hb
      · simp at herr

instance Modest.decidable (A : Area) (s : State ι) : ∀ e : Event ι, Decidable (Modest A s e)
  | .client (.bget _ _ _) => inferInstanceAs (Decidable (_ ∧ _))
  | .client (.modify p _ _) | .client (.bwrite p _) | .client (.release p _) =>
    inferInstanceAs (Decidable (s.ops.place p = .inOp))
  | .client (.lock _) | .client (.fill _) | .client (.brelse _) | .client (.bpin _) | .client (.bunpin _) =>
    inferInstanceAs (Decidable True)
  | .logWrite _ _ => inferInstanceAs (Decidable (_ ∧ _))
  | .op (.endOp p) => inferInstanceAs (Decidable (∀ b, (s.buf b).lock ≠ some p))
  | .op (.call _) | .op (.begin _) | .op (.kill _) | .op (.logWrite _ _) | .op (.commit _) | .instr _ =>
    inferInstanceAs (Decidable True)

instance Roomy.decidable (s : State ι) : ∀ e : Event ι, Decidable (Roomy s e)
  | .op (.endOp _) => inferInstanceAs (Decidable (_ → _))
  | .client _ | .logWrite _ _ | .instr _ => inferInstanceAs (Decidable True)
  | .op (.call _) | .op (.begin _) | .op (.kill _) | .op (.logWrite _ _) | .op (.commit _) =>
    inferInstanceAs (Decidable True)

-- Three processes on a disk whose log has room for LOGSIZE blocks.
def sampleArea : Area := { dev := 1, start := 2, size := 31 }

def sampleTxn : State (Fin 3) where
  ops := { log := { outstanding := 0, committing := false, lh := [] }, place := fun _ => .out, logged := fun _ => [] }
  bio :=
    { cache :=
        { buf := fun _ => { valid := false, dev := 0, blockno := 0, lock := none, refcnt := 0, data := zeroBlock }
          links := binit }
      disk := fun _ => zeroBlock
      call := fun _ => .out
      pins := fun _ => 0
      clock := 0
      released := fun _ => 0 }
  script := fun _ => []
  reg := fun _ _ => ⟨0, NBUF_pos⟩
  latest := fun _ => zeroBlock
  dirty := fun _ => false
  unpinned := 0

theorem sampleTxn_start : Start sampleArea sampleTxn :=
  ⟨⟨rfl, fun _ => rfl⟩, .start ⟨rfl, fun _ => ⟨rfl, rfl, rfl, rfl, rfl⟩, fun _ => rfl, fun _ => rfl, rfl, fun _ => rfl⟩,
    fun _ => rfl, fun _ => ⟨rfl, rfl, rfl⟩, fun _ _ hv => Bool.noConfusion hv, fun _ => rfl, rfl, rfl⟩

def sampleUse (p : Fin 3) (b : Fin NBUF) : List (Event (Fin 3)) :=
  [.client (.bget p 1 (100 + b)), .client (.lock p), .client (.fill p), .logWrite p b, .client (.release p b),
    .client (.brelse p)]

theorem commit_has_buffers_first : ∃ s : State (Fin 3), s.ops.place 0 = .writeLog 0 ∧ s.ops.log.lh = [100] ∧
    s.instr sampleArea 0 ≠ .error (.bio .noBuffers) := by
  obtain ⟨s, hs, hen, hplace, hlh⟩ : ∃ s, (runs (fun s e => e.enabled s ∧ Modest sampleArea s e ∧ Roomy s e)
      (next sampleArea) sampleTxn ([.op (.call 0), .op (.begin 0)] ++ sampleUse 0 ⟨0, by decide⟩ ++ [.op (.endOp 0)]))
      = some s ∧ (Event.instr 0).enabled s ∧ s.ops.place 0 = .writeLog 0 ∧ s.ops.log.lh = [100] := by
    apply exists_of_any
    decide +kernel
  have hreach : Reach (Start sampleArea) (Step sampleArea fun s e => Modest sampleArea s e ∧ Roomy s e) s :=
    Reach.runs (fun e _ _ _ hen hn => ⟨e, hen.1, hen.2, hn⟩) (.start sampleTxn_start) hs
  exact ⟨s, hplace, hlh, commit_has_buffers (by decide) hreach hen⟩

-- Three operations log ten blocks each: every buffer is pinned, and none is left for the log.
theorem commit_lacks_buffer : ∃ s : State (Fin 3), Reach (Start sampleArea) (Step sampleArea (Modest sampleArea)) s ∧
    (Event.instr 2).enabled s ∧ s.instr sampleArea 2 = .error (.bio .noBuffers) := by
  obtain ⟨s, hs, hen, hfail⟩ : ∃ s, (runs (fun s e => e.enabled s ∧ Modest sampleArea s e) (next sampleArea) sampleTxn
      ([.op (.call 0), .op (.begin 0), .op (.call 1), .op (.begin 1), .op (.call 2), .op (.begin 2)] ++
      (List.finRange NBUF).flatMap (fun b => sampleUse ⟨b.val / 10 % 3, by omega⟩ b) ++
      [.op (.endOp 0), .op (.endOp 1), .op (.endOp 2)])) = some s ∧ (Event.instr 2).enabled s ∧
      failure (s.instr sampleArea 2) = some (.bio .noBuffers) := by
    apply exists_of_any
    decide +kernel
  exact ⟨s, Reach.runs (fun e _ _ _ hen hn => ⟨e, hen.1, hen.2, hn⟩) (.start sampleTxn_start) hs, hen,
    failure_eq_some.mp hfail⟩

end Xv6.Txn
