import Xv6.Txn.Faithful

set_option linter.unusedSectionVars false

namespace Xv6.Txn

open Lib Bio Fs

variable {ι : Type} {A : Area} {s t : State ι} {p : ι}

-- What the event gives to the block n, on a disk without a cache.
def given (s : State ι) : Event ι → Nat → Option Block
  | .client (.modify _ b v), n => if n = (s.buf b).blockno then some v else none
  | _, _ => none

-- The event is the beginning of bread() for the block n, by a process or in commit().
def Calls (A : Area) (s : State ι) (e : Event ι) (p : ι) (n : Nat) : Prop :=
  e = .client (.bget p A.dev n) ∨ e = .instr p ∧ ∃ r rest, s.script p = .bread r n :: rest

def Reading (A : Area) (s : State ι) (p : ι) (n : Nat) : Prop :=
  ∃ b, (s.bio.call p = .waits b ∨ s.bio.call p = .fills b) ∧ (s.buf b).block = (A.dev, n)

variable [DecidableEq ι]

-- What the cache and the log show of the blocks, in a state and in the steps from there.
structure Transparent (A : Area) (s : State ι) : Prop where
  -- the log's own blocks apart, a block has what a process gave it last
  array : ∀ e t, e.enabled s → Careful A s e → next A s e = .ok t → ∀ n, ¬A.own n →
    t.latest n = (given s e n).getD (s.latest n)
  -- bread() goes on until it returns a locked buffer of the block with these contents
  calls : ∀ e t, e.enabled s → Careful A s e → next A s e = .ok t → ∀ p n, Calls A s e p n → Reading A t p n
  returns : ∀ e t, e.enabled s → Careful A s e → next A s e = .ok t → ∀ p n, Reading A s p n →
    Reading A t p n ∨ ∃ b, t.bio.call p = .out ∧ (t.buf b).lock = some p ∧ (t.buf b).block = (A.dev, n) ∧
      (t.buf b).data = t.latest n
  held : ∀ p b, (s.buf b).lock = some p → s.bio.call p ≠ .fills b → (s.buf b).data = s.latest (s.buf b).blockno
  -- contents that are not on the disk are in a buffer that is locked or pinned
  kept : ∀ n, s.bio.disk n = s.latest n ∨ ∃ b, (s.buf b).block = (A.dev, n) ∧ (s.buf b).valid = true ∧
    (s.buf b).data = s.latest n ∧ 0 < (s.buf b).refcnt ∧ ((∃ p, (s.buf b).lock = some p) ∨ n ∈ s.pinned)
  -- a block of the log is pinned until install_trans() unpins it, once
  once : s.ops.log.lh.Nodup ∧
    ∀ b, s.bio.pins b = if (s.buf b).dev = A.dev ∧ (s.buf b).blockno ∈ s.pinned then 1 else 0
  pinned : ∀ n ∈ s.pinned, ∃ b, (s.buf b).block = (A.dev, n) ∧ (s.buf b).valid = true ∧
    (s.buf b).data = s.latest n ∧ 0 < (s.buf b).refcnt
  -- write_log() has copied what the logged blocks were given last
  copies : ∀ p, s.ops.place p = .writeHead ∨ (∃ tail, s.ops.place p = .install tail) ∨ s.ops.place p = .erase →
    ∀ i n, s.ops.log.lh[i]? = some n → s.bio.disk (A.start + i + 1) = s.latest n

variable [Fintype ι]

theorem logWrite_frame (hn : s.logWrite A p b = .ok t) :
    t.latest = s.latest ∧ t.bio.call = s.bio.call ∧ ∀ b', (t.buf b').block = (s.buf b').block := by
  obtain ⟨⟨new, l⟩, -, hn⟩ := bind_eq_ok.mp hn
  obtain ⟨ops, -, rfl⟩ := bind_return_eq_ok.mp hn
  cases new with
  | false => exact ⟨rfl, rfl, fun _ => rfl⟩
  | true => exact ⟨rfl, rfl, Cache.set_field Buf.block rfl rfl⟩

theorem op_frame (hn : s.op A e = .ok t) : t.latest = s.latest ∧ t.bio = s.bio := by
  obtain ⟨ops, -, hn⟩ := bind_eq_ok.mp hn
  cases e with
  | commit p =>
    simp only [pure_eq_ok] at hn
    split at hn
    all_goals
      cases hn
      exact ⟨rfl, rfl⟩
  | call p | begin p | kill p | logWrite p b | endOp p =>
    cases hn
    exact ⟨rfl, rfl⟩

theorem Faithful.latest_instr (h : Faithful A s) (hr : Regular A s) (he : (Event.instr p).enabled s)
    (hn : s.instr A p = .ok t) (ho : ¬A.own n) : t.latest n = s.latest n := by
  obtain ⟨i, rest, hsc⟩ := List.exists_cons_of_ne_nil he.2.2
  have hd := h.ready hr he.1 he.2.1 hsc
  refine ((State.instr_eq hsc hn).2.2.2.2.2 n).resolve_right fun ⟨hi, hno⟩ => ho ?_
  cases hd.along.next.1 with
  | toLog tail hpl hrest =>
    obtain ⟨m, hget⟩ := hd.along.lh_of_cons (.inl hpl)
    rw [hno, hd.blockno .log rfl, hpl]
    exact h.own hget
  | head hpl hrest =>
    rw [hno, hd.blockno .log (by simp [needs])]
    rcases hpl with hpl | hpl <;> exact .inl (by rw [hpl]; rfl)
  | _ => simp at hi

theorem latest_client (hn : s.client e = .ok t) (n : Nat) :
    t.latest n = (given s (.client e) n).getD (s.latest n) := by
  cases e with
  | modify q b v =>
    simp only [State.client, Except.ok.injEq] at hn
    rw [← hn]
    simp only [State.modify, given, Function.update_apply]
    split <;> rfl
  | bwrite q b | bget q dev m | lock q | fill q | release q b | brelse q | bpin b | bunpin b =>
    obtain ⟨bio, -, hn⟩ := bind_return_eq_ok.mp hn
    rw [← hn]
    rfl

theorem Faithful.held (h : Faithful A s) (hr : Regular A s) (hb : (s.buf b).lock = some p)
    (hp : s.bio.call p ≠ .fills b) : (s.buf b).data = s.latest (s.buf b).blockno :=
  h.content.data b (hr.cached.owned.dev p b hb) ((hr.cached.owned.valid p b hb).resolve_left hp)

theorem Regular.calls (hr : Regular A s) (he : e.enabled s) (hn : Txn.next A s e = .ok t)
    (hc : Calls A s e p n) : Reading A t p n := by
  rcases hc with rfl | ⟨rfl, r, rest, hsc⟩
  · have hbio := (State.client_eq (e := .bget p A.dev n) hn).1
    obtain ⟨⟨b, c⟩, hb, -⟩ := bind_eq_ok.mp hbio
    obtain ⟨hcall, hblock⟩ := bget_chosen hr.cached.bio hb hbio
    exact ⟨b, .inl hcall, hblock⟩
  · obtain ⟨b, -, hcall, hblock⟩ := hr.bread hsc hn
    exact ⟨b, .inl hcall, hblock⟩

theorem Regular.reading_other (hr : Regular A s) (he : e.enabled s.bio)
    (hn : Bio.next s.bio e = .ok t.bio) (hp : e.proc ≠ some p) (h : Reading A s p n) : Reading A t p n := by
  obtain ⟨b, hcall, hblock⟩ := h
  have hpos : 0 < (s.bio.cache.buf b).refcnt := by
    rcases hcall with hcall | hcall
    · exact hr.cached.bio.count.pos_of_waits hcall
    · exact hr.cached.bio.count.pos_of_lock (hr.cached.owned.fills p b hcall)
  exact ⟨b, by rwa [call_event he hn hp], (hr.cached.bio.block_of_pos he hn hpos).trans hblock⟩

theorem Faithful.returns (hr : Regular A s) (hrt : Regular A t) (ht : Faithful A t)
    (he : e.enabled s) (hn : Txn.next A s e = .ok t) (h : Reading A s p n) :
    Reading A t p n ∨ ∃ b, t.bio.call p = .out ∧ (t.buf b).lock = some p ∧ (t.buf b).block = (A.dev, n) ∧
      (t.buf b).data = t.latest n := by
  cases e with
  | client e =>
    have hbio := (State.client_eq hn).1
    by_cases hproc : e.proc = some p
    · obtain ⟨b, hcall, hblock⟩ := h
      rcases hcall with hcall | hcall
      · obtain rfl := proc_waits he.1 hcall hproc
        have hkeep := hr.cached.bio.block_of_pos he.1 hbio (hr.cached.bio.count.pos_of_waits hcall)
        simp only [Bio.next, hcall, Except.ok.injEq] at hbio
        refine .inl ⟨b, .inr ?_, hkeep.trans hblock⟩
        rw [← hbio]
        exact s.bio.goto_call_self p _
      · obtain rfl := proc_fills he.1 hcall hproc
        have hlock := hr.cached.owned.fills p b hcall
        have hkeep := hr.cached.bio.block_of_pos he.1 hbio (hr.cached.bio.count.pos_of_lock hlock)
        have hlock' := (lock_event he.1 hbio hlock).resolve_left (by simp)
        simp only [Bio.next, hcall, Except.ok.injEq] at hbio
        have hout : t.bio.call p = .out := by
          rw [← hbio, Bio.State.fill]
          split <;> exact s.bio.goto_call_self p _
        have hblock' : (t.buf b).block = (A.dev, n) := hkeep.trans hblock
        refine .inr ⟨b, hout, hlock', hblock', ?_⟩
        rw [ht.held hrt hlock' (by simp [hout]), (Prod.mk.inj hblock').2]
    · exact .inl (hr.reading_other he.1 hbio hproc h)
  | op e =>
    refine .inl ?_
    simp only [Reading, State.buf, (op_frame hn).2]
    exact h
  | logWrite q b =>
    obtain ⟨-, hcall, hblock⟩ := logWrite_frame hn
    refine .inl ?_
    simp only [Reading, hcall, hblock]
    exact h
  | instr q =>
    obtain ⟨i, rest, hsc⟩ := List.exists_cons_of_ne_nil he.2.2
    refine .inl (hr.reading_other (hr.event_enabled he hsc) (State.instr_eq hsc hn).1 (fun heq => ?_) h)
    obtain rfl := Instr.event_proc heq
    obtain ⟨b, hcall, -⟩ := h
    have hout : s.bio.call p = .out := he.2.1
    simp [hout] at hcall

-- The cached and logged disk behaves as an array of blocks.
theorem cache_transparent (hA : A.dev ≠ 0) (h : Reach (Start A) (Step A (Careful A)) s) : Transparent A s := by
  obtain ⟨hr, hf⟩ := careful_inv hA h
  refine ⟨fun e t he hc hn n ho => ?_, fun e t he _ hn p n hcalls => hr.calls he hn hcalls,
    fun e t he hc hn p n hread => ?_, fun p b hb hp => hf.held hr hb hp, fun n => ?_, ⟨hr.nodup, hr.cached.pins⟩,
    fun n hn => ?_, fun p hp i n hn => ?_⟩
  · cases e with
    | client e => exact latest_client hn n
    | op e => exact congrFun (op_frame hn).1 n
    | logWrite p b => exact congrFun (logWrite_frame hn).1 n
    | instr p => exact hf.latest_instr hr he hn ho
  · have ht := careful_inv hA (.step h ⟨e, he, hc, hn⟩)
    exact Faithful.returns hr ht.1 ht.2 he hn hread
  · rcases hf.content.disk n with heq | ⟨b, hdev, hno, hv, hwhy⟩
    · exact .inl heq
    · refine .inr ⟨b, Prod.ext hdev hno, hv, hno ▸ hf.content.data b hdev hv, ?_⟩
      rcases hwhy with hdirty | hmem
      · obtain ⟨p, hp⟩ := hf.content.dirty b hdirty
        exact ⟨hr.cached.bio.count.pos_of_lock hp, .inl ⟨p, hp⟩⟩
      · exact ⟨hr.cached.pos hdev (hno ▸ hmem), .inr hmem⟩
  · obtain ⟨b, hdev, hno, hv, hpin⟩ := hf.content.pinned n hn
    exact ⟨b, Prod.ext hdev hno, hv, hno ▸ hf.content.data b hdev hv, hr.cached.bio.count.pos_of_pins hpin⟩
  · have hpast : (s.ops.place p).commits = true ∧ Past (.bwrite .log) (s.ops.place p) (s.script p) i := by
      rcases hp with hp | ⟨tail, hp⟩ | hp <;> rw [hp] <;> exact ⟨rfl, trivial⟩
    exact hf.saved p hpast.1 i n hn hpast.2

instance Careful.decidable (A : Area) (s : State ι) : ∀ e : Event ι, Decidable (Careful A s e)
  | .client (.bget _ dev _) => inferInstanceAs (Decidable (dev = A.dev))
  | .client (.modify _ _ _) => inferInstanceAs (Decidable (_ → _ ∧ _))
  | .client (.release _ b) => inferInstanceAs (Decidable (s.dirty b = false))
  | .logWrite _ _ => inferInstanceAs (Decidable (_ ∧ _))
  | .client (.lock _) | .client (.fill _) | .client (.bwrite _ _) | .client (.brelse _) | .client (.bpin _)
  | .client (.bunpin _) | .op _ | .instr _ => inferInstanceAs (Decidable True)

-- Process 0 changes and logs block 100 and commits; process 1 reads it while its copy is written.
def sampleCopy : List (Event (Fin 3)) :=
  [.op (.call 0), .op (.begin 0), .client (.bget 0 1 100), .client (.lock 0), .client (.fill 0),
    .client (.modify 0 ⟨0, NBUF_pos⟩ fun _ => 7), .logWrite 0 ⟨0, NBUF_pos⟩, .client (.release 0 ⟨0, NBUF_pos⟩),
    .client (.brelse 0), .op (.endOp 0), .instr 0, .client (.lock 0), .client (.fill 0), .instr 0, .client (.lock 0),
    .client (.fill 0), .instr 0, .instr 0, .instr 0, .client (.brelse 0), .client (.bget 1 1 100), .instr 0,
    .client (.brelse 0), .op (.commit 0), .op (.commit 0)]

theorem cache_transparent_copied : ∃ s : State (Fin 3), s.ops.place 0 = .writeHead ∧ s.ops.log.lh = [100] ∧
    s.latest 100 5 = 7 ∧ s.bio.call 1 = .waits ⟨0, by decide⟩ ∧ Transparent sampleArea s := by
  obtain ⟨s, hs, hplace, hlh, hlatest, hcall⟩ : ∃ s, (runs (fun s e => e.enabled s ∧ Careful sampleArea s e)
      (next sampleArea) sampleTxn sampleCopy) = some s ∧ s.ops.place 0 = .writeHead ∧ s.ops.log.lh = [100] ∧
      s.latest 100 5 = 7 ∧ s.bio.call 1 = .waits ⟨0, by decide⟩ := by
    apply exists_of_any
    decide +kernel
  have hreach : Reach (Start sampleArea) (Step sampleArea (Careful sampleArea)) s :=
    Reach.runs (fun e _ _ _ hen hn => ⟨e, hen.1, hen.2, hn⟩) (.start sampleTxn_start) hs
  exact ⟨s, hplace, hlh, hlatest, hcall, cache_transparent (by decide) hreach⟩

end Xv6.Txn
