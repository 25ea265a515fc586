import Xv6.Bio.Structure

namespace Xv6.Bio

open Lib Function

variable {ι α : Type} {s t : State ι α} {D : Nat} {p : ι} {b : Fin NBUF}

section Positive

variable [Fintype ι]

theorem Counted.pos_of_waits (h : Counted s) (hp : s.call p = .waits b) : 0 < (s.cache.buf b).refcnt := by
  have hmem : 0 < s.number (.waits b) := Finset.card_pos.mpr ⟨p, by simp [hp]⟩
  have hcount := h b
  simp only [State.waiters] at hcount
  omega

theorem Counted.pos_of_lock (h : Counted s) (hp : (s.cache.buf b).lock = some p) : 0 < (s.cache.buf b).refcnt := by
  have hcount := h b
  simp only [State.users, hp, Option.isSome_some, if_true] at hcount
  omega

theorem Counted.pos_of_pins (h : Counted s) (hp : 0 < s.pins b) : 0 < (s.cache.buf b).refcnt := by
  have hcount := h b
  omega

end Positive

-- Who has a buffer locked, and what that says of it. All use is of blocks of the device D.
structure Owned (D : Nat) (s : State ι α) : Prop where
  fills : ∀ p b, s.call p = .fills b → (s.cache.buf b).lock = some p
  valid : ∀ p b, (s.cache.buf b).lock = some p → s.call p = .fills b ∨ (s.cache.buf b).valid = true
  waits : ∀ p b, s.call p = .waits b → (s.cache.buf b).dev = D
  dev : ∀ p b, (s.cache.buf b).lock = some p → (s.cache.buf b).dev = D

theorem Owned.valid_of_out (h : Owned D s) (hp : s.call p = .out) (hb : (s.cache.buf b).lock = some p) :
    (s.cache.buf b).valid = true := by
  rcases h.valid p b hb with hf | hv
  · simp [hp] at hf
  · exact hv

def OnDisk (D : Nat) : Event ι α → Prop
  | .bget _ dev _ => dev = D
  | _ => True

theorem Owned.congr (h : Owned D s) (hlock : ∀ b, (t.cache.buf b).lock = (s.cache.buf b).lock)
    (hdev : ∀ b, (t.cache.buf b).dev = (s.cache.buf b).dev) (hvalid : ∀ b, (t.cache.buf b).valid = (s.cache.buf b).valid)
    (hfills : ∀ q b, t.call q = .fills b ↔ s.call q = .fills b)
    (hwaits : ∀ q b, t.call q = .waits b → s.call q = .waits b) : Owned D t := by
  refine ⟨fun q b hq => ?_, fun q b hq => ?_, fun q b hq => ?_, fun q b hq => ?_⟩
  · rw [hlock]
    exact h.fills q b ((hfills q b).mp hq)
  · rw [hlock] at hq
    rw [hvalid, hfills]
    exact h.valid q b hq
  · rw [hdev]
    exact h.waits q b (hwaits q b hq)
  · rw [hlock] at hq
    rw [hdev]
    exact h.dev q b hq

variable [DecidableEq ι]

theorem State.goto_call_self (s : State ι α) (p : ι) (c : Call) : (s.goto p c).call p = c := update_self ..

theorem State.goto_call_of_ne (s : State ι α) (c : Call) (h : q ≠ p) : (s.goto p c).call q = s.call q :=
  update_of_ne h ..

-- A step of p, which may take and give locks of its own.
omit [DecidableEq ι] in
theorem Owned.step (h : Owned D s) (hcall : ∀ q, q ≠ p → t.call q = s.call q)
    (hlock : ∀ q b, q ≠ p → ((t.cache.buf b).lock = some q ↔ (s.cache.buf b).lock = some q))
    (hkeep : ∀ q b, q ≠ p → s.call q = .waits b ∨ (s.cache.buf b).lock = some q →
      (t.cache.buf b).dev = (s.cache.buf b).dev ∧ ((s.cache.buf b).valid = true → (t.cache.buf b).valid = true))
    (hfills : ∀ b, t.call p = .fills b → (t.cache.buf b).lock = some p)
    (hvalid : ∀ b, (t.cache.buf b).lock = some p → t.call p = .fills b ∨ (t.cache.buf b).valid = true)
    (hdev : ∀ b, t.call p = .waits b ∨ (t.cache.buf b).lock = some p → (t.cache.buf b).dev = D) : Owned D t := by
  refine ⟨fun q b hq => ?_, fun q b hq => ?_, fun q b hq => ?_, fun q b hq => ?_⟩ <;> by_cases hqp : q = p
  · exact hqp ▸ hfills b (hqp ▸ hq)
  · rw [hcall q hqp] at hq
    exact (hlock q b hqp).mpr (h.fills q b hq)
  · exact hqp ▸ hvalid b (hqp ▸ hq)
  · rw [hlock q b hqp] at hq
    rw [hcall q hqp]
    exact (h.valid q b hq).imp_right (hkeep q b hqp (.inr hq)).2
  · exact hdev b (.inl (hqp ▸ hq))
  · rw [hcall q hqp] at hq
    exact (hkeep q b hqp (.inl hq)).1.trans (h.waits q b hq)
  · exact hdev b (.inr (hqp ▸ hq))
  · rw [hlock q b hqp] at hq
    exact (hkeep q b hqp (.inr hq)).1.trans (h.dev q b hq)

theorem Owned.lock (h : Owned D s) (hp : s.call p = .waits b) (hfree : (s.cache.buf b).lock = none) :
    Owned D (s.lock p b) := by
  have hself : (s.lock p b).call p = .fills b := s.goto_call_self p _
  have hset : (s.lock p b).cache = s.cache.set b { s.cache.buf b with lock := some p } := rfl
  refine h.step (p := p) (fun q hq => s.goto_call_of_ne _ hq) (fun q b' hq => ?_)
    (fun q b' _ _ => ⟨Cache.set_field Buf.dev hset rfl b', (Cache.set_field Buf.valid hset rfl b').trans⟩)
    (fun b' hb => ?_) (fun b' hb => ?_) fun b' hb => ?_
  · by_cases hbb : b' = b
    · simp [hset, hbb, hfree, Ne.symm hq]
    · rw [hset, Cache.set_of_ne _ _ hbb]
  · obtain rfl : b = b' := by simpa [hself] using hb
    simp [hset]
  · by_cases hbb : b' = b
    · exact .inl (hbb ▸ hself)
    · rw [hset, Cache.set_of_ne _ _ hbb] at hb ⊢
      exact .inr ((h.valid p b' hb).resolve_left (by simp [hp]))
  · rw [Cache.set_field Buf.dev hset rfl]
    by_cases hbb : b' = b
    · exact hbb ▸ h.waits p b hp
    · rw [hself, hset, Cache.set_of_ne _ _ hbb] at hb
      exact h.dev p b' (hb.resolve_left (by simp))

theorem Owned.fill (h : Owned D s) (hp : s.call p = .fills b) : Owned D (s.fill p b) := by
  have hcall : (s.fill p b).call = (s.goto p .out).call := by
    rw [State.fill]
    split <;> rfl
  have hself : (s.fill p b).call p = .out := by rw [hcall, s.goto_call_self]
  -- the buffer is valid now, and no valid bit is cleared
  have hbuf : ∀ b', ((s.fill p b).cache.buf b').lock = (s.cache.buf b').lock ∧
      ((s.fill p b).cache.buf b').dev = (s.cache.buf b').dev ∧
      ((s.cache.buf b').valid = true ∨ b' = b → ((s.fill p b).cache.buf b').valid = true) := by
    intro b'
    rw [State.fill]
    split
    next hv => exact ⟨rfl, rfl, fun hor => hor.elim id fun hbb => hbb ▸ hv⟩
    next =>
      refine ⟨Cache.set_field Buf.lock rfl (by rfl) b', Cache.set_field Buf.dev rfl (by rfl) b', fun hor => ?_⟩
      by_cases hbb : b' = b
      · simp [hbb, State.setBuf]
      · simpa [State.setBuf, Cache.set_of_ne _ _ hbb, hbb] using hor
  refine h.step (p := p) (fun q hq => by rw [hcall, s.goto_call_of_ne _ hq]) (fun q b' _ => by rw [(hbuf b').1])
    (fun q b' _ _ => ⟨(hbuf b').2.1, fun hv => (hbuf b').2.2 (.inl hv)⟩) (by simp [hself])
    (fun b' hb => .inr ((hbuf b').2.2 ?_)) fun b' hb => ?_
  · rw [(hbuf b').1] at hb
    exact (h.valid p b' hb).symm.imp_right fun hf => by simpa [hp, eq_comm] using hf
  · rw [hself, (hbuf b').1] at hb
    rw [(hbuf b').2.1]
    exact h.dev p b' (hb.resolve_left (by simp))

theorem Owned.release (h : Owned D s) (hp : s.call p = .out) (hlock : (s.cache.buf b).lock = some p) :
    Owned D ((s.goto p (.drops b)).setBuf b { s.cache.buf b with lock := none }) := by
  generalize ht : (s.goto p (.drops b)).setBuf b { s.cache.buf b with lock := none } = t
  have hset : t.cache = s.cache.set b { s.cache.buf b with lock := none } := by rw [← ht]; rfl
  have hself : t.call p = .drops b := by rw [← ht]; exact s.goto_call_self p _
  -- what p still has locked is not b
  have hheld : ∀ b', (t.cache.buf b').lock = some p → b' ≠ b ∧ (s.cache.buf b').lock = some p := by
    intro b' hb
    by_cases hbb : b' = b
    · simp [hset, hbb] at hb
    · exact ⟨hbb, by rwa [hset, Cache.set_of_ne _ _ hbb] at hb⟩
  refine h.step (p := p) (fun q hq => by rw [← ht]; exact s.goto_call_of_ne _ hq) (fun q b' hq => ?_)
    (fun q b' _ _ => ⟨Cache.set_field Buf.dev hset rfl b', (Cache.set_field Buf.valid hset rfl b').trans⟩)
    (by simp [hself]) (fun b' hb => .inr ?_) fun b' hb => ?_
  · by_cases hbb : b' = b
    · simp [hset, hbb, hlock, Ne.symm hq]
    · rw [hset, Cache.set_of_ne _ _ hbb]
  · rw [Cache.set_field Buf.valid hset rfl]
    exact h.valid_of_out hp (hheld b' hb).2
  · rw [Cache.set_field Buf.dev hset rfl]
    exact h.dev p b' (hheld b' (hb.resolve_left (by simp [hself]))).2

theorem Owned.brelse (h : Owned D s) (hp : s.call p = .drops b) : Owned D (s.brelse p b) := by
  refine h.congr (fun b' => ?_) (fun b' => ?_) (fun b' => ?_) (fun q b' => ?_) (fun q b' => ?_)
  · rw [State.brelse_buf]
    exact Cache.set_field Buf.lock rfl (by rfl) b'
  · rw [State.brelse_buf]
    exact Cache.set_field Buf.dev rfl (by rfl) b'
  · rw [State.brelse_buf]
    exact Cache.set_field Buf.valid rfl (by rfl) b'
  all_goals
    rw [State.brelse_call]
    by_cases hqp : q = p
    · subst hqp
      simp [s.goto_call_self, hp]
    · simp [s.goto_call_of_ne _ hqp]

variable [Fintype ι]

theorem Owned.bget (h : Owned D s) (hs : Structured s) (hp : s.call p = .out)
    (hn : s.bget p D n = .ok t) : Owned D t := by
  obtain ⟨⟨b, c⟩, hb, hn⟩ := bind_eq_ok.mp hn
  cases hn
  obtain ⟨xs, hxs⟩ := hs.order
  have hself := s.goto_call_self p (.waits b)
  -- in both cases b now carries a block of D, and the locked or awaited buffers are as before
  have hnew : (c.buf b).dev = D := by
    rcases Cache.bget_cases hb with ⟨hhit, rfl⟩ | ⟨-, -, rfl⟩
    · simpa using (hxs.cached_some hhit).1
    · simp
  have hlock : ∀ b', (c.buf b').lock = (s.cache.buf b').lock := by
    rcases Cache.bget_cases hb with ⟨-, rfl⟩ | ⟨-, -, rfl⟩ <;> exact Cache.set_field Buf.lock rfl rfl
  have hkeep : ∀ b', 0 < (s.cache.buf b').refcnt →
      (c.buf b').dev = (s.cache.buf b').dev ∧ (c.buf b').valid = (s.cache.buf b').valid := by
    intro b' hpos
    rcases Cache.bget_cases hb with ⟨-, rfl⟩ | ⟨-, hfree, rfl⟩
    · exact ⟨Cache.set_field Buf.dev rfl (by rfl) b', Cache.set_field Buf.valid rfl (by rfl) b'⟩
    · have hbb : b' ≠ b := by
        rintro rfl
        have := (hxs.unused_some hfree).1
        omega
      simp [Cache.set_of_ne _ _ hbb]
  refine h.step (p := p) (fun q hq => s.goto_call_of_ne _ hq) (fun q b' _ => by simp only [hlock])
    (fun q b' _ hor => ?_) (fun b' hb => ?_) (fun b' hb => .inr ?_) fun b' hb => ?_
  · obtain ⟨hdev, hvalid⟩ := hkeep b' (hor.elim hs.count.pos_of_waits hs.count.pos_of_lock)
    exact ⟨hdev, hvalid.trans⟩
  · rw [show _ = Call.waits b from hself] at hb
    simp at hb
  · rw [show _ = (s.cache.buf b').lock from hlock b'] at hb
    exact (hkeep b' (hs.count.pos_of_lock hb)).2.trans (h.valid_of_out hp hb)
  · rw [show _ = Call.waits b from hself, show _ = (s.cache.buf b').lock from hlock b'] at hb
    rcases hb with hb | hb
    · obtain rfl : b = b' := by simpa using hb
      exact hnew
    · exact (hkeep b' (hs.count.pos_of_lock hb)).1.trans (h.dev p b' hb)

theorem Owned.event (h : Owned D s) (hs : Structured s) (he : e.enabled s) (hd : OnDisk D e)
    (hn : next s e = .ok t) : Owned D t := by
  cases next_does he hn with
  | hit hp | miss hp =>
    obtain rfl : _ = D := hd
    exact h.bget hs hp hn
  | lock hp hfree => exact h.lock hp hfree
  | fill hp hv =>
    have hfill := h.fill hp
    rwa [State.fill, if_pos hv] at hfill
  | read hp hv =>
    have hfill := h.fill hp
    rwa [State.fill, if_neg hv] at hfill
  | bwrite => exact h.congr (fun _ => rfl) (fun _ => rfl) (fun _ => rfl) (fun _ _ => Iff.rfl) (fun _ _ hq => hq)
  | release hp hlock => exact h.release hp hlock
  | brelse hp => exact h.brelse hp
  | modify | bpin | bunpin =>
    exact h.congr (Cache.set_field Buf.lock rfl rfl) (Cache.set_field Buf.dev rfl rfl)
      (Cache.set_field Buf.valid rfl rfl) (fun _ _ => Iff.rfl) (fun _ _ hq => hq)

section Content

omit [DecidableEq ι] [Fintype ι]

variable {latest : Nat → α} {dirty : Fin NBUF → Bool} {P : List Nat}

-- The cache against the contents that each block was given last. A block is in its buffer, and on
-- the disk unless the buffer is dirty or pinned for the log.
structure Content (D : Nat) (s : State ι α) (latest : Nat → α) (dirty : Fin NBUF → Bool) (P : List Nat) : Prop where
  data : ∀ b, (s.cache.buf b).dev = D → (s.cache.buf b).valid = true →
    (s.cache.buf b).data = latest (s.cache.buf b).blockno
  disk : ∀ n, s.disk n = latest n ∨ ∃ b, (s.cache.buf b).dev = D ∧ (s.cache.buf b).blockno = n ∧
    (s.cache.buf b).valid = true ∧ (dirty b = true ∨ n ∈ P)
  dirty : ∀ b, dirty b = true → ∃ p, (s.cache.buf b).lock = some p
  pinned : ∀ n ∈ P, ∃ b, (s.cache.buf b).dev = D ∧ (s.cache.buf b).blockno = n ∧
    (s.cache.buf b).valid = true ∧ 0 < s.pins b

def Buf.shown (x : Buf ι α) : Nat × Nat × Bool × α := (x.dev, x.blockno, x.valid, x.data)

theorem Buf.shown_inj {x y : Buf ι α} : x.shown = y.shown ↔
    x.dev = y.dev ∧ x.blockno = y.blockno ∧ x.valid = y.valid ∧ x.data = y.data := by
  simp [Buf.shown]

theorem Content.congr (h : Content D s latest dirty P)
    (hbuf : ∀ b, (t.cache.buf b).shown = (s.cache.buf b).shown) (hdisk : t.disk = s.disk)
    (hlock : ∀ b, dirty b = true → (t.cache.buf b).lock = (s.cache.buf b).lock)
    (hpins : ∀ b, 0 < s.pins b → 0 < t.pins b) : Content D t latest dirty P := by
  simp only [Buf.shown_inj] at hbuf
  refine ⟨fun b hb hv => ?_, fun n => ?_, fun b hb => ?_, fun n hn => ?_⟩
  · obtain ⟨h1, h2, h3, h4⟩ := hbuf b
    rw [h4, h2]
    exact h.data b (h1 ▸ hb) (h3 ▸ hv)
  · rw [hdisk]
    rcases h.disk n with heq | ⟨b, hb⟩
    · exact .inl heq
    · obtain ⟨h1, h2, h3, -⟩ := hbuf b
      exact .inr ⟨b, by rwa [h1, h2, h3]⟩
  · rw [hlock b hb]
    exact h.dirty b hb
  · obtain ⟨b, hdev, hno, hv, hpin⟩ := h.pinned n hn
    obtain ⟨h1, h2, h3, -⟩ := hbuf b
    exact ⟨b, h1 ▸ hdev, h2 ▸ hno, h3 ▸ hv, hpins b hpin⟩

theorem Content.modify (h : Content D s latest dirty P) (hu : Unique s) (hD : D ≠ 0)
    (hlock : (s.cache.buf b).lock = some p) (hdev : (s.cache.buf b).dev = D) (hvalid : (s.cache.buf b).valid = true)
    (v : α) : Content D (s.modify b v) (update latest (s.cache.buf b).blockno v)
      (update dirty b true) P := by
  have hset : (s.modify b v).cache = s.cache.set b { s.cache.buf b with data := v } := rfl
  have hkeep := fun b' => Cache.set_field Buf.dev hset rfl b'
  have hno := fun b' => Cache.set_field Buf.blockno hset rfl b'
  have hval := fun b' => Cache.set_field Buf.valid hset rfl b'
  have hlk := fun b' => Cache.set_field Buf.lock hset rfl b'
  refine ⟨fun b' hb hv => ?_, fun n => ?_, fun b' hb => ?_, fun n hn => ?_⟩
  · rw [hkeep] at hb
    rw [hval] at hv
    rw [hno]
    by_cases hbb : b' = b
    · subst hbb
      simp [hset]
    · have hne : (s.cache.buf b').blockno ≠ (s.cache.buf b).blockno := by
        intro heq
        exact hbb (hu b b' (hdev ▸ hD) (Prod.ext (hb.trans hdev.symm) heq))
      rw [update_of_ne hne, hset, Cache.set_of_ne _ _ hbb]
      exact h.data b' hb hv
  · by_cases hn : n = (s.cache.buf b).blockno
    · subst hn
      exact .inr ⟨b, by rw [hkeep, hno, hval]; exact ⟨hdev, rfl, hvalid, .inl (update_self ..)⟩⟩
    · rw [update_of_ne hn]
      rcases h.disk n with heq | ⟨b', h1, h2, h3, h4⟩
      · exact .inl heq
      · refine .inr ⟨b', (hkeep b').trans h1, (hno b').trans h2, (hval b').trans h3, h4.imp_left fun hd => ?_⟩
        by_cases hbb : b' = b
        · rw [hbb, update_self]
        · rwa [update_of_ne hbb]
  · rw [hlk]
    by_cases hbb : b' = b
    · rw [hbb]
      exact ⟨p, hlock⟩
    · rw [update_of_ne hbb] at hb
      exact h.dirty b' hb
  · obtain ⟨b', hb'⟩ := h.pinned n hn
    exact ⟨b', by rw [hkeep, hno, hval]; exact hb'⟩

theorem Content.bwrite [DecidableEq ι] (h : Content D s latest dirty P) (hdev : (s.cache.buf b).dev = D) (hvalid : (s.cache.buf b).valid = true) (hn : s.bwrite p b = .ok t) :
    Content D t latest (update dirty b false) P := by
  obtain ⟨hlock, rfl⟩ := State.bwrite_eq_ok hn
  refine ⟨h.data, fun n => ?_, fun b' hb => ?_, h.pinned⟩
  · by_cases hn : n = (s.cache.buf b).blockno
    · subst hn
      exact .inl ((update_self ..).trans (h.data b hdev hvalid))
    · simp only [update_of_ne hn]
      rcases h.disk n with heq | ⟨b', h1, h2, h3, h4⟩
      · exact .inl heq
      · have hbb : b' ≠ b := by
          rintro rfl
          exact hn h2.symm
        exact .inr ⟨b', h1, h2, h3, by rwa [update_of_ne hbb]⟩
  · have hbb : b' ≠ b := by
      rintro rfl
      simp at hb
    rw [update_of_ne hbb] at hb
    exact h.dirty b' hb

theorem Content.clean (h : Content D s latest dirty P) (hdev : (s.cache.buf b).dev = D)
    (hvalid : (s.cache.buf b).valid = true) (hb : (s.cache.buf b).blockno ∈ P) :
    Content D s latest (update dirty b false) P := by
  refine ⟨h.data, fun n => ?_, fun b' hb' => ?_, h.pinned⟩
  · rcases h.disk n with heq | ⟨b', h1, h2, h3, h4⟩
    · exact .inl heq
    · refine .inr ⟨b', h1, h2, h3, ?_⟩
      by_cases hbb : b' = b
      · subst hbb
        exact .inr (h2 ▸ hb)
      · rwa [update_of_ne hbb]
  · have hbb : b' ≠ b := by
      rintro rfl
      simp at hb'
    rw [update_of_ne hbb] at hb'
    exact h.dirty b' hb'

theorem Content.bpin (h : Content D s latest dirty P) (hdev : (s.cache.buf b).dev = D)
    (hvalid : (s.cache.buf b).valid = true) :
    Content D (s.bpin b) latest dirty (P ++ [(s.cache.buf b).blockno]) := by
  have hset : (s.bpin b).cache = s.cache.set b { s.cache.buf b with refcnt := (s.cache.buf b).refcnt + 1 } := rfl
  have hpinned : Content D (s.bpin b) latest dirty P := by
    refine h.congr (Cache.set_field Buf.shown hset rfl) rfl (fun b' _ => Cache.set_field Buf.lock hset rfl b') ?_
    intro b' hb'
    simp only [State.bpin, update_apply]
    split <;> omega
  refine ⟨hpinned.data, fun n => ?_, hpinned.dirty, fun n hn => ?_⟩
  · rcases hpinned.disk n with heq | ⟨b', h1, h2, h3, h4⟩
    · exact .inl heq
    · exact .inr ⟨b', h1, h2, h3, h4.imp_right fun hm => List.mem_append_left _ hm⟩
  · rcases List.mem_append.mp hn with hn | hn
    · exact hpinned.pinned n hn
    · obtain rfl := List.mem_singleton.mp hn
      refine ⟨b, ?_, Cache.set_field Buf.blockno hset rfl b, ?_, by simp [State.bpin]⟩
      · rw [Cache.set_field Buf.dev hset rfl]
        exact hdev
      · rw [Cache.set_field Buf.valid hset rfl]
        exact hvalid

theorem Content.bunpin {n : Nat} (h : Content D s latest dirty (n :: P)) (hb : (s.cache.buf b).blockno = n) (hn : n ∉ P) (hdisk : s.disk n = latest n) :
    Content D (s.bunpin b) latest dirty P := by
  have hset : (s.bunpin b).cache = s.cache.set b { s.cache.buf b with refcnt := (s.cache.buf b).refcnt - 1 } := rfl
  have hkeep := fun b' => Buf.shown_inj.mp (Cache.set_field Buf.shown hset rfl b')
  refine ⟨fun b' hb' hv => ?_, fun m => ?_, fun b' hb' => ?_, fun m hm => ?_⟩
  · obtain ⟨h1, h2, h3, h4⟩ := hkeep b'
    rw [h4, h2]
    exact h.data b' (h1 ▸ hb') (h3 ▸ hv)
  · by_cases hmn : m = n
    · subst hmn
      exact .inl hdisk
    · rcases h.disk m with heq | ⟨b', h1, h2, h3, h4⟩
      · exact .inl heq
      · obtain ⟨k1, k2, k3, -⟩ := hkeep b'
        exact .inr ⟨b', k1 ▸ h1, k2 ▸ h2, k3 ▸ h3, h4.imp_right fun hm => (List.mem_cons.mp hm).resolve_left hmn⟩
  · rw [Cache.set_field Buf.lock hset rfl]
    exact h.dirty b' hb'
  · obtain ⟨b', h1, h2, h3, h4⟩ := h.pinned m (List.mem_cons_of_mem _ hm)
    obtain ⟨k1, k2, k3, -⟩ := hkeep b'
    have hbb : b' ≠ b := by
      rintro rfl
      exact hn (hb ▸ h2 ▸ hm)
    refine ⟨b', k1 ▸ h1, k2 ▸ h2, k3 ▸ h3, ?_⟩
    simpa only [State.bunpin, update_of_ne hbb] using h4

variable [DecidableEq ι]

theorem Content.fill (h : Content D s latest dirty P) (hu : Unique s) (hD : D ≠ 0) (hdev : (s.cache.buf b).dev = D) :
    Content D (s.fill p b) latest dirty P := by
  rw [State.fill]
  split
  next => exact h.congr (fun _ => rfl) rfl (fun _ _ => rfl) (fun _ hb => hb)
  next hinvalid =>
    have hset : ((s.goto p .out).setBuf b { s.cache.buf b with
        data := s.disk (s.cache.buf b).blockno, valid := true }).cache =
      s.cache.set b { s.cache.buf b with data := s.disk (s.cache.buf b).blockno, valid := true } := rfl
    have hkeep := fun b' => Cache.set_field Buf.dev hset rfl b'
    have hno := fun b' => Cache.set_field Buf.blockno hset rfl b'
    have hval : ∀ b', (s.cache.buf b').valid = true →
        ((s.cache.set b { s.cache.buf b with data := s.disk (s.cache.buf b).blockno, valid := true }).buf b').valid =
          true := by
      intro b' hv
      by_cases hbb : b' = b
      · rw [hbb, Cache.set_self]
      · rwa [Cache.set_of_ne _ _ hbb]
    refine ⟨fun b' hb hv => ?_, fun n => ?_, fun b' hb => ?_, fun n hn => ?_⟩
    · rw [hkeep] at hb
      rw [hno]
      by_cases hbb : b' = b
      · subst hbb
        rw [hset, Cache.set_self]
        -- the disk is not behind: only the buffer of the block itself could hold newer contents
        rcases h.disk (s.cache.buf b').blockno with heq | ⟨b₁, h1, h2, h3, -⟩
        · exact heq
        · have heq := hu b' b₁ (hdev ▸ hD) (Prod.ext (h1.trans hdev.symm) h2)
          rw [heq] at h3
          exact absurd h3 hinvalid
      · rw [hset, Cache.set_of_ne _ _ hbb] at hv ⊢
        exact h.data b' hb hv
    · rcases h.disk n with heq | ⟨b', h1, h2, h3, h4⟩
      · exact .inl heq
      · exact .inr ⟨b', (hkeep b').trans h1, (hno b').trans h2, hval b' h3, h4⟩
    · rw [Cache.set_field Buf.lock hset rfl]
      exact h.dirty b' hb
    · obtain ⟨b', h1, h2, h3, h4⟩ := h.pinned n hn
      exact ⟨b', (hkeep b').trans h1, (hno b').trans h2, hval b' h3, h4⟩

theorem Content.release (h : Content D s latest dirty P) (hclean : dirty b = false) (hn : s.release p b = .ok t) :
    Content D t latest dirty P := by
  obtain ⟨-, rfl⟩ := State.release_eq_ok hn
  refine h.congr (Cache.set_field Buf.shown rfl rfl) rfl (fun b' hb' => ?_) (fun _ hb => hb)
  have hbb : b' ≠ b := by
    rintro rfl
    simp [hclean] at hb'
  simp [State.setBuf, Cache.set_of_ne _ _ hbb]

theorem Content.brelse (h : Content D s latest dirty P) : Content D (s.brelse p b) latest dirty P := by
  have hrest : (s.brelse p b).disk = s.disk ∧ (s.brelse p b).pins = s.pins := by
    rw [State.brelse]
    split <;> exact ⟨rfl, rfl⟩
  refine h.congr (fun b' => ?_) hrest.1 (fun b' _ => ?_) (fun b' hb => hrest.2 ▸ hb)
  · rw [State.brelse_buf]
    exact Cache.set_field Buf.shown rfl (by rfl) b'
  · rw [State.brelse_buf]
    exact Cache.set_field Buf.lock rfl (by rfl) b'

-- A buffer is only recycled when its contents are on the disk.
theorem Content.bget [Fintype ι] (h : Content D s latest dirty P) (hs : Structured s)
    (hn : s.bget p dev n = .ok t) : Content D t latest dirty P := by
  obtain ⟨⟨b, c⟩, hb, hn⟩ := bind_eq_ok.mp hn
  cases hn
  obtain ⟨xs, hxs⟩ := hs.order
  rcases Cache.bget_cases hb with ⟨-, rfl⟩ | ⟨-, hfree, rfl⟩
  · exact h.congr (Cache.set_field Buf.shown rfl rfl) rfl (fun b' _ => Cache.set_field Buf.lock rfl (by rfl) b')
      (fun _ hb => hb)
  · have hzero := (hxs.unused_some hfree).1
    have hdirty : dirty b ≠ true := by
      intro hd
      obtain ⟨q, hq⟩ := h.dirty b hd
      have := hs.count.pos_of_lock hq
      omega
    have hpins : ¬0 < s.pins b := by
      intro hp
      have := hs.count.pos_of_pins hp
      omega
    have hpinned : ∀ m ∈ P, ∃ b', b' ≠ b ∧ (s.cache.buf b').dev = D ∧ (s.cache.buf b').blockno = m ∧
        (s.cache.buf b').valid = true ∧ 0 < s.pins b' := by
      intro m hm
      obtain ⟨b', hb'⟩ := h.pinned m hm
      refine ⟨b', ?_, hb'⟩
      rintro rfl
      exact hpins hb'.2.2.2
    refine ⟨fun b' hb' hv => ?_, fun m => ?_, fun b' hb' => ?_, fun m hm => ?_⟩
    · have hbb : b' ≠ b := by
        rintro rfl
        simp at hv
      simp only [Cache.set_of_ne _ _ hbb] at hb' hv ⊢
      exact h.data b' hb' hv
    · rcases h.disk m with heq | ⟨b', h1, h2, h3, h4 | h4⟩
      · exact .inl heq
      · have hbb : b' ≠ b := by
          rintro rfl
          exact hdirty h4
        exact .inr ⟨b', by simpa only [Cache.set_of_ne _ _ hbb] using ⟨h1, h2, h3, .inl h4⟩⟩
      · obtain ⟨b₁, hbb, h1, h2, h3, -⟩ := hpinned m h4
        exact .inr ⟨b₁, by simpa only [Cache.set_of_ne _ _ hbb] using ⟨h1, h2, h3, .inr h4⟩⟩
    · have hbb : b' ≠ b := by
        rintro rfl
        exact hdirty hb'
      simp only [Cache.set_of_ne _ _ hbb]
      exact h.dirty b' hb'
    · obtain ⟨b₁, hbb, hb₁⟩ := hpinned m hm
      exact ⟨b₁, by simpa only [Cache.set_of_ne _ _ hbb, State.goto_pins] using hb₁⟩

end Content

end Xv6.Bio
