import Xv6.Bio
import Xv6.Lib.Count

namespace Xv6.Bio

open Lib Function List

variable {ι α : Type} {s t : State ι α} {xs : List (Fin NBUF)}

-- The list of the buffers, most recently released first.
structure Order (s : State ι α) (xs : List (Fin NBUF)) : Prop where
  ring : Ring s.cache.links xs
  all : ∀ b, b ∈ xs
  sorted : xs.Pairwise fun x y => s.released y ≤ s.released x
  past : ∀ b, s.released b ≤ s.clock

theorem Order.length_lt (h : Order s xs) : xs.length < NBUF + 1 := by
  have hle := h.ring.nodup.length_le_card
  rw [Fintype.card_fin] at hle
  omega

theorem Order.congr (h : Order s xs) (hlinks : t.cache.links = s.cache.links) (hrel : t.released = s.released)
    (hclock : t.clock = s.clock) : Order t xs := by
  refine ⟨hlinks ▸ h.ring, h.all, ?_, ?_⟩
  · rw [hrel]
    exact h.sorted
  · rw [hrel, hclock]
    exact h.past

section Scans

variable {dev blockno : Nat} {b : Fin NBUF}

theorem Order.cached_some (h : Order s xs) (hc : s.cache.cached dev blockno = some b) :
    (s.cache.buf b).dev = dev ∧ (s.cache.buf b).blockno = blockno := by
  rw [Cache.cached, h.ring.scan_next h.length_lt] at hc
  simpa using find?_some hc

theorem Order.cached_none (h : Order s xs) : s.cache.cached dev blockno = none ↔
    ∀ b, ¬((s.cache.buf b).dev = dev ∧ (s.cache.buf b).blockno = blockno) := by
  rw [Cache.cached, h.ring.scan_next h.length_lt, find?_eq_none]
  constructor
  · intro hnone b hb
    exact hnone b (h.all b) (by simpa using hb)
  · intro hnone b _ hb
    exact hnone b (by simpa using hb)

theorem Order.unused_some (h : Order s xs) (hc : s.cache.unused = some b) :
    (s.cache.buf b).refcnt = 0 ∧ ∀ b', (s.cache.buf b').refcnt = 0 → s.released b ≤ s.released b' := by
  rw [Cache.unused, h.ring.scan_prev h.length_lt, find?_eq_some_iff_append] at hc
  obtain ⟨hb, ys, zs, hrev, hys⟩ := hc
  refine ⟨by simpa using hb, fun b' hb' => ?_⟩
  have hxs : xs = zs.reverse ++ b :: ys.reverse := by
    have := congrArg List.reverse hrev
    simpa using this
  have hsorted := h.sorted
  rw [hxs] at hsorted
  have hmem := h.all b'
  rw [hxs, mem_append, mem_cons, mem_reverse, mem_reverse] at hmem
  rcases hmem with hz | rfl | hy
  · exact (pairwise_append.mp hsorted).2.2 b' (by simpa using hz) b (by simp)
  · exact Nat.le_refl _
  · have hused := hys b' hy
    simp [hb'] at hused

theorem Order.unused_none (h : Order s xs) : s.cache.unused = none ↔ ∀ b, (s.cache.buf b).refcnt ≠ 0 := by
  rw [Cache.unused, h.ring.scan_prev h.length_lt, find?_eq_none]
  constructor
  · intro hnone b hb
    exact hnone b (mem_reverse.mpr (h.all b)) (by simpa using hb)
  · intro hnone b _ hb
    exact hnone b (by simpa using hb)

end Scans

section Updates

variable {c : Cache ι α} {b b' : Fin NBUF} {x : Buf ι α}

@[simp] theorem Cache.set_links (c : Cache ι α) (b : Fin NBUF) (x : Buf ι α) : (c.set b x).links = c.links := rfl

@[simp] theorem Cache.set_self (c : Cache ι α) (b : Fin NBUF) (x : Buf ι α) : (c.set b x).buf b = x :=
  update_self ..

theorem Cache.set_of_ne (c : Cache ι α) (x : Buf ι α) (h : b' ≠ b) : (c.set b x).buf b' = c.buf b' :=
  update_of_ne h ..

theorem Cache.set_field (f : Buf ι α → β) (hc : c' = c.set b x)
    (hx : f x = f (c.buf b)) (b' : Fin NBUF) : f (c'.buf b') = f (c.buf b') := by
  rw [hc]
  by_cases hbb : b' = b
  · subst hbb
    simpa using hx
  · rw [Cache.set_of_ne _ _ hbb]

theorem Cache.bget_cases (h : c.bget dev blockno = .ok (b, c')) :
    (c.cached dev blockno = some b ∧ c' = c.set b { c.buf b with refcnt := (c.buf b).refcnt + 1 }) ∨
    (c.cached dev blockno = none ∧ c.unused = some b ∧ c' = c.set b { c.buf b with
      dev := dev, blockno := blockno, valid := false, refcnt := 1 }) := by
  revert h
  fun_cases Cache.bget dev blockno c <;> intro h <;> cases h
  · next hb => exact .inl ⟨hb, rfl⟩
  · next hnone hb => exact .inr ⟨hnone, hb, rfl⟩

theorem Cache.bget_error :
    c.bget dev blockno = .error e ↔ e = .noBuffers ∧ c.cached dev blockno = none ∧ c.unused = none := by
  fun_cases Cache.bget dev blockno c
  · next hb => simp [hb]
  · next hnone hb => simp [hb]
  · next hnone hunused => simp [hnone, hunused, eq_comm]

@[simp] theorem Cache.brelse_buf (c : Cache ι α) (b : Fin NBUF) :
    (c.brelse b).buf = (c.set b { c.buf b with refcnt := (c.buf b).refcnt - 1 }).buf := by
  simp only [Cache.brelse]
  split <;> rfl

theorem Cache.brelse_links (c : Cache ι α) (b : Fin NBUF) : (c.brelse b).links =
    if (c.buf b).refcnt - 1 = 0 then (c.links.unlink b).pushFront b else c.links := by
  simp only [Cache.brelse, Cache.set_self]
  split <;> rfl

end Updates

def Buf.block (x : Buf ι α) : Nat × Nat := (x.dev, x.blockno)

-- No two buffers carry one block. In .bss all of them carry block 0 of device 0.
def Unique (s : State ι α) : Prop :=
  ∀ b b', (s.cache.buf b).dev ≠ 0 → (s.cache.buf b').block = (s.cache.buf b).block → b' = b

theorem Unique.congr (h : Unique s) (hblock : ∀ b, (t.cache.buf b).block = (s.cache.buf b).block) : Unique t := by
  intro b b' hdev heq
  rw [hblock, hblock] at heq
  have hb : (t.cache.buf b).dev = (s.cache.buf b).dev := congrArg Prod.fst (hblock b)
  exact h b b' (hb ▸ hdev) heq

section Goto

variable [DecidableEq ι]

@[simp] theorem State.goto_cache (s : State ι α) (p : ι) (c : Call) : (s.goto p c).cache = s.cache := rfl

@[simp] theorem State.goto_pins (s : State ι α) (p : ι) (c : Call) : (s.goto p c).pins = s.pins := rfl

@[simp] theorem State.brelse_buf (s : State ι α) (p : ι) (b : Fin NBUF) : (s.brelse p b).cache.buf =
    (s.cache.set b { s.cache.buf b with refcnt := (s.cache.buf b).refcnt - 1 }).buf := by
  rw [State.brelse]
  split <;> exact Cache.brelse_buf ..

@[simp] theorem State.brelse_call (s : State ι α) (p : ι) (b : Fin NBUF) :
    (s.brelse p b).call = (s.goto p .out).call := by
  rw [State.brelse]
  split <;> rfl

theorem State.bwrite_eq_ok (h : s.bwrite p b = .ok t) : (s.cache.buf b).lock = some p ∧
    t = { s with disk := update s.disk (s.cache.buf b).blockno (s.cache.buf b).data } := by
  revert h
  fun_cases State.bwrite s p b <;> intro h <;> cases h
  next hlock => exact ⟨hlock, rfl⟩

theorem State.release_eq_ok (h : s.release p b = .ok t) : (s.cache.buf b).lock = some p ∧
    t = (s.goto p (.drops b)).setBuf b { s.cache.buf b with lock := none } := by
  revert h
  fun_cases State.release s p b <;> intro h <;> cases h
  next hlock => exact ⟨hlock, rfl⟩

inductive Does (s : State ι α) : Event ι α → State ι α → Prop
  | hit {p dev n b} (hp : s.call p = .out) (hhit : s.cache.cached dev n = some b) : Does s (.bget p dev n)
      ((s.goto p (.waits b)).setBuf b { s.cache.buf b with refcnt := (s.cache.buf b).refcnt + 1 })
  | miss {p dev n b} (hp : s.call p = .out) (hmiss : s.cache.cached dev n = none) (hfree : s.cache.unused = some b) :
      Does s (.bget p dev n) ((s.goto p (.waits b)).setBuf b { s.cache.buf b with
        dev := dev, blockno := n, valid := false, refcnt := 1 })
  | lock {p b} (hp : s.call p = .waits b) (hfree : (s.cache.buf b).lock = none) : Does s (.lock p) (s.lock p b)
  | fill {p b} (hp : s.call p = .fills b) (hv : (s.cache.buf b).valid = true) : Does s (.fill p) (s.goto p .out)
  | read {p b} (hp : s.call p = .fills b) (hv : (s.cache.buf b).valid ≠ true) : Does s (.fill p)
      ((s.goto p .out).setBuf b { s.cache.buf b with data := s.disk (s.cache.buf b).blockno, valid := true })
  | modify {p b v} (hp : s.call p = .out) (hlock : (s.cache.buf b).lock = some p) :
      Does s (.modify p b v) (s.modify b v)
  | bwrite {p b} (hp : s.call p = .out) (hlock : (s.cache.buf b).lock = some p) : Does s (.bwrite p b)
      { s with disk := update s.disk (s.cache.buf b).blockno (s.cache.buf b).data }
  | release {p b} (hp : s.call p = .out) (hlock : (s.cache.buf b).lock = some p) : Does s (.release p b)
      ((s.goto p (.drops b)).setBuf b { s.cache.buf b with lock := none })
  | brelse {p b} (hp : s.call p = .drops b) : Does s (.brelse p) (s.brelse p b)
  | bpin {b} : Does s (.bpin b) (s.bpin b)
  | bunpin {b} : Does s (.bunpin b) (s.bunpin b)

theorem next_does (he : e.enabled s) (hn : next s e = .ok t) : Does s e t := by
  cases e with
  | bget p dev n =>
    obtain ⟨⟨b, c⟩, hb, hn⟩ := bind_eq_ok.mp hn
    cases hn
    rcases Cache.bget_cases hb with ⟨hhit, rfl⟩ | ⟨hmiss, hfree, rfl⟩
    · exact .hit he hhit
    · exact .miss he hmiss hfree
  | lock p =>
    obtain ⟨b, hp, hfree⟩ := he
    simp only [Bio.next, hp] at hn
    cases hn
    exact .lock hp hfree
  | fill p =>
    obtain ⟨b, hp⟩ := he
    simp only [Bio.next, hp] at hn
    cases hn
    rw [State.fill]
    split
    next hv => exact .fill hp hv
    next hv => exact .read hp hv
  | modify p b v =>
    cases hn
    exact .modify he.1 he.2
  | bwrite p b =>
    obtain ⟨hlock, rfl⟩ := State.bwrite_eq_ok hn
    exact .bwrite he hlock
  | release p b =>
    obtain ⟨hlock, rfl⟩ := State.release_eq_ok hn
    exact .release he hlock
  | brelse p =>
    obtain ⟨b, hp⟩ := he
    simp only [Bio.next, hp] at hn
    cases hn
    exact .brelse hp
  | bpin b =>
    cases hn
    exact .bpin
  | bunpin b =>
    cases hn
    exact .bunpin

end Goto

variable [Fintype ι]

def State.number (s : State ι α) (c : Call) : Nat := (Finset.univ.filter fun p => s.call p = c).card

-- The processes that have b locked or are about to drop it in brelse(), and those that wait
-- for its lock.
def State.users (s : State ι α) (b : Fin NBUF) : Nat :=
  (if (s.cache.buf b).lock.isSome then 1 else 0) + s.number (.drops b)

def State.waiters (s : State ι α) (b : Fin NBUF) : Nat := s.number (.waits b)

def Counted (s : State ι α) : Prop :=
  ∀ b, (s.cache.buf b).refcnt = s.users b + s.waiters b + s.pins b

structure Structured (s : State ι α) : Prop where
  order : ∃ xs, Order s xs
  unique : Unique s
  count : Counted s

section Steps

variable {p : ι} {b : Fin NBUF} {d : Call}

-- What one process at c, the lock and the pins add to the refcnt of b.
def Call.refs (b : Fin NBUF) (c : Call) : Nat :=
  (if c = .drops b then 1 else 0) + (if c = .waits b then 1 else 0)

def State.fixed (s : State ι α) (b : Fin NBUF) : Nat :=
  (if (s.cache.buf b).lock.isSome then 1 else 0) + s.pins b

theorem Counted.stay (h : Counted s) (hcall : t.call = s.call)
    (hb : ∀ b, (t.cache.buf b).refcnt + s.fixed b = (s.cache.buf b).refcnt + t.fixed b) : Counted t := by
  intro b
  have hcount := h b
  have hbal := hb b
  simp only [State.users, State.waiters, State.number, hcall, State.fixed] at hcount hbal ⊢
  omega

theorem Counted.pos (h : Counted s) (hp : s.call p = .drops b) : 1 ≤ (s.cache.buf b).refcnt := by
  have hmem : 0 < s.number (.drops b) := Finset.card_pos.mpr ⟨p, by simp [hp]⟩
  have hcount := h b
  simp only [State.users] at hcount
  omega

theorem Structured.touch (h : Structured s) (hcache : t.cache = s.cache.set b x)
    (hblock : x.block = (s.cache.buf b).block) (hrel : t.released = s.released) (hclock : t.clock = s.clock)
    (hcount : Counted t) : Structured t := by
  obtain ⟨xs, hxs⟩ := h.order
  refine ⟨⟨xs, hxs.congr (by rw [hcache]; rfl) hrel hclock⟩, h.unique.congr fun b' => ?_, hcount⟩
  rw [hcache]
  by_cases hbb : b' = b
  · subst hbb
    simpa using hblock
  · rw [Cache.set_of_ne _ _ hbb]

theorem Structured.data (h : Structured s) (b : Fin NBUF) (v : α) (valid : Bool) :
    Structured (s.setBuf b { s.cache.buf b with data := v, valid := valid }) := by
  refine h.touch (b := b) rfl rfl rfl rfl (h.count.stay rfl fun b' => ?_)
  by_cases hbb : b' = b
  · subst hbb
    simp [State.setBuf, State.fixed]
  · simp [State.setBuf, State.fixed, Cache.set_of_ne _ _ hbb]

theorem Structured.bpin (h : Structured s) (b : Fin NBUF) : Structured (s.bpin b) := by
  refine h.touch (b := b) rfl rfl rfl rfl (h.count.stay rfl fun b' => ?_)
  by_cases hbb : b' = b
  · subst hbb
    simp [State.bpin, Cache.bpin, State.fixed]
    omega
  · simp [State.bpin, Cache.bpin, State.fixed, Cache.set_of_ne _ _ hbb, hbb]

theorem Structured.bunpin (h : Structured s) (hpin : 0 < s.pins b) : Structured (s.bunpin b) := by
  refine h.touch (b := b) rfl rfl rfl rfl (h.count.stay rfl fun b' => ?_)
  have hcount := h.count b
  by_cases hbb : b' = b
  · subst hbb
    simp [State.bunpin, Cache.bunpin, State.fixed]
    omega
  · simp [State.bunpin, Cache.bunpin, State.fixed, Cache.set_of_ne _ _ hbb, hbb]

variable [DecidableEq ι]

theorem Counted.move (h : Counted s) (hcall : t.call = update s.call p d)
    (hb : ∀ b, (t.cache.buf b).refcnt + s.fixed b + (s.call p).refs b =
      (s.cache.buf b).refcnt + t.fixed b + d.refs b) : Counted t := by
  intro b
  have hcount := h b
  have hbal := hb b
  have hdrops := card_update (· = Call.drops b) s.call p d
  have hwaits := card_update (· = Call.waits b) s.call p d
  simp only [State.users, State.waiters, State.number, hcall, State.fixed, Call.refs] at hcount hbal ⊢
  omega

theorem Structured.bget (h : Structured s) (hp : s.call p = .out)
    (hn : s.bget p dev blockno = .ok t) : Structured t := by
  obtain ⟨⟨b, c⟩, hb, hn⟩ := bind_eq_ok.mp hn
  cases hn
  obtain ⟨xs, hxs⟩ := h.order
  rcases Cache.bget_cases hb with ⟨-, rfl⟩ | ⟨hmiss, hfree, rfl⟩
  · refine ⟨⟨xs, hxs.congr rfl rfl rfl⟩, h.unique.congr fun b' => ?_, h.count.move rfl fun b' => ?_⟩
    · by_cases hbb : b' = b
      · subst hbb
        simp [Buf.block]
      · simp [Cache.set_of_ne _ _ hbb]
    · by_cases hbb : b' = b
      · subst hbb
        simp [State.fixed, Call.refs, hp]
        omega
      · simp [State.fixed, Call.refs, hp, Cache.set_of_ne _ _ hbb, Ne.symm hbb]
  · refine ⟨⟨xs, hxs.congr rfl rfl rfl⟩, fun b₁ b₂ hdev heq => ?_, h.count.move rfl fun b' => ?_⟩
    · -- no other buffer carried the block before
      have hother : ∀ b', b' ≠ b → ((s.cache.buf b').dev, (s.cache.buf b').blockno) ≠ (dev, blockno) := by
        intro b' _ heq
        exact hxs.cached_none.mp hmiss b' (by simpa using heq)
      by_cases h1 : b₁ = b <;> by_cases h2 : b₂ = b
      · rw [h1, h2]
      · subst h1
        simp only [Buf.block, Cache.set_self, Cache.set_of_ne _ _ h2] at heq
        exact absurd heq (hother b₂ h2)
      · subst h2
        simp only [Buf.block, Cache.set_self, Cache.set_of_ne _ _ h1] at heq
        exact absurd heq.symm (hother b₁ h1)
      · simp only [Cache.set_of_ne _ _ h1, Cache.set_of_ne _ _ h2] at heq hdev
        exact h.unique b₁ b₂ hdev heq
    · have hzero := (hxs.unused_some hfree).1
      by_cases hbb : b' = b
      · subst hbb
        simp [State.fixed, Call.refs, hp, hzero]
        omega
      · simp [State.fixed, Call.refs, hp, Cache.set_of_ne _ _ hbb, Ne.symm hbb]

theorem Structured.lock (h : Structured s) (hp : s.call p = .waits b) (hfree : (s.cache.buf b).lock = none) :
    Structured (s.lock p b) := by
  refine h.touch (b := b) rfl rfl rfl rfl (h.count.move rfl fun b' => ?_)
  by_cases hbb : b' = b
  · subst hbb
    simp [State.lock, State.setBuf, State.fixed, Call.refs, hp, hfree]
    omega
  · simp [State.lock, State.setBuf, State.fixed, Call.refs, hp, Cache.set_of_ne _ _ hbb, Ne.symm hbb]

theorem Structured.goto_out (h : Structured s) (hp : s.call p = .fills b) : Structured (s.goto p .out) := by
  obtain ⟨xs, hxs⟩ := h.order
  refine ⟨⟨xs, hxs.congr rfl rfl rfl⟩, h.unique.congr fun b' => rfl, h.count.move rfl fun b' => ?_⟩
  rw [hp]
  rfl

theorem Structured.release (h : Structured s) (hp : s.call p = .out) (hlock : (s.cache.buf b).lock = some p) :
    Structured ((s.goto p (.drops b)).setBuf b { s.cache.buf b with lock := none }) := by
  refine h.touch (b := b) rfl rfl rfl rfl (h.count.move rfl fun b' => ?_)
  by_cases hbb : b' = b
  · subst hbb
    simp [State.setBuf, State.fixed, Call.refs, hp, hlock]
    omega
  · simp [State.setBuf, State.fixed, Call.refs, hp, Cache.set_of_ne _ _ hbb, Ne.symm hbb]

theorem Counted.drop (h : Counted s) (hp : s.call p = .drops b) (hcall : t.call = update s.call p .out)
    (hbuf : t.cache.buf = (s.cache.brelse b).buf) (hpins : t.pins = s.pins) : Counted t := by
  have hpos := h.pos hp
  refine h.move hcall fun b' => ?_
  by_cases hbb : b' = b
  · subst hbb
    simp [State.fixed, Call.refs, hp, hbuf, hpins]
    omega
  · simp [State.fixed, Call.refs, hp, hbuf, hpins, Cache.set_of_ne _ _ hbb, Ne.symm hbb]

theorem Structured.brelse (h : Structured s) (hp : s.call p = .drops b) : Structured (s.brelse p b) := by
  obtain ⟨xs, hxs⟩ := h.order
  have hblock : ∀ b', ((s.cache.brelse b).buf b').block = (s.cache.buf b').block := by
    intro b'
    rw [Cache.brelse_buf]
    by_cases hbb : b' = b
    · subst hbb
      simp [Buf.block]
    · rw [Cache.set_of_ne _ _ hbb]
  rw [State.brelse]
  split
  next hzero =>
    rw [Cache.brelse_buf, Cache.set_self] at hzero
    refine ⟨⟨b :: xs.erase b, ?_, fun b' => ?_, ?_, fun b' => ?_⟩, h.unique.congr hblock, h.count.drop hp rfl rfl rfl⟩
    · simp only [Cache.brelse_links, if_pos hzero]
      exact hxs.ring.moveFront (hxs.all b)
    · by_cases hbb : b' = b
      · simp [hbb]
      · simp [(mem_erase_of_ne hbb).mpr (hxs.all b')]
    · -- b has the newest number, the others keep theirs
      have hothers : ∀ b' ∈ xs.erase b, update s.released b (s.clock + 1) b' = s.released b' := by
        intro b' hb'
        refine update_of_ne ?_ _ _
        rintro rfl
        exact List.Nodup.not_mem_erase hxs.ring.nodup hb'
      refine pairwise_cons.mpr ⟨fun b' hb' => ?_, ?_⟩
      · simp only [hothers b' hb', update_self]
        have := hxs.past b'
        omega
      · refine (hxs.sorted.sublist erase_sublist).imp_of_mem fun {x y} hx hy hle => ?_
        simpa only [hothers x hx, hothers y hy] using hle
    · have := hxs.past b'
      simp only [update_apply]
      split <;> omega
  next hpos =>
    rw [Cache.brelse_buf, Cache.set_self] at hpos
    refine ⟨⟨xs, hxs.congr ?_ rfl rfl⟩, h.unique.congr hblock, h.count.drop hp rfl rfl rfl⟩
    simp only [Cache.brelse_links, if_neg hpos]

theorem Structured.event (h : Structured s) (he : e.enabled s) (ha : Matched s e)
    (hn : next s e = .ok t) : Structured t := by
  cases next_does he hn with
  | hit | miss => exact h.bget he hn
  | lock hp hfree => exact h.lock hp hfree
  | fill hp => exact h.goto_out hp
  | read hp => exact (h.goto_out hp).data _ _ true
  | modify => exact h.data _ _ _
  | bwrite =>
    obtain ⟨xs, hxs⟩ := h.order
    exact ⟨⟨xs, hxs.congr rfl rfl rfl⟩, h.unique.congr fun _ => rfl, h.count.stay rfl fun _ => rfl⟩
  | release hp hlock => exact h.release hp hlock
  | brelse hp => exact h.brelse hp
  | bpin => exact h.bpin _
  | bunpin => exact h.bunpin ha

end Steps

omit [Fintype ι] in
theorem Start.order (h : Start s) : Order s (List.finRange NBUF).reverse := by
  obtain ⟨hlinks, -, -, -, hclock, hrel⟩ := h
  have hempty : Ring ({ next := fun _ => none, prev := fun _ => none } : Links (Fin NBUF)) [] :=
    ⟨nodup_nil, rfl, rfl, by simp, by simp⟩
  refine ⟨?_, by simp, ?_, fun b => by rw [hrel]; omega⟩
  · have hring := hempty.foldl_pushFront (show (List.finRange NBUF ++ []).Nodup by simpa using nodup_finRange NBUF)
    rw [hlinks, binit]
    simpa using hring
  · exact pairwise_of_forall fun x y => by rw [hrel, hrel]

theorem Start.structured (h : Start s) : Structured s := by
  have horder := h.order
  obtain ⟨-, hbuf, hcall, hpins, -, -⟩ := h
  refine ⟨⟨_, horder⟩, fun b b' hdev _ => absurd (hbuf b).2.1 hdev, fun b => ?_⟩
  obtain ⟨-, -, -, hlock, href⟩ := hbuf b
  simp [State.users, State.waiters, State.number, hlock, href, hcall, hpins]

variable [DecidableEq ι]

theorem structured_inv (h : Reach Start (Step Matched) s) : Structured s := by
  induction h with
  | start h => exact h.structured
  | step _ hs ih =>
    obtain ⟨e, he, ha, hn⟩ := hs
    exact ih.event he ha hn

omit [Fintype ι] in
theorem block_cases (he : e.enabled s) (hn : next s e = .ok t) (b : Fin NBUF) :
    (t.cache.buf b).block = (s.cache.buf b).block ∨ ∃ p dev blockno, e = .bget p dev blockno ∧
      s.cache.cached dev blockno = none ∧ s.cache.unused = some b ∧ (t.cache.buf b).block = (dev, blockno) := by
  cases next_does he hn with
  | @miss p dev n b' _ hmiss hfree =>
    by_cases hbb : b = b'
    · subst hbb
      exact .inr ⟨p, dev, n, rfl, hmiss, hfree, by simp [State.setBuf, Buf.block]⟩
    · exact .inl (by simp only [State.setBuf, Cache.set_of_ne _ _ hbb, State.goto_cache])
  | fill | bwrite => exact .inl rfl
  | brelse =>
    rw [State.brelse_buf]
    exact .inl (Cache.set_field Buf.block rfl (by rfl) b)
  | hit | lock | read | modify | release | bpin | bunpin => exact .inl (Cache.set_field Buf.block rfl (by rfl) b)

theorem Structured.block_of_pos (h : Structured s) (he : e.enabled s)
    (hn : Bio.next s e = .ok t) (hb : 0 < (s.cache.buf b).refcnt) : (t.cache.buf b).block = (s.cache.buf b).block := by
  obtain ⟨xs, hxs⟩ := h.order
  rcases block_cases he hn b with hsame | ⟨-, -, -, -, -, hfree, -⟩
  · exact hsame
  · have hzero := (hxs.unused_some hfree).1
    omega

def sampleStart : State (Fin 2) Nat where
  cache :=
    { buf := fun _ => { valid := false, dev := 0, blockno := 0, lock := none, refcnt := 0, data := 0 }
      links := binit }
  disk := id
  call := fun _ => .out
  pins := fun _ => 0
  clock := 0
  released := fun _ => 0

end Xv6.Bio
