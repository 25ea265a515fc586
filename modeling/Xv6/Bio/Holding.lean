import Xv6.Bio.Content

set_option linter.unusedSectionVars false

namespace Xv6.Bio

open Lib

variable {ι α : Type} {s t : State ι α} {p : ι} {b : Fin NBUF}

def Holds (s : State ι α) (p : ι) (b : Fin NBUF) : Prop := (s.cache.buf b).lock = some p ∨ s.call p = .waits b

theorem Holds.lock_of_out (h : Holds s p b) (hp : s.call p = .out) : (s.cache.buf b).lock = some p := by
  rcases h with h | h
  · exact h
  · simp [hp] at h

theorem Holds.pos [Fintype ι] (h : Holds s p b) (hs : Structured s) : 0 < (s.cache.buf b).refcnt := by
  rcases h with h | h
  · exact hs.count.pos_of_lock h
  · exact hs.count.pos_of_waits h

def Stuck (s : State ι α) (p : ι) (b : Fin NBUF) : Prop := s.call p = .waits b ∧ (s.cache.buf b).lock = some p

def Event.proc : Event ι α → Option ι
  | .bget p _ _ | .lock p | .fill p | .modify p _ _ | .bwrite p _ | .release p _ | .brelse p => some p
  | .bpin _ | .bunpin _ => none

variable [DecidableEq ι]

section

variable {e : Event ι α} (he : e.enabled s)
include he

theorem call_event (hn : next s e = .ok t) (hp : e.proc ≠ some p) : t.call p = s.call p := by
  have hgoto : ∀ q c, some q ≠ some p → (s.goto q c).call p = s.call p :=
    fun q c hq => s.goto_call_of_ne c fun heq => hq (by rw [heq])
  cases next_does he hn with
  | hit | miss | lock | fill | read | release => exact hgoto _ _ hp
  | brelse => rw [State.brelse_call, hgoto _ _ hp]
  | modify | bwrite | bpin | bunpin => rfl

theorem lock_event (hn : next s e = .ok t) (h : (s.cache.buf b).lock = some p) :
    e = .release p b ∨ (t.cache.buf b).lock = some p := by
  cases next_does he hn with
  | @lock q b' hq hfree =>
    have hbb : b ≠ b' := by
      rintro rfl
      simp [hfree] at h
    exact .inr (by simpa [State.lock, State.setBuf, Cache.set_of_ne _ _ hbb] using h)
  | @release q b' _ hlock =>
    by_cases hbb : b = b'
    · subst hbb
      obtain rfl : q = p := by simpa [hlock] using h
      exact .inl rfl
    · exact .inr (by simpa [State.setBuf, Cache.set_of_ne _ _ hbb] using h)
  | brelse =>
    rw [State.brelse_buf]
    exact .inr ((Cache.set_field Buf.lock rfl (by rfl) b).trans h)
  | fill | bwrite => exact .inr h
  | hit | miss | read | modify | bpin | bunpin => exact .inr ((Cache.set_field Buf.lock rfl (by rfl) b).trans h)

theorem proc_call (hproc : e.proc = some p) : s.call p = .out ∨ (∃ b, s.call p = .waits b ∧ e = .lock p) ∨
    (∃ b, s.call p = .fills b ∧ e = .fill p) ∨ ∃ b, s.call p = .drops b := by
  cases e with
  | bget q dev n | release q b' | bwrite q b' =>
    obtain rfl : q = p := by simpa [Event.proc] using hproc
    exact .inl he
  | modify q b' v =>
    obtain rfl : q = p := by simpa [Event.proc] using hproc
    exact .inl he.1
  | lock q =>
    obtain rfl : q = p := by simpa [Event.proc] using hproc
    obtain ⟨b, hq, -⟩ := he
    exact .inr (.inl ⟨b, hq, rfl⟩)
  | fill q =>
    obtain rfl : q = p := by simpa [Event.proc] using hproc
    obtain ⟨b, hq⟩ := he
    exact .inr (.inr (.inl ⟨b, hq, rfl⟩))
  | brelse q =>
    obtain rfl : q = p := by simpa [Event.proc] using hproc
    exact .inr (.inr (.inr he))
  | bpin b' | bunpin b' => simp [Event.proc] at hproc

theorem proc_waits (hp : s.call p = .waits b) (hproc : e.proc = some p) : e = .lock p := by
  have hcall := proc_call he hproc
  simpa [hp] using hcall

theorem proc_fills (hp : s.call p = .fills b) (hproc : e.proc = some p) : e = .fill p := by
  have hcall := proc_call he hproc
  simpa [hp] using hcall

end

theorem Holds.event (h : Holds s p b) (he : e.enabled s) (hne : e ≠ .release p b)
    (hn : next s e = .ok t) : Holds t p b := by
  rcases h with h | h
  · exact .inl ((lock_event he hn h).resolve_left hne)
  · by_cases hproc : e.proc = some p
    · obtain rfl := proc_waits he h hproc
      simp only [Bio.next, h] at hn
      cases hn
      exact .inl (by simp [State.lock, State.setBuf])
    · exact .inr ((call_event he hn hproc).trans h)

theorem Stuck.event (h : Stuck s p b) (he : e.enabled s) (hn : next s e = .ok t) : Stuck t p b := by
  obtain ⟨hcall, hlock⟩ := h
  have hproc : e.proc ≠ some p := by
    intro hproc
    obtain rfl := proc_waits he hcall hproc
    obtain ⟨b', hb', hfree⟩ := he
    obtain rfl : b = b' := by simpa [hcall] using hb'
    simp [hlock] at hfree
  refine ⟨(call_event he hn hproc).trans hcall, (lock_event he hn hlock).resolve_left ?_⟩
  rintro rfl
  exact hproc rfl

theorem Holds.of_event (h : Holds t p b) (he : e.enabled s) (hn : next s e = .ok t)
    (hne : ∀ dev n, e ≠ .bget p dev n) : Holds s p b := by
  -- the steps that keep every lock and make nobody wait
  have hkeep : (∀ b', (t.cache.buf b').lock = (s.cache.buf b').lock) → (∀ q, t.call q = .waits b → s.call q = .waits b) →
      Holds s p b := by
    intro hlock hcall
    rcases h with h | h
    · exact .inl ((hlock b).symm.trans h)
    · exact .inr (hcall p h)
  have hgoto : ∀ q q' c, c ≠ .waits b → (s.goto q c).call q' = .waits b → s.call q' = .waits b := by
    intro q q' c hc hq
    by_cases hqq : q' = q
    · subst hqq
      rw [s.goto_call_self] at hq
      exact absurd hq hc
    · rwa [s.goto_call_of_ne _ hqq] at hq
  cases next_does he hn with
  | @hit q dev n | @miss q dev n =>
    have hpq : p ≠ q := by
      rintro rfl
      exact hne dev n rfl
    rcases h with h | h
    · exact .inl ((Cache.set_field Buf.lock rfl (by rfl) b).symm.trans h)
    · exact .inr (by simpa [State.goto, State.setBuf, hpq] using h)
  | @lock q b' hq _ =>
    rcases h with h | h
    · by_cases hbb : b = b'
      · subst hbb
        obtain rfl : q = p := by simpa [State.lock, State.setBuf] using h
        exact .inr hq
      · exact .inl (by simpa [State.lock, State.setBuf, Cache.set_of_ne _ _ hbb] using h)
    · exact .inr (hgoto q p _ (by simp) h)
  | fill => exact hkeep (fun _ => rfl) fun q' hq' => hgoto _ q' _ (by simp) hq'
  | read => exact hkeep (Cache.set_field Buf.lock rfl rfl) fun q' hq' => hgoto _ q' _ (by simp) hq'
  | modify | bpin | bunpin => exact hkeep (Cache.set_field Buf.lock rfl rfl) fun _ hq => hq
  | bwrite => exact h
  | @release q b' =>
    rcases h with h | h
    · have hbb : b ≠ b' := by
        rintro rfl
        simp [State.setBuf] at h
      exact .inl (by simpa [State.setBuf, Cache.set_of_ne _ _ hbb] using h)
    · exact .inr (hgoto q p _ (by simp) h)
  | brelse =>
    refine hkeep (fun b'' => ?_) fun q' hq' => hgoto _ q' .out (by simp) (by rwa [State.brelse_call] at hq')
    rw [State.brelse_buf]
    exact Cache.set_field Buf.lock rfl (by rfl) b''

-- The pins are those that the log has made: one on the buffer of each block of P.
structure Cached [Fintype ι] (D : Nat) (s : State ι α) (P : List Nat) : Prop where
  bio : Structured s
  owned : Owned D s
  pins : ∀ b, s.pins b = if (s.cache.buf b).dev = D ∧ (s.cache.buf b).blockno ∈ P then 1 else 0
  there : ∀ n ∈ P, ∃ b, (s.cache.buf b).dev = D ∧ (s.cache.buf b).blockno = n

def Pinning : Event ι α → Prop
  | .bpin _ | .bunpin _ => True
  | _ => False

theorem pins_of_not_pinning (he : e.enabled s) (hp : ¬Pinning e) (hn : next s e = .ok t) :
    t.pins = s.pins := by
  cases next_does he hn with
  | brelse =>
    rw [State.brelse]
    split <;> rfl
  | bpin | bunpin => exact absurd trivial hp
  | hit | miss | lock | fill | read | modify | bwrite | release => rfl

variable [Fintype ι] {D : Nat} {P : List Nat}

theorem Cached.pos (h : Cached D s P) (hdev : (s.cache.buf b).dev = D) (hb : (s.cache.buf b).blockno ∈ P) :
    0 < (s.cache.buf b).refcnt :=
  h.bio.count.pos_of_pins (by rw [h.pins, if_pos ⟨hdev, hb⟩]; omega)

theorem Cached.event (h : Cached D s P) (he : e.enabled s) (hp : ¬Pinning e) (hd : OnDisk D e)
    (hn : next s e = .ok t) : Cached D t P := by
  have hmatched : Matched s e := by
    cases e with
    | bunpin b => exact absurd trivial hp
    | _ => exact trivial
  obtain ⟨xs, hxs⟩ := h.bio.order
  refine ⟨h.bio.event he hmatched hn, h.owned.event h.bio he hd hn, fun b => ?_, fun n hb => ?_⟩
  · rw [pins_of_not_pinning he hp hn]
    rcases block_cases he hn b with hsame | ⟨q, dev, n, rfl, hmiss, hfree, hnew⟩
    · obtain ⟨h1, h2⟩ := Prod.mk.inj hsame
      rw [h.pins, h1, h2]
    · -- a recycled buffer had no pin, and gets a block that was not cached
      have hzero := (hxs.unused_some hfree).1
      obtain ⟨h1, h2⟩ := Prod.mk.inj hnew
      obtain rfl : dev = D := hd
      have hnot : n ∉ P := by
        intro hmem
        obtain ⟨b', hb'⟩ := h.there n hmem
        exact hxs.cached_none.mp hmiss b' hb'
      have hpins : s.pins b = 0 := by
        have hcount := h.bio.count b
        omega
      rw [hpins, if_neg]
      rintro ⟨-, hmem⟩
      exact hnot (h2 ▸ hmem)
  · obtain ⟨b', hdev, hno⟩ := h.there n hb
    have hsame := h.bio.block_of_pos he hn (h.pos hdev (hno ▸ hb))
    obtain ⟨h1, h2⟩ := Prod.mk.inj hsame
    exact ⟨b', h1.trans hdev, h2.trans hno⟩

theorem Cached.bpin (h : Cached D s P) (hD : D ≠ 0) (hdev : (s.cache.buf b).dev = D)
    (hb : (s.cache.buf b).blockno ∉ P) : Cached D (s.bpin b) (P ++ [(s.cache.buf b).blockno]) := by
  have hset : (s.bpin b).cache = s.cache.set b { s.cache.buf b with refcnt := (s.cache.buf b).refcnt + 1 } := rfl
  have hkeep := fun b' => Cache.set_field Buf.dev hset rfl b'
  have hno := fun b' => Cache.set_field Buf.blockno hset rfl b'
  refine ⟨h.bio.bpin b, ?_, fun b' => ?_, fun n hn => ?_⟩
  · exact h.owned.congr (Cache.set_field Buf.lock hset rfl) hkeep (Cache.set_field Buf.valid hset rfl)
      (fun _ _ => Iff.rfl) (fun _ _ hq => hq)
  · rw [hkeep, hno]
    have hpins := h.pins b'
    simp only [State.bpin]
    by_cases hbb : b' = b
    · subst hbb
      rw [if_neg fun hc => hb hc.2] at hpins
      simp [hpins, hdev]
    · rw [Function.update_of_ne hbb, hpins]
      refine if_congr (and_congr_right fun hdev' => ?_) rfl rfl
      have hne : (s.cache.buf b').blockno ≠ (s.cache.buf b).blockno := by
        intro heq
        exact hbb (h.bio.unique b b' (hdev ▸ hD) (Prod.ext (hdev'.trans hdev.symm) heq))
      simp [hne]
  · rcases List.mem_append.mp hn with hn | hn
    · obtain ⟨b', h1, h2⟩ := h.there n hn
      exact ⟨b', (hkeep b').trans h1, (hno b').trans h2⟩
    · obtain rfl := List.mem_singleton.mp hn
      exact ⟨b, (hkeep b).trans hdev, hno b⟩

theorem Cached.bunpin (h : Cached D s (n :: P)) (hD : D ≠ 0) (hdev : (s.cache.buf b).dev = D)
    (hb : (s.cache.buf b).blockno = n) (hn : n ∉ P) : Cached D (s.bunpin b) P := by
  have hset : (s.bunpin b).cache = s.cache.set b { s.cache.buf b with refcnt := (s.cache.buf b).refcnt - 1 } := rfl
  have hkeep := fun b' => Cache.set_field Buf.dev hset rfl b'
  have hno := fun b' => Cache.set_field Buf.blockno hset rfl b'
  have hone : s.pins b = 1 := by rw [h.pins, if_pos ⟨hdev, by simp [hb]⟩]
  refine ⟨h.bio.bunpin (by omega), ?_, fun b' => ?_, fun m hm => ?_⟩
  · exact h.owned.congr (Cache.set_field Buf.lock hset rfl) hkeep (Cache.set_field Buf.valid hset rfl)
      (fun _ _ => Iff.rfl) (fun _ _ hq => hq)
  · rw [hkeep, hno]
    have hpins := h.pins b'
    simp only [State.bunpin]
    by_cases hbb : b' = b
    · subst hbb
      rw [Function.update_self, hone, if_neg]
      rintro ⟨-, hmem⟩
      exact hn (hb ▸ hmem)
    · rw [Function.update_of_ne hbb, hpins]
      refine if_congr (and_congr_right fun hdev' => ?_) rfl rfl
      have hne : (s.cache.buf b').blockno ≠ n := by
        intro heq
        exact hbb (h.bio.unique b b' (hdev ▸ hD) (Prod.ext (hdev'.trans hdev.symm) (heq.trans hb.symm)))
      simp [hne]
  · obtain ⟨b', h1, h2⟩ := h.there m (List.mem_cons_of_mem _ hm)
    exact ⟨b', (hkeep b').trans h1, (hno b').trans h2⟩

end Xv6.Bio
