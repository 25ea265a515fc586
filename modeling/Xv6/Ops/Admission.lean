import Xv6.Ops

set_option linter.unusedSectionVars false

namespace Xv6.Ops

open Lib Finset

variable {ι : Type} [DecidableEq ι] {size : Int} {s t : State ι} {p q : ι}

theorem State.goto_self (s : State ι) (p : ι) (pl : Place) : (s.goto p pl).place p = pl := Function.update_self ..

theorem State.goto_of_ne (s : State ι) (pl : Place) (h : q ≠ p) : (s.goto p pl).place q = s.place q :=
  Function.update_of_ne h ..

section

omit [DecidableEq ι]

theorem State.wakeup_eq_iff (s : State ι) (h : pl ≠ .begins) (h' : pl ≠ .asleep) :
    s.wakeup.place p = pl ↔ s.place p = pl := by
  simp only [State.wakeup]
  split
  next hs => simp [hs, Ne.symm h, Ne.symm h']
  next => rfl

theorem State.wakeup_ne_asleep (s : State ι) (p : ι) : s.wakeup.place p ≠ .asleep := by
  simp only [State.wakeup]
  split
  next => simp
  next hs => exact hs

theorem State.wakeup_commits (s : State ι) (p : ι) : (s.wakeup.place p).commits = (s.place p).commits := by
  simp only [State.wakeup]
  split
  next hs => simp [hs, Place.commits]
  next => rfl

end

-- The last section of an end_op() leaves nobody asleep, and nobody in commit() if nobody else was.
theorem State.leave_ne_asleep (s : State ι) (p q : ι) : (s.wakeup.goto p .out).place q ≠ .asleep := by
  by_cases hqp : q = p
  · simp [hqp, State.goto_self]
  · rw [State.goto_of_ne _ _ hqp]
    exact s.wakeup_ne_asleep q

theorem State.leave_commits (s : State ι) (h : ∀ q, q ≠ p → (s.place q).commits = false) (q : ι) :
    ((s.wakeup.goto p .out).place q).commits = false := by
  by_cases hqp : q = p
  · rw [hqp, State.goto_self]
    rfl
  · rw [State.goto_of_ne _ _ hqp, s.wakeup_commits, h q hqp]

theorem Log.logWrite_cases {l l' : Log} {b : Nat} {new : Bool} (h : l.logWrite size b = .ok (new, l')) :
    (l.lh.length : Int) < LOGSIZE ∧ (l.lh.length : Int) < size - 1 ∧ 1 ≤ l.outstanding ∧
    (b ∈ l.lh ∧ new = false ∧ l' = l ∨ b ∉ l.lh ∧ new = true ∧ l' = { l with lh := l.lh ++ [b] }) := by
  revert h
  fun_cases Log.logWrite size b l <;> intro h <;> cases h
  · next hbig hout hb => exact ⟨by omega, by omega, by omega, .inl ⟨hb, rfl, rfl⟩⟩
  · next hbig hout hb => exact ⟨by omega, by omega, by omega, .inr ⟨hb, rfl, rfl⟩⟩

-- begin_op() that does not go to sleep.
theorem Log.beginOp_eq_some {l l' : Log} (h : l.beginOp = some l') :
    l.committing = false ∧ ¬l.Full ∧ l' = { l with outstanding := l.outstanding + 1 } := by
  revert h
  fun_cases Log.beginOp l <;> intro h <;> cases h
  next hcom hfull => exact ⟨by simpa using hcom, hfull, rfl⟩

theorem Log.beginOp_eq_none {l : Log} (h : l.beginOp = none) : l.committing = true ∨ l.Full := by
  revert h
  fun_cases Log.beginOp l <;> intro h
  · next hcom => exact .inl hcom
  · next hfull => exact .inr hfull
  · cases h

theorem State.logWrite_eq_ok (h : s.logWrite size p b = .ok t) :
    ∃ new l, s.log.logWrite size b = .ok (new, l) ∧ t = { s with
      log := l
      logged := if b ∈ s.logged p then s.logged else Function.update s.logged p (s.logged p ++ [b]) } := by
  obtain ⟨⟨new, l⟩, hl, ht⟩ := bind_eq_ok.mp h
  rw [return_eq_ok] at ht
  exact ⟨new, l, hl, ht.symm⟩

theorem State.beginOp_frame (s : State ι) (p : ι) :
    (s.beginOp p).log.lh = s.log.lh ∧ (s.beginOp p).log.committing = s.log.committing ∧
    ((s.beginOp p).place p).commits = false ∧ ∀ q, q ≠ p → (s.beginOp p).place q = s.place q := by
  rw [State.beginOp]
  split
  next l hl =>
    obtain ⟨-, -, rfl⟩ := Log.beginOp_eq_some hl
    exact ⟨rfl, rfl, by simp only [s.goto_self]; rfl, fun q hq => s.goto_of_ne _ hq⟩
  next => exact ⟨rfl, rfl, by rw [s.goto_self]; rfl, fun q hq => s.goto_of_ne _ hq⟩

theorem Log.Full.append {l : Log} (h : l.Full) (bs : List Nat) : Log.Full { l with lh := l.lh ++ bs } := by
  simp only [Log.Full, List.length_append] at *
  omega

variable [Fintype ι]

def inOps (s : State ι) : Finset ι := Finset.univ.filter fun p => s.place p = .inOp

theorem mem_inOps : p ∈ inOps s ↔ s.place p = .inOp := by simp [inOps]

theorem inOps_goto (s : State ι) (p : ι) (hpl : pl ≠ .inOp) :
    inOps (s.goto p pl) = (inOps s).erase p := by
  ext q
  rw [mem_inOps, mem_erase, mem_inOps]
  by_cases hq : q = p
  · subst hq
    simp [s.goto_self, hpl]
  · simp [s.goto_of_ne pl hq, hq]

theorem inOps_wakeup (s : State ι) : inOps s.wakeup = inOps s := by
  ext q
  rw [mem_inOps, mem_inOps, s.wakeup_eq_iff (by simp) (by simp)]

structure Admission (s : State ι) : Prop where
  count : s.log.outstanding = (inOps s).card
  mode : s.log.committing = true ↔ ∃ p, (s.place p).commits = true
  solo : ∀ p q, (s.place p).commits = true → (s.place q).commits = true → p = q
  alone : s.log.committing = true → s.log.outstanding = 0
  empty : s.log.committing = false → s.log.outstanding = 0 → s.log.lh = []
  finish : ∀ p, s.place p = .finish → s.log.lh = []
  sleeper : ∀ p, s.place p = .asleep → s.log.committing = true ∨ s.log.Full

-- While nobody commits.
theorem Admission.quiet (hcount : s.log.outstanding = (inOps s).card) (hcom : s.log.committing = false)
    (hcommits : ∀ p, (s.place p).commits = false) (hempty : s.log.outstanding = 0 → s.log.lh = [])
    (hsleeper : ∀ p, s.place p = .asleep → s.log.Full) : Admission s := by
  refine ⟨hcount, by simp [hcom, hcommits], fun p q hp => ?_, by simp [hcom], fun _ => hempty, fun p hp => ?_,
    fun p hp => .inr (hsleeper p hp)⟩
  · simp [hcommits] at hp
  · have hc := hcommits p
    simp [hp, Place.commits] at hc

section

variable (h : Admission s)
include h

theorem Admission.pos (hp : s.place p = .inOp) : 1 ≤ s.log.outstanding := by
  have hcard := card_pos.mpr ⟨p, mem_inOps.mpr hp⟩
  rw [h.count]
  omega

theorem Admission.not_committing (hp : s.place p = .inOp) : s.log.committing = false := by
  by_contra hc
  have hzero := h.alone (by simpa using hc)
  have hpos := h.pos hp
  omega

theorem Admission.not_commits (hcom : s.log.committing = false) (q : ι) : (s.place q).commits = false := by
  by_contra hq
  have := h.mode.mpr ⟨q, by simpa using hq⟩
  simp [hcom] at this

theorem Admission.goto (hin : s.place p ≠ .inOp) (hpl : pl ≠ .inOp)
    (hcom : pl.commits = (s.place p).commits) (hfin : pl = .finish → s.log.lh = [])
    (hsleep : pl = .asleep → s.log.committing = true ∨ s.log.Full) : Admission (s.goto p pl) := by
  have hcommits : ∀ q, ((s.goto p pl).place q).commits = (s.place q).commits := by
    intro q
    by_cases hq : q = p
    · rw [hq, s.goto_self, hcom]
    · rw [s.goto_of_ne pl hq]
  have hops : inOps (s.goto p pl) = inOps s := by
    rw [inOps_goto s p hpl, erase_eq_of_notMem]
    simpa [mem_inOps] using hin
  refine ⟨by rw [hops]; exact h.count, ?_, fun q r hq hr => ?_, h.alone, h.empty, fun q hq => ?_, fun q hq => ?_⟩
  · simp only [hcommits]
    exact h.mode
  · rw [hcommits] at hq hr
    exact h.solo q r hq hr
  · by_cases hqp : q = p
    · rw [hqp, s.goto_self] at hq
      exact hfin hq
    · rw [s.goto_of_ne pl hqp] at hq
      exact h.finish q hq
  · by_cases hqp : q = p
    · rw [hqp, s.goto_self] at hq
      exact hsleep hq
    · rw [s.goto_of_ne pl hqp] at hq
      exact h.sleeper q hq

theorem Admission.beginOp (hp : s.place p = .begins) : Admission (s.beginOp p) := by
  rw [State.beginOp]
  split
  next l hl =>
    obtain ⟨hcom, hfull, rfl⟩ := Log.beginOp_eq_some hl
    have hops : inOps (s.goto p .inOp) = insert p (inOps s) := by
      ext q
      rw [mem_inOps, mem_insert, mem_inOps]
      by_cases hq : q = p
      · simp [hq, s.goto_self]
      · simp [s.goto_of_ne _ hq, hq]
    have hnot : p ∉ inOps s := by simp [mem_inOps, hp]
    refine .quiet ?_ hcom (fun q => ?_) (fun hz => ?_) fun q hq => ?_
    · show s.log.outstanding + 1 = (inOps (s.goto p .inOp)).card
      rw [hops, card_insert_of_notMem hnot, h.count]
      omega
    · by_cases hq : q = p
      · simp only [hq, s.goto_self]
        rfl
      · simp only [s.goto_of_ne _ hq]
        exact h.not_commits hcom q
    · have hz' : s.log.outstanding + 1 = 0 := hz
      have := h.count
      omega
    · -- with room and no commit under way nobody is asleep
      by_cases hqp : q = p
      · simp [hqp, s.goto_self] at hq
      · simp only [s.goto_of_ne _ hqp] at hq
        rcases h.sleeper q hq with hc | hf
        · simp [hcom] at hc
        · exact absurd hf hfull
  next hnone =>
    exact h.goto (by simp [hp]) (by simp) (by simp [hp, Place.commits]) (by simp) fun _ => Log.beginOp_eq_none hnone

theorem Admission.logWrite {b : Nat} (hp : s.place p = .inOp) (hok : s.logWrite size p b = .ok t) : Admission t := by
  obtain ⟨new, l, hl, rfl⟩ := State.logWrite_eq_ok hok
  obtain ⟨-, -, -, ⟨-, -, rfl⟩ | ⟨-, -, rfl⟩⟩ := Log.logWrite_cases hl
  · exact ⟨h.count, h.mode, h.solo, h.alone, h.empty, h.finish, h.sleeper⟩
  · have hpos := h.pos hp
    have hcom := h.not_committing hp
    refine ⟨h.count, h.mode, h.solo, h.alone, fun _ hz => ?_, fun q hq => ?_, fun q hq => ?_⟩
    · have hz' : s.log.outstanding = 0 := hz
      omega
    · have hq' : s.place q = .finish := hq
      have := h.mode.mpr ⟨q, by rw [hq']; rfl⟩
      simp [hcom] at this
    · rcases h.sleeper q hq with hc | hf
      · exact .inl hc
      · exact .inr (hf.append [b])

theorem Admission.endOp_eq (hp : s.place p = .inOp) :
    (s.log.outstanding = 1 ∧ s.endOp p = .ok { s.goto p (if s.log.lh = [] then .finish else .writeLog 0) with
      log := { s.log with outstanding := 0, committing := true } }) ∨
    (1 < s.log.outstanding ∧ s.endOp p = .ok { s.wakeup.goto p .out with
      log := { s.log with outstanding := s.log.outstanding - 1 } }) := by
  have hpos := h.pos hp
  have hcom := h.not_committing hp
  by_cases hone : s.log.outstanding = 1
  · refine .inl ⟨hone, ?_⟩
    simp [State.endOp, Log.endOp, hcom, hone]
  · have hne : s.log.outstanding - 1 ≠ 0 := by omega
    refine .inr ⟨by omega, ?_⟩
    simp [State.endOp, Log.endOp, hcom, hne]

theorem Admission.endOp (hp : s.place p = .inOp) (hok : s.endOp p = .ok t) : Admission t := by
  have hcom := h.not_committing hp
  have hmem := mem_inOps.mpr hp
  have hnocommit := h.not_commits hcom
  rcases h.endOp_eq hp with ⟨hone, heq⟩ | ⟨hmore, heq⟩
  · cases heq.symm.trans hok
    generalize hpl : (if s.log.lh = [] then Place.finish else .writeLog 0) = pl
    have hcommits : pl.commits = true := by
      rw [← hpl]
      split <;> rfl
    have hcard := card_erase_of_mem hmem
    have hcount := h.count
    have honly : ∀ q, ((s.goto p pl).place q).commits = true → q = p := by
      intro q hq
      by_contra hne
      rw [s.goto_of_ne pl hne, hnocommit q] at hq
      simp at hq
    refine ⟨?_, ?_, fun q r hq hr => ?_, fun _ => rfl, fun hc => by simp at hc, fun q hq => ?_, fun q _ => .inl rfl⟩
    · show (0 : Int) = (inOps (s.goto p pl)).card
      rw [inOps_goto s p (by rintro rfl; simp [Place.commits] at hcommits), hcard]
      omega
    · exact iff_of_true rfl ⟨p, by show ((s.goto p pl).place p).commits = true; rw [s.goto_self, hcommits]⟩
    · rw [honly q hq, honly r hr]
    · have hq' : (s.goto p pl).place q = .finish := hq
      have hqp := honly q (by rw [hq']; rfl)
      rw [hqp, s.goto_self, ← hpl] at hq'
      show s.log.lh = []
      by_contra hne
      simp [hne] at hq'
  · cases heq.symm.trans hok
    have hcard := card_erase_of_mem hmem
    have hcount := h.count
    refine .quiet ?_ hcom (s.leave_commits fun q _ => hnocommit q) (fun hz => ?_)
      fun q hq => absurd hq (s.leave_ne_asleep p q)
    · show s.log.outstanding - 1 = (inOps (s.wakeup.goto p .out)).card
      rw [inOps_goto _ p (by simp), inOps_wakeup, hcard]
      omega
    · have hz' : s.log.outstanding - 1 = 0 := hz
      omega

theorem Admission.commit (hp : (s.place p).commits = true) : Admission (s.commit p) := by
  have hcom : s.log.committing = true := h.mode.mpr ⟨p, hp⟩
  have hzero := h.alone hcom
  have hin : s.place p ≠ .inOp := by
    intro hin
    simp [hin, Place.commits] at hp
  cases hpl : s.place p with
  | out | begins | asleep | inOp => simp [hpl, Place.commits] at hp
  | writeLog tail =>
    simp only [State.commit, hpl]
    split <;> exact h.goto hin (by simp) (by simp [hpl, Place.commits]) (by simp) (by simp)
  | writeHead =>
    simp only [State.commit, hpl]
    exact h.goto hin (by simp) (by simp [hpl, Place.commits]) (by simp) (by simp)
  | install tail =>
    simp only [State.commit, hpl]
    split <;> exact h.goto hin (by simp) (by simp [hpl, Place.commits]) (by simp) (by simp)
  | erase =>
    simp only [State.commit, hpl]
    -- the same place as after a step that leaves the log alone
    have hlog : Admission ({ s with log := s.log.clear } : State ι) :=
      ⟨h.count, h.mode, h.solo, h.alone, fun _ _ => rfl, fun _ _ => rfl, fun q _ => .inl hcom⟩
    exact hlog.goto hin (by simp) (by simp [hpl, Place.commits]) (fun _ => rfl) (by simp)
  | finish =>
    simp only [State.commit, hpl]
    have hempty := h.finish p hpl
    have hnot : p ∉ inOps s := by simp [mem_inOps, hpl]
    refine .quiet ?_ rfl (s.leave_commits fun q hq => ?_) (fun _ => hempty)
      fun q hq => absurd hq (s.leave_ne_asleep p q)
    · show s.log.outstanding = (inOps (s.wakeup.goto p .out)).card
      rw [inOps_goto _ p (by simp), inOps_wakeup, erase_eq_of_notMem hnot]
      exact h.count
    · by_contra hc
      exact hq (h.solo q p (by simpa using hc) hp)

theorem Admission.next (he : e.enabled s) (hok : next size s e = .ok t) : Admission t := by
  cases e with
  | call p =>
    have hp : s.place p = .out := he
    cases hok
    exact h.goto (by simp [hp]) (by simp) (by simp [hp, Place.commits]) (by simp) (by simp)
  | begin p =>
    cases hok
    exact h.beginOp he
  | kill p =>
    have hp : s.place p = .asleep := he
    cases hok
    exact h.goto (by simp [hp]) (by simp) (by simp [hp, Place.commits]) (by simp) (by simp)
  | logWrite p b => exact h.logWrite he hok
  | endOp p => exact h.endOp he hok
  | commit p =>
    cases hok
    exact h.commit he

end

theorem Start.admission (h : Start s) : Admission s := by
  obtain ⟨hlog, hplace⟩ := h
  have hops : inOps s = ∅ := by
    ext q
    simp [mem_inOps, hplace q]
  exact .quiet (by simp [hlog, hops]) (by rw [hlog]) (fun q => by rw [hplace q]; rfl) (fun _ => by rw [hlog])
    fun q hq => by simp [hplace q] at hq

theorem admission_inv (h : Reach Start (Step size allowed) s) :
    Admission s := by
  induction h with
  | start h => exact h.admission
  | step _ hs ih =>
    obtain ⟨e, he, -, hok⟩ := hs
    exact ih.next he hok

-- What holds whenever log.lock is free. The steps that may take away the reason of a process to
-- sleep in begin_op() wake every sleeper.
theorem admission_safe (h : Reach Start (Step size fun _ _ => True) s) :
    0 ≤ s.log.outstanding ∧
    (s.log.committing = true → s.log.outstanding = 0 ∧ ∀ p, s.place p ≠ .inOp) ∧
    (∀ p q, (s.place p).commits = true → (s.place q).commits = true → p = q) ∧
    ((∃ p, (s.place p).commits = true) ↔ s.log.committing = true) ∧
    (s.log.outstanding = 0 → s.log.committing = false → s.log.lh = []) ∧
    (∀ p, s.place p = .asleep →
      (s.log.committing = true ∨ (s.log.lh.length : Int) + (s.log.outstanding + 1) * MAXOPBLOCKS > LOGSIZE) ∧
      ∃ q, q ≠ p ∧ (s.place q = .inOp ∨ (s.place q).commits = true)) ∧
    (∀ p, s.place p = .inOp → ∃ t, s.endOp p = .ok t ∧
      (t.log.committing = true ∨ ∀ q, t.place q ≠ .asleep)) ∧
    (∀ p, s.place p = .finish → ∀ q, (s.commit p).place q ≠ .asleep) ∧
    ∀ p b, s.place p = .inOp → s.logWrite size p b ≠ .error .outside := by
  have hinv := admission_inv h
  refine ⟨by rw [hinv.count]; omega, fun hcom => ⟨hinv.alone hcom, fun p hp => ?_⟩, hinv.solo, hinv.mode.symm,
    fun hz hcom => hinv.empty hcom hz, fun p hp => ⟨hinv.sleeper p hp, ?_⟩, fun p hp => ?_, fun p hp q => ?_,
    fun p b hp => ?_⟩
  · have := hinv.not_committing hp
    simp [hcom] at this
  · by_cases hcom : s.log.committing = true
    · obtain ⟨q, hq⟩ := hinv.mode.mp hcom
      refine ⟨q, ?_, .inr hq⟩
      rintro rfl
      simp [hp, Place.commits] at hq
    · -- without a commit the log is empty unless some operation is open
      have hfull := (hinv.sleeper p hp).resolve_left hcom
      have hout : s.log.outstanding ≠ 0 := by
        intro hz
        have hlh := hinv.empty (by simpa using hcom) hz
        simp only [Log.Full, hz, hlh, List.length_nil, LOGSIZE_eq, MAXOPBLOCKS] at hfull
        omega
      have hpos : 0 < (inOps s).card := by
        have := hinv.count
        omega
      obtain ⟨q, hq⟩ := card_pos.mp hpos
      refine ⟨q, ?_, .inl (mem_inOps.mp hq)⟩
      rintro rfl
      simp [mem_inOps, hp] at hq
  · rcases hinv.endOp_eq hp with ⟨-, heq⟩ | ⟨-, heq⟩
    · exact ⟨_, heq, .inl rfl⟩
    · exact ⟨_, heq, .inr (s.leave_ne_asleep p)⟩
  · simp only [State.commit, hp]
    exact s.leave_ne_asleep p q
  · have hpos := hinv.pos hp
    intro herr
    simp only [State.logWrite, bind_eq_error, pure_eq_ok] at herr
    rcases herr with herr | ⟨a, -, herr⟩
    · revert herr
      fun_cases Log.logWrite size b s.log <;> simp
      omega
    · simp at herr

def sampleOps (allowed : State (Fin 4) → Event (Fin 4) → Prop) [∀ s e, Decidable (allowed s e)]
    (events : List (Event (Fin 4))) : Option (State (Fin 4)) :=
  runs (fun s e => e.enabled s ∧ allowed s e) (next 31)
    { log := { outstanding := 0, committing := false, lh := [] }, place := fun _ => .out, logged := fun _ => [] } events

theorem sampleOps_reach [∀ s e, Decidable (allowed s e)] {s : State (Fin 4)} (h : sampleOps allowed events = some s) :
    Reach Start (Step 31 allowed) s :=
  Reach.runs (fun e _ _ _ hen hn => ⟨e, hen.1, hen.2, hn⟩) (.start ⟨rfl, fun _ => rfl⟩) h

theorem admission_safe_fourth_asleep : ∃ s : State (Fin 4), s.place 3 = .asleep ∧
    ∃ q, q ≠ 3 ∧ (s.place q = .inOp ∨ (s.place q).commits = true) := by
  obtain ⟨s, hs, hplace⟩ : ∃ s, (sampleOps (fun _ _ => True)
      [.call 0, .begin 0, .call 1, .begin 1, .call 2, .begin 2, .call 3, .begin 3]) = some s ∧ s.place 3 = .asleep :=
    exists_of_any (by decide +kernel)
  have hsafe := admission_safe (sampleOps_reach hs)
  exact ⟨s, hplace, (hsafe.2.2.2.2.2.1 3 hplace).2⟩

end Xv6.Ops
