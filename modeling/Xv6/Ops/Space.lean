import Xv6.Ops.Admission
import Mathlib.Algebra.Order.BigOperators.Group.Finset
import Mathlib.Tactic.Ring

namespace Xv6.Ops

open Lib Function Finset

variable {ι : Type} [Fintype ι] [DecidableEq ι] {size : Int} {s t : State ι} {p q : ι}

def pending (s : State ι) : Nat := ∑ p ∈ inOps s, (MAXOPBLOCKS - (s.logged p).length)

-- Room for all of it is reserved. What an operation has logged stays in the log until it ends.
structure Reserved (s : State ι) : Prop where
  kept : ∀ p, s.place p = .inOp → ∀ b ∈ s.logged p, b ∈ s.log.lh
  space : s.log.lh.length + pending s ≤ LOGSIZE

theorem pending_split (s : State ι) (h : s.place p = .inOp) :
    pending s = (MAXOPBLOCKS - (s.logged p).length) + ∑ q ∈ (inOps s).erase p, (MAXOPBLOCKS - (s.logged q).length) :=
  (add_sum_erase _ _ (mem_inOps.mpr h)).symm

omit [DecidableEq ι] in
theorem pending_le (s : State ι) : pending s ≤ (inOps s).card * MAXOPBLOCKS := by
  have h := sum_le_card_nsmul (inOps s) (fun p => MAXOPBLOCKS - (s.logged p).length) MAXOPBLOCKS
    fun _ _ => Nat.sub_le ..
  simpa [pending] using h

theorem pending_goto (s : State ι) (p : ι) (hpl : pl ≠ .inOp) : pending (s.goto p pl) ≤ pending s := by
  show ∑ q ∈ inOps (s.goto p pl), (MAXOPBLOCKS - (s.logged q).length) ≤ pending s
  rw [inOps_goto s p hpl]
  exact sum_le_sum_of_subset (erase_subset ..)

section

variable (h : Reserved s)
include h

theorem Reserved.goto (hpl : pl ≠ .inOp) : Reserved (s.goto p pl) := by
  refine ⟨fun q hq => ?_, Nat.le_trans (Nat.add_le_add_left (pending_goto s p hpl) _) h.space⟩
  by_cases hqp : q = p
  · rw [hqp, s.goto_self] at hq
    exact absurd hq hpl
  · rw [s.goto_of_ne pl hqp] at hq
    exact h.kept q hq

theorem Reserved.wakeup : Reserved s.wakeup := by
  refine ⟨fun q hq => h.kept q ((s.wakeup_eq_iff (by simp) (by simp)).mp hq), ?_⟩
  show s.log.lh.length + ∑ q ∈ inOps s.wakeup, (MAXOPBLOCKS - (s.logged q).length) ≤ LOGSIZE
  rw [inOps_wakeup]
  exact h.space

theorem Reserved.beginOp (ha : Admission s) : Reserved (s.beginOp p) := by
  cases hb : s.log.beginOp with
  | none =>
    simp only [State.beginOp, hb]
    exact h.goto (by simp)
  | some l =>
    obtain ⟨-, hfull, rfl⟩ := Log.beginOp_eq_some hb
    simp only [State.beginOp, hb]
    refine ⟨fun q hq b hb' => ?_, ?_⟩
    · have hq' : (s.goto p .inOp).place q = .inOp := hq
      by_cases hqp : q = p
      · simp [hqp] at hb'
      · rw [s.goto_of_ne _ hqp] at hq'
        simp only [update_of_ne hqp] at hb'
        exact h.kept q hq' b hb'
    · -- every operation, the new one included, is counted with all its blocks
      have hle := pending_le ({ s.goto p .inOp with
        log := { s.log with outstanding := s.log.outstanding + 1 }
        logged := update s.logged p [] } : State ι)
      have hcard : (inOps (s.goto p .inOp)).card ≤ (inOps s).card + 1 := by
        have hsub : inOps (s.goto p .inOp) ⊆ insert p (inOps s) := by
          intro q hq
          rw [mem_inOps] at hq
          by_cases hqp : q = p
          · simp [hqp]
          · rw [s.goto_of_ne _ hqp] at hq
            exact mem_insert_of_mem (mem_inOps.mpr hq)
        exact Nat.le_trans (card_le_card hsub) (card_insert_le ..)
      have hcount := ha.count
      have hops : inOps ({ s.goto p .inOp with
        log := { s.log with outstanding := s.log.outstanding + 1 }
        logged := update s.logged p [] } : State ι) = inOps (s.goto p .inOp) := rfl
      rw [hops] at hle
      simp only [Log.Full, LOGSIZE_eq, MAXOPBLOCKS] at *
      omega

theorem Reserved.logWrite (hp : s.place p = .inOp) (hf : Frugal s (.logWrite p b))
    (hok : s.logWrite size p b = .ok t) : Reserved t := by
  obtain ⟨new, l, hl, rfl⟩ := State.logWrite_eq_ok hok
  obtain ⟨-, -, -, hcases⟩ := Log.logWrite_cases hl
  -- what the operation has logged grows by b, if it has not logged it before
  obtain ⟨logged, hlogged, hother, hself⟩ : ∃ logged,
      (if b ∈ s.logged p then s.logged else update s.logged p (s.logged p ++ [b])) = logged ∧
      (∀ q, q ≠ p → logged q = s.logged q) ∧ (logged p = s.logged p ∨ logged p = s.logged p ++ [b]) := by
    by_cases hb : b ∈ s.logged p
    · exact ⟨_, if_pos hb, fun _ _ => rfl, .inl rfl⟩
    · exact ⟨_, if_neg hb, fun q hq => update_of_ne hq .., .inr (update_self ..)⟩
  rw [hlogged]
  have hlh : b ∈ l.lh ∧ ∀ c ∈ s.log.lh, c ∈ l.lh := by
    rcases hcases with ⟨hb, -, rfl⟩ | ⟨-, -, rfl⟩
    · exact ⟨hb, fun _ hc => hc⟩
    · exact ⟨by simp, fun c hc => by simp [hc]⟩
  refine ⟨fun q hq c hc => ?_, ?_⟩
  · have hc' : c ∈ s.logged q ∨ c = b := by
      by_cases hqp : q = p
      · subst hqp
        rcases hself with heq | heq <;> simp_all
      · exact .inl (hother q hqp ▸ hc)
    rcases hc' with hc | rfl
    · exact hlh.2 c (h.kept q hq c hc)
    · exact hlh.1
  · have hspace := h.space
    rw [pending_split s hp] at hspace
    have hafter : pending { s with log := l, logged := logged } = (MAXOPBLOCKS - (logged p).length) +
        ∑ q ∈ (inOps s).erase p, (MAXOPBLOCKS - (s.logged q).length) := by
      refine (pending_split { s with log := l, logged := logged } hp).trans (congrArg _ (sum_congr rfl ?_))
      exact fun q hq => by simp only [hother q (ne_of_mem_erase hq)]
    show l.lh.length + pending _ ≤ LOGSIZE
    rw [hafter]
    have hlen : (s.logged p).length ≤ (logged p).length := by
      rcases hself with heq | heq <;> simp [heq]
    rcases hcases with ⟨-, -, rfl⟩ | ⟨hnew, -, rfl⟩
    · omega
    · -- a block that is new in the log is new for the operation, which has room for it
      have hfresh : b ∉ s.logged p := fun hc => hnew (h.kept p hp b hc)
      have hroom : (s.logged p).length < MAXOPBLOCKS := hf.resolve_left hfresh
      rw [if_neg hfresh] at hlogged
      simp only [← hlogged, update_self, List.length_append, List.length_singleton]
      omega

theorem Reserved.endOp (ha : Admission s) (hp : s.place p = .inOp) (hok : s.endOp p = .ok t) : Reserved t := by
  rcases ha.endOp_eq hp with ⟨-, heq⟩ | ⟨-, heq⟩
  · cases heq.symm.trans hok
    have hgoto : Reserved (s.goto p (if s.log.lh = [] then .finish else .writeLog 0)) := h.goto (by split <;> simp)
    exact ⟨hgoto.kept, hgoto.space⟩
  · cases heq.symm.trans hok
    have hgoto : Reserved (s.wakeup.goto p .out) := h.wakeup.goto (by simp)
    exact ⟨hgoto.kept, hgoto.space⟩

theorem Reserved.commit (ha : Admission s) (hp : (s.place p).commits = true) : Reserved (s.commit p) := by
  have hnone : ∀ q, s.place q ≠ .inOp := by
    intro q hq
    have hcom := ha.not_committing hq
    have := ha.mode.mpr ⟨p, hp⟩
    simp [hcom] at this
  cases hpl : s.place p with
  | out | begins | asleep | inOp => simp [hpl, Place.commits] at hp
  | writeLog tail | install tail =>
    simp only [State.commit, hpl]
    split <;> exact h.goto (by simp)
  | writeHead =>
    simp only [State.commit, hpl]
    exact h.goto (by simp)
  | erase =>
    simp only [State.commit, hpl]
    have hlog : Reserved ({ s with log := s.log.clear } : State ι) :=
      ⟨fun q hq => absurd hq (hnone q), Nat.le_trans (Nat.add_le_add_right (Nat.zero_le _) _) h.space⟩
    exact hlog.goto (by simp)
  | finish =>
    simp only [State.commit, hpl]
    have hgoto : Reserved (s.wakeup.goto p .out) := h.wakeup.goto (by simp)
    exact ⟨hgoto.kept, hgoto.space⟩

theorem Reserved.next (ha : Admission s) (he : e.enabled s) (hf : Frugal s e)
    (hok : next size s e = .ok t) : Reserved t := by
  cases e with
  | call p | kill p =>
    cases hok
    exact h.goto (by simp)
  | begin p =>
    cases hok
    exact h.beginOp ha
  | logWrite p b => exact h.logWrite he hf hok
  | endOp p => exact h.endOp ha he hok
  | commit p =>
    cases hok
    exact h.commit ha he

end

theorem reserved_inv (h : Reach Start (Step size Frugal) s) : Reserved s := by
  induction h with
  | @start s h =>
    obtain ⟨hlog, hplace⟩ := h
    refine ⟨fun q hq => by simp [hplace q] at hq, ?_⟩
    have hle := pending_le s
    have hops : inOps s = ∅ := by
      ext q
      simp [mem_inOps, hplace q]
    rw [hops, card_empty, Nat.zero_mul] at hle
    rw [hlog, List.length_nil]
    omega
  | step h hs ih =>
    obtain ⟨e, he, hf, hok⟩ := hs
    exact ih.next (admission_inv h) he hf hok

-- log_write() tests the limit before it looks for the block in the log: with all operations
-- within their share it stops the system exactly when the log is full and has the block.
theorem too_big_iff (hsize : size - 1 ≥ LOGSIZE) (h : Reach Start (Step size Frugal) s) {b : Nat}
    (hp : s.place p = .inOp) (hf : Frugal s (.logWrite p b)) :
    s.logWrite size p b = .error .tooBig ↔ s.log.lh.length = LOGSIZE ∧ b ∈ s.log.lh := by
  have hres := reserved_inv h
  have hspace := hres.space
  rw [pending_split s hp] at hspace
  have hbind : s.logWrite size p b = .error .tooBig ↔ s.log.logWrite size b = .error .tooBig := by
    rw [State.logWrite, bind_eq_error]
    constructor
    · rintro (herr | ⟨a, -, herr⟩)
      · exact herr
      · simp at herr
    · exact .inl
  rw [hbind]
  constructor
  · intro herr
    have hbig : (s.log.lh.length : Int) ≥ LOGSIZE := by
      revert herr
      fun_cases Log.logWrite size b s.log <;> simp
      omega
    refine ⟨by omega, ?_⟩
    by_contra hnew
    have hfresh : b ∉ s.logged p := fun hc => hnew (hres.kept p hp b hc)
    have hroom : (s.logged p).length < MAXOPBLOCKS := hf.resolve_left hfresh
    omega
  · rintro ⟨hlen, -⟩
    rw [Log.logWrite, if_pos (.inl (by omega))]

theorem too_big_iff_first_write : ∃ s : State (Fin 4), s.place 0 = .inOp ∧
    (s.logWrite 31 0 7 = .error .tooBig ↔ s.log.lh.length = LOGSIZE ∧ 7 ∈ s.log.lh) := by
  obtain ⟨s, hs, hplace, hf⟩ : ∃ s, sampleOps Frugal [.call 0, .begin 0] = some s ∧ s.place 0 = .inOp ∧
      Frugal s (.logWrite 0 7) :=
    exists_of_any (by decide +kernel)
  exact ⟨s, hplace, too_big_iff (by decide) (sampleOps_reach hs) hplace hf⟩

def fillLog : List (Event (Fin 4)) :=
  [.call 0, .begin 0, .call 1, .begin 1, .call 2, .begin 2] ++
    (List.range 30).map fun b => .logWrite (Fin.ofNat 4 (b / 10)) b

-- They have filled the log, and the first one logs its block 0 once more.
theorem full_log_rewrite_panics : ∃ s : State (Fin 4), Reach Start (Step 31 Frugal) s ∧
    s.place 0 = .inOp ∧ 0 ∈ s.logged 0 ∧ (∀ p, (s.logged p).length ≤ MAXOPBLOCKS) ∧
    next 31 s (.logWrite 0 0) = .error .tooBig := by
  obtain ⟨s, hs, hplace, hmem, hlen, herr⟩ : ∃ s, sampleOps Frugal fillLog = some s ∧ s.place 0 = .inOp ∧
      0 ∈ s.logged 0 ∧ (∀ p, (s.logged p).length ≤ MAXOPBLOCKS) ∧ failure (s.logWrite 31 0 0) = some .tooBig :=
    exists_of_any (by decide +kernel)
  exact ⟨s, sampleOps_reach hs, hplace, hmem, hlen, failure_eq_some.mp herr⟩

end Xv6.Ops
