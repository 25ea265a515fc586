import Xv6.Pipe
import Xv6.Lib.Queue

namespace Xv6.Pipe

open Lib List

-- The pipe holds the bytes `buf`, which were stored and not taken yet. nread and nwrite
-- count the bytes of the history, modulo 2^32.
structure Holds (pi : Pipe) (stored taken buf : List Byte) : Prop where
  split : stored = taken ++ buf
  size : buf.length ≤ PIPESIZE
  nread : pi.nread = wrapU32 taken.length
  nwrite : pi.nwrite = wrapU32 stored.length
  data : ∀ (k : Nat) (hk : k < buf.length), pi.data (Fin.ofNat PIPESIZE (taken.length + k)) = buf[k]

variable {pi : Pipe} {stored taken buf : List Byte}

namespace Holds

theorem iff_queue : Holds pi stored taken buf ↔ Queue PIPESIZE (2 ^ 32) pi.data pi.nread pi.nwrite stored taken buf :=
  ⟨fun ⟨h1, h2, h3, h4, h5⟩ => ⟨h1, h2, h3, h4, h5⟩, fun ⟨h1, h2, h3, h4, h5⟩ => ⟨h1, h2, h3, h4, h5⟩⟩

section

variable (h : Holds pi stored taken buf)
include h

theorem distance : (pi.nwrite + 2 ^ 32 - pi.nread) % 2 ^ 32 = buf.length :=
  (iff_queue.mp h).distance (by decide)

theorem empty_iff : pi.empty ↔ buf = [] := (iff_queue.mp h).empty_iff (by decide)

theorem full_iff : pi.full ↔ buf.length = PIPESIZE := (iff_queue.mp h).full_iff (by decide)

theorem put (hfull : ¬pi.full) (ch : Byte) : Holds (pi.put ch) (stored ++ [ch]) taken (buf ++ [ch]) :=
  iff_queue.mpr ((iff_queue.mp h).put (by decide) (mt h.full_iff.mpr hfull) ch)

end

theorem drop (h : Holds pi stored taken (b :: rest)) :
    pi.next = b ∧ Holds pi.drop stored (taken ++ [b]) rest := by
  obtain ⟨hb, hrest⟩ := (iff_queue.mp h).take (by decide)
  exact ⟨hb, iff_queue.mpr hrest⟩

theorem close (h : Holds pi stored taken buf) (writable : Bool) : Holds (pi.close writable) stored taken buf := by
  unfold Pipe.close
  split <;> exact ⟨h.split, h.size, h.nread, h.nwrite, h.data⟩

end Holds

def Fact (pi : Pipe) (taken : List Byte) : Pc → Prop
  | .copy bytes _ => bytes <:+ taken ∧ (bytes = [] → pi.empty → pi.writeopen = false)
  | .readEnd bytes n => bytes <:+ taken ∧ (bytes = [] → 0 < n → pi.empty ∧ pi.writeopen = false)
  | .readExit r bytes n =>
    r = -1 ∨ r = bytes.length ∧ bytes <:+ taken ∧ (bytes = [] → 0 < n → pi.empty ∧ pi.writeopen = false)
  | _ => True

theorem Fact.of_unlocked (h : pc.locked = false) (pi : Pipe) (taken : List Byte) : Fact pi taken pc := by
  cases pc with
  | copy bytes n | readEnd bytes n | readExit r bytes n => simp [Pc.locked] at h
  | _ => trivial

variable {ι : Type} [DecidableEq ι] {s : State ι} {p q : ι}

structure Fifo (s : State ι) : Prop where
  holds : ∃ buf, Holds s.pipe s.stored s.taken buf
  fact : ∀ p, Fact s.pipe s.taken (s.pc p)

-- The user's buffers are valid: no copy fails.
def Valid : Event ι → Prop
  | .step _ copy => copy.isSome
  | _ => True

theorem Fifo.step (h : Fifo s) (hok : LockOk s) (hready : s.ready p) (ch : Byte) : Fifo (s.step p (some ch)) := by
  obtain ⟨buf, hb⟩ := h.holds
  have hself : (∃ buf, Holds (s.step p (some ch)).pipe (s.step p (some ch)).stored (s.step p (some ch)).taken buf) ∧
      Fact (s.step p (some ch)).pipe (s.step p (some ch)).taken ((s.step p (some ch)).pc p) := by
    have hp := h.fact p
    cases hpc : s.pc p with
    | out => exact absurd hpc hready.1
    | writeCall n | readCall n | closeCall w | writeFull i n | writeSleep i n | writeEnd i | writeExit r | readSleep n
    | readExit r bytes n | closeWake w =>
      simp only [State.step, hpc, goto_self]
      exact ⟨⟨buf, hb⟩, trivial⟩
    | write i n =>
      simp only [State.step, hpc]
      split_ifs with h1 h2 h3
      · exact ⟨⟨buf, hb⟩, by rw [goto_self]; trivial⟩
      · exact ⟨⟨buf, hb⟩, by rw [goto_self]; trivial⟩
      · exact ⟨⟨_, hb.put h3 ch⟩, by rw [goto_self]; trivial⟩
      · exact ⟨⟨buf, hb⟩, by rw [goto_self]; trivial⟩
    | read n =>
      simp only [State.step, hpc]
      split_ifs with h1 h2
      · exact ⟨⟨buf, hb⟩, by rw [goto_self]; exact .inl rfl⟩
      · exact ⟨⟨buf, hb⟩, by rw [goto_self]; trivial⟩
      · refine ⟨⟨buf, hb⟩, ?_⟩
        rw [goto_self]
        refine ⟨nil_suffix, fun _ he => ?_⟩
        show s.pipe.writeopen = false
        by_contra hw
        exact h1 ⟨he, by simpa using hw⟩
    | copy bytes n =>
      rw [hpc] at hp
      obtain ⟨hsuf, hzero⟩ := hp
      simp only [State.step, hpc]
      split_ifs with h1 h2
      · refine ⟨⟨buf, hb⟩, ?_⟩
        rw [goto_self]
        exact ⟨hsuf, fun hnil _ => ⟨h2, hzero hnil h2⟩⟩
      · -- one byte is taken
        cases buf with
        | nil => exact absurd (hb.empty_iff.mpr rfl) h2
        | cons b rest =>
          obtain ⟨hnext, hdrop⟩ := hb.drop
          obtain ⟨before, hbefore⟩ := hsuf
          rw [hnext]
          refine ⟨⟨rest, hdrop⟩, ?_⟩
          rw [goto_self]
          exact ⟨⟨before, by rw [← append_assoc, hbefore]; rfl⟩, by simp⟩
      · refine ⟨⟨buf, hb⟩, ?_⟩
        rw [goto_self]
        refine ⟨hsuf, fun hnil hn => ?_⟩
        simp only [hnil, length_nil] at h1
        omega
    | readEnd bytes n =>
      rw [hpc] at hp
      simp only [State.step, hpc, goto_self]
      exact ⟨⟨buf, hb⟩, .inr ⟨rfl, hp⟩⟩
    | closeStore w =>
      simp only [State.step, hpc, goto_self]
      exact ⟨⟨buf, hb.close w⟩, trivial⟩
    | closeEnd =>
      simp only [State.step, hpc]
      split_ifs
      · exact ⟨⟨buf, hb⟩, by rw [goto_self]; trivial⟩
      · exact ⟨⟨buf, hb⟩, by rw [goto_self]; trivial⟩
  refine ⟨hself.1, fun q => ?_⟩
  by_cases hq : q = p
  · subst hq
    exact hself.2
  · -- another process has the lock, or knows nothing
    rw [step_pc_of_ne hq]
    by_cases hl : (s.pc q).locked = true
    · have hp : (s.pc p).locked = false := by
        by_contra hp
        have h1 := (hok q).mpr hl
        have h2 := (hok p).mpr (by simpa using hp)
        exact hq (Option.some.inj (h1.symm.trans h2))
      obtain ⟨hpipe, -, htaken⟩ := step_unlocked hp (some ch)
      rw [hpipe, htaken]
      exact h.fact q
    · exact .of_unlocked (by simpa using hl) _ _

theorem Fifo.next (h : Fifo s) (hok : LockOk s) (he : e.enabled s) (hv : Valid e) : Fifo (s.next e) := by
  cases e with
  | kill p => exact ⟨h.holds, h.fact⟩
  | call p c =>
    refine ⟨h.holds, fun q => ?_⟩
    by_cases hq : q = p
    · subst hq
      simp only [State.next, goto_self]
      cases c <;> trivial
    · rw [State.next, goto_of_ne hq]
      exact h.fact q
  | step p copy =>
    obtain ⟨ch, rfl⟩ := Option.isSome_iff_exists.mp hv
    exact h.step hok he.2 ch

omit [DecidableEq ι] in
theorem Start.fifo (h : Start s) : Fifo s := by
  obtain ⟨hr, hw, -, -, -, -, hp, hs, ht⟩ := h
  refine ⟨⟨[], by simp [hs, ht], by simp, by simp [hr, ht, wrapU32], by simp [hw, hs, wrapU32], by simp⟩, fun p => ?_⟩
  rw [(hp p).1]
  trivial

theorem fifo_reach (h : Reach Start (Step fun _ e => Valid e) s) : Fifo s := by
  refine h.invariant (I := Fifo) (fun s hs => hs.fifo) fun s t hr hi hs => ?_
  obtain ⟨e, he, hv, rfl⟩ := hs
  exact hi.next (lockOk_reach hr) he hv

instance Valid.decidable : ∀ e : Event (Fin 2), Decidable (Valid e)
  | .step _ copy => inferInstanceAs (Decidable (copy.isSome = true))
  | .call _ _ | .kill _ => inferInstanceAs (Decidable True)

-- The first process writes two bytes, of which the second reads one.
def sampleTransfer : List (Event (Fin 2)) :=
  [.call 0 (.pipewrite 2), .step 0 (some 0), .step 0 (some 7), .step 0 (some 8), .step 0 (some 0), .step 0 (some 0),
    .step 0 (some 0), .call 1 (.piperead 1), .step 1 (some 0), .step 1 (some 0), .step 1 (some 0)]

-- The pipe is a FIFO channel of bytes.
theorem pipe_is_fifo (h : Reach Start (Step fun _ e => Valid e) s) :
    (s.pipe.nwrite + 2 ^ 32 - s.pipe.nread) % 2 ^ 32 ≤ PIPESIZE ∧ s.taken <+: s.stored ∧
    (∃ buf, s.stored = s.taken ++ buf ∧ buf.length = (s.pipe.nwrite + 2 ^ 32 - s.pipe.nread) % 2 ^ 32 ∧
      ∀ (k : Nat) (hk : k < buf.length), s.pipe.data (Fin.ofNat PIPESIZE (s.pipe.nread + k)) = buf[k]) ∧
    ∀ p r bytes n, s.pc p = .readExit r bytes n → r ≠ -1 →
      r = bytes.length ∧ bytes <:+ s.taken ∧ (0 < n → r = 0 → s.pipe.writeopen = false ∧ s.taken = s.stored) := by
  have hf := fifo_reach h
  obtain ⟨buf, hb⟩ := hf.holds
  refine ⟨hb.distance ▸ hb.size, ⟨buf, hb.split.symm⟩, ⟨buf, hb.split, hb.distance.symm, fun k hk => ?_⟩,
    fun p r bytes n hpc hr => ?_⟩
  · have hplace : Fin.ofNat PIPESIZE (s.pipe.nread + k) = Fin.ofNat PIPESIZE (s.taken.length + k) := by
      apply Fin.ext
      simp only [hb.nread, Fin.val_ofNat, wrapU32, PIPESIZE]
      omega
    rw [hplace]
    exact hb.data k hk
  · have hfact := hf.fact p
    rw [hpc] at hfact
    rcases hfact with hm | ⟨hlen, hsuf, hzero⟩
    · exact absurd hm hr
    · refine ⟨hlen, hsuf, fun hn h0 => ?_⟩
      have hnil : bytes = [] := length_eq_zero_iff.mp (by omega)
      obtain ⟨hempty, hclosed⟩ := hzero hnil hn
      refine ⟨hclosed, ?_⟩
      rw [hb.split, hb.empty_iff.mp hempty, append_nil]

theorem pipe_is_fifo_two : ∃ s : State (Fin 2), s.taken = [7] ∧ s.stored = [7, 8] ∧ s.taken <+: s.stored := by
  have hrun : Admits (fun s e => e.enabled s ∧ Valid e) State.next samplePipe sampleTransfer ∧
      (sampleTransfer.foldl State.next samplePipe).taken = [7] ∧
      (sampleTransfer.foldl State.next samplePipe).stored = [7, 8] := by
    decide +kernel
  obtain ⟨hadmits, htaken, hstored⟩ := hrun
  have hreach : Reach Start (Step fun _ e => Valid e) (sampleTransfer.foldl State.next samplePipe) :=
    Reach.foldl (fun s e he => ⟨e, he.1, he.2, rfl⟩) (.start samplePipe_start) hadmits
  exact ⟨_, htaken, hstored, (pipe_is_fifo hreach).2.1⟩

end Xv6.Pipe
