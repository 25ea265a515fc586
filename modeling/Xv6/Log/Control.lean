import Xv6.Log

namespace Xv6.Log

open Function

variable {ι : Type}

namespace State

variable {g : Geometry} (s : State ι) (p : ι) (b : BlockNo) (d : Block)

def withUpdate (o : Nat) : State ι :=
  { s with
    issued := s.issued ++ [⟨o, b, d⟩]
    current := s.current ++ [⟨o, b, d⟩] }

theorem record_of_op (h : s.op p = some o) : s.record p b d = s.withUpdate b d o := by
  simp [record, withUpdate, h]

theorem logWrite_cases (h : s.op p = some o) :
    s.logWrite g p b = { s with pc := .panicked } ∨
    (b ∈ s.lh ∧ s.logWrite g p b = s.withUpdate b (s.data b) o) ∨
    (b ∉ s.lh ∧ s.lh.length < LOGSIZE ∧ s.lh.length + 1 < g.nlog ∧
      s.logWrite g p b = { (s.withUpdate b (s.data b) o).bpin b with lh := s.lh ++ [b] }) := by
  by_cases hbig : LOGSIZE ≤ s.lh.length ∨ g.nlog ≤ s.lh.length + 1
  · simp [logWrite, hbig]
  by_cases hout : s.outstanding < 1
  · simp [logWrite, hbig, hout]
  obtain ⟨hsize, hlog⟩ := not_or.mp hbig
  right
  by_cases hb : b ∈ s.lh
  · exact .inl ⟨hb, by simp [logWrite, hbig, hout, s.record_of_op p b _ h, withUpdate, hb]⟩
  · refine .inr ⟨hb, Nat.lt_of_not_le hsize, Nat.lt_of_not_le hlog, ?_⟩
    simp [logWrite, hbig, hout, s.record_of_op p b _ h, withUpdate, hb]

theorem modify_cases (h : s.op p = some o) :
    (b ∈ s.lh ∧ s.modify p b d = { s.withUpdate b d o with
      cache := update s.cache b (some d) }) ∨
    (b ∉ s.lh ∧ s.modify p b d = { s with cache := update s.cache b (some d) }) := by
  by_cases hb : b ∈ s.lh
  · exact .inl ⟨hb, by simp [modify, hb, s.record_of_op p b d h, withUpdate]⟩
  · exact .inr ⟨hb, by simp [modify, hb]⟩

theorem endOp_cases [DecidableEq ι] (hcom : s.committing = false) :
    (s.outstanding - 1 = 0 ∧ s.endOp p = { s with
      outstanding := s.outstanding - 1
      op := update s.op p none
      committing := true
      pc := if s.lh = [] then .finish else .writeLog 0 }) ∨
    (s.outstanding - 1 ≠ 0 ∧ s.endOp p = { s with
      outstanding := s.outstanding - 1
      op := update s.op p none }) := by
  by_cases hlast : s.outstanding - 1 = 0
  · exact .inl ⟨hlast, by simp [endOp, hcom, hlast]⟩
  · exact .inr ⟨hlast, by simp [endOp, hcom, hlast]⟩

end State

def Pc.commits : Pc → Bool
  | .writeLog _ | .writeHead | .install _ | .clear | .finish => true
  | _ => false

def inOps [Fintype ι] (s : State ι) : Finset ι := Finset.univ.filter fun p => (s.op p).isSome

variable [Fintype ι] {s t : State ι} {p : ι}

theorem mem_inOps : p ∈ inOps s ↔ s.op p ≠ none := by
  simp [inOps, Option.isSome_iff_ne_none]

-- Who may be where: no operation is open while the log commits or recovers.
structure Control (s : State ι) : Prop where
  quiet : s.pc ≠ .idle → s.pc ≠ .panicked → ∀ p, s.op p = none
  mode : s.pc ≠ .panicked → s.committing = s.pc.commits
  count : s.pc ≠ .panicked → s.outstanding = (inOps s).card

theorem Control.idle_of_op (h : Control s) (hrun : s.pc.running = true)
    (hop : s.op p ≠ none) : s.pc = .idle := by
  by_contra hn
  have hpanic : s.pc ≠ .panicked := by
    intro hp
    simp [hp, Pc.running] at hrun
  exact hop (h.quiet hn hpanic p)

theorem Control.congr (h : Control s) (hpc : t.pc = s.pc) (hop : t.op = s.op)
    (hout : t.outstanding = s.outstanding) (hcom : t.committing = s.committing) : Control t where
  quiet := by
    rw [hpc, hop]
    exact h.quiet
  mode := by
    rw [hpc, hcom]
    exact h.mode
  count := by
    have hin : inOps t = inOps s := by simp [inOps, hop]
    rw [hpc, hout, hin]
    exact h.count

theorem Control.goto (h : Control s) (hidle : s.pc ≠ .idle)
    (hpanic : s.pc ≠ .panicked) (hop : t.op = s.op) (hout : t.outstanding = s.outstanding)
    (hcom : t.committing = t.pc.commits) : Control t where
  quiet := by
    intro _ _ p
    rw [hop]
    exact h.quiet hidle hpanic p
  mode := fun _ => hcom
  count := by
    intro _
    have hin : inOps t = inOps s := by simp [inOps, hop]
    rw [hout, hin]
    exact h.count hpanic

theorem Control.beginOp [DecidableEq ι] (h : Control s) (hidle : s.pc = .idle)
    (hop : s.op p = none) : Control (s.beginOp p) where
  quiet := fun hn _ => absurd hidle hn
  mode := h.mode
  count := by
    intro _
    have hin : inOps (s.beginOp p) = insert p (inOps s) := by
      ext q
      by_cases hq : q = p
      · subst hq
        simp [mem_inOps, State.beginOp]
      · simp [mem_inOps, State.beginOp, hq]
    have hnot : p ∉ inOps s := by simp [mem_inOps, hop]
    have hcount := h.count (by simp [hidle])
    rw [hin, Finset.card_insert_of_notMem hnot]
    simp only [State.beginOp, hcount]
    omega

theorem inOps_erase [DecidableEq ι] (s : State ι) (p : ι) :
    inOps { s with op := update s.op p none } = (inOps s).erase p := by
  ext q
  by_cases hq : q = p
  · subst hq
    simp [mem_inOps]
  · simp [mem_inOps, hq]

theorem Control.not_committing (h : Control s) (hidle : s.pc = .idle) :
    s.committing = false := by
  rw [h.mode (by simp [hidle]), hidle]
  rfl

theorem Control.endOp [DecidableEq ι] (h : Control s) (hidle : s.pc = .idle)
    (hop : s.op p ≠ none) : Control (s.endOp p) := by
  have hmem : p ∈ inOps s := mem_inOps.mpr hop
  have hpos : 0 < (inOps s).card := Finset.card_pos.mpr ⟨p, hmem⟩
  have hin := inOps_erase s p
  have hcount : s.outstanding - 1 = ((inOps s).erase p).card := by
    rw [Finset.card_erase_of_mem hmem, h.count (by simp [hidle])]
    omega
  rcases s.endOp_cases p (h.not_committing hidle) with ⟨hlast, heq⟩ | ⟨-, heq⟩
  · rw [heq]
    have hempty : (inOps s).erase p = ∅ := by
      rw [← Finset.card_eq_zero]
      omega
    have hnone : ∀ q, update s.op p none q = none := by
      intro q
      by_contra hq
      have hq' : q ∈ inOps { s with op := update s.op p none } := mem_inOps.mpr hq
      rw [hin, hempty] at hq'
      simp at hq'
    have hpc : (if s.lh = [] then Pc.finish else .writeLog 0).commits = true := by
      split_ifs <;> rfl
    refine ⟨fun _ _ => hnone, fun _ => hpc.symm, fun _ => ?_⟩
    simp only [inOps] at hin ⊢
    rw [hin, ← inOps, hcount]
  · rw [heq]
    refine ⟨fun hn => absurd hidle hn, h.mode, fun _ => ?_⟩
    simp only [inOps] at hin ⊢
    rw [hin, ← inOps, hcount]

theorem control_panicked (h : s.pc = .panicked) : Control s where
  quiet := fun _ hn => absurd h hn
  mode := fun hn => absurd h hn
  count := fun hn => absurd h hn

theorem Control.logWrite (h : Control s) (hop : s.op p = some o)
    (b : BlockNo) : Control (s.logWrite g p b) := by
  rcases s.logWrite_cases p b hop with heq | ⟨-, heq⟩ | ⟨-, -, -, heq⟩
  · rw [heq]
    exact control_panicked rfl
  · rw [heq]
    exact h.congr rfl rfl rfl rfl
  · rw [heq]
    exact h.congr rfl rfl rfl rfl

theorem Control.modify (h : Control s) (hop : s.op p = some o)
    (b : BlockNo) (d : Block) : Control (s.modify p b d) := by
  rcases s.modify_cases p b d hop with ⟨-, heq⟩ | ⟨-, heq⟩
  · rw [heq]
    exact h.congr rfl rfl rfl rfl
  · rw [heq]
    exact h.congr rfl rfl rfl rfl

theorem Control.commit (h : Control s) : Control (s.commit g) := by
  have hmode := h.mode
  fun_cases State.commit g s
  case case7 hpc => exact h.goto (by simp [hpc]) (by simp [hpc]) rfl rfl rfl
  case case8 => exact h
  all_goals
    rw [‹s.pc = _›] at hmode
    exact h.goto (by simp [*]) (by simp [*]) rfl rfl (hmode (by simp))

theorem Control.recover (h : Control s) : Control (s.recover g) := by
  have hmode := h.mode
  fun_cases State.recover g s
  case case5 => exact h
  all_goals
    rw [‹s.pc = _›] at hmode
    exact h.goto (by simp [*]) (by simp [*]) rfl rfl (hmode (by simp))

theorem control_boot (hpc : s.pc = .readHead) (hop : ∀ p, s.op p = none)
    (hout : s.outstanding = 0) (hcom : s.committing = false) : Control s where
  quiet := fun _ _ => hop
  mode := fun _ => by rw [hcom, hpc]; rfl
  count := fun _ => by simp [inOps, hop, hout]

theorem Control.next [DecidableEq ι] (h : Control s) (he : Enabled g s e) :
    Control (next g s e) := by
  cases e with
  | beginOp p =>
    obtain ⟨hrun, hop, hcom, -⟩ := he
    have hidle : s.pc = .idle := by
      cases hpc : s.pc with
      | idle => rfl
      | readHead | recoverInstall _ | recoverClear | panicked => simp [hpc, Pc.running] at hrun
      | writeLog _ | writeHead | install _ | clear | finish =>
        have hmode := h.mode (by simp [hpc])
        simp [hcom, hpc, Pc.commits] at hmode
    exact h.beginOp hidle hop
  | bread p b | brelse p b | evict b => exact h.congr rfl rfl rfl rfl
  | modify p b d =>
    obtain ⟨o, hop⟩ := Option.ne_none_iff_exists'.mp he.2.1
    exact h.modify hop b d
  | logWrite p b =>
    obtain ⟨o, hop⟩ := Option.ne_none_iff_exists'.mp he.2.1
    exact h.logWrite hop b
  | endOp p => exact h.endOp (h.idle_of_op he.1 he.2) he.2
  | commit => exact h.commit
  | recover => exact h.recover
  | crash => exact control_boot rfl (fun _ => rfl) rfl rfl

end Xv6.Log
