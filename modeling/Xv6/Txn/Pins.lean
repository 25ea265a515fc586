import Xv6.Bio.Holding
import Xv6.Ops.Admission
import Xv6.Txn

set_option linter.unusedSectionVars false

namespace Xv6.Txn

open Lib Bio Fs Function List

-- The statements that are left use the local variable r.
def needs : List Instr → Reg → Bool
  | [], _ => false
  | .bread r' _ :: rest, r => r ≠ r' && needs rest r
  | .toLog :: _, _ | .toHome :: _, _ => true
  | .head :: rest, r => r = .log || needs rest r
  | .bwrite r' :: rest, r | .brelse r' :: rest, r => r = r' || needs rest r
  | .bunpin :: rest, r => r = .home || needs rest r

def target (A : Area) (lh : List Nat) : Ops.Place → Reg → Nat
  | .writeLog tail, .log | .install tail, .log => A.start + tail + 1
  | .writeLog tail, .home | .install tail, .home => lh[tail]?.getD 0
  | _, _ => A.start

-- The points that commit() comes through, with what is left of the statements there and how
-- many of the logged blocks are unpinned.
inductive Along (A : Area) (lh : List Nat) : Nat → Ops.Place → List Instr → Prop
  | writeLog {tail n : Nat} {sc : List Instr} (hn : lh[tail]? = some n) (hsc : sc <:+ writeLog A tail n) :
      Along A lh 0 (.writeLog tail) sc
  | logged {tail : Nat} (hn : lh[tail]? = none) : Along A lh 0 (.writeLog tail) []
  | writeHead {sc : List Instr} (hsc : sc <:+ writeHead A) : Along A lh 0 .writeHead sc
  | install {tail n : Nat} {sc : List Instr} (hn : lh[tail]? = some n) (hsc : sc <:+ installTrans A tail n) :
      Along A lh (if .bunpin ∈ sc then tail else tail + 1) (.install tail) sc
  | installed {tail : Nat} (hn : lh[tail]? = none) : Along A lh lh.length (.install tail) []
  | erase : Along A lh lh.length .erase []
  | finish {sc : List Instr} (hsc : sc <:+ writeHead A) (hlh : lh = []) : Along A lh 0 .finish sc

-- What the next statement is, point by point.
inductive Next (A : Area) (lh : List Nat) (u : Nat) (pl : Ops.Place) (rest : List Instr) : Instr → Prop
  | bread (n : Nat) (hn : n = target A lh pl .log) (hfree : ∀ r, needs (.bread .log n :: rest) r = false) :
      Next A lh u pl rest (.bread .log n)
  | home (n : Nat) (hn : n = target A lh pl .home) (hmem : n ∈ lh.drop u) (hlog : needs rest .log = true) :
      Next A lh u pl rest (.bread .home n)
  | toLog (tail : Nat) (hpl : pl = .writeLog tail) (hrest : rest = [.bwrite .log, .brelse .home, .brelse .log]) :
      Next A lh u pl rest .toLog
  | toHome (tail : Nat) (hpl : pl = .install tail)
      (hrest : rest = [.bwrite .home, .bunpin, .brelse .log, .brelse .home]) : Next A lh u pl rest .toHome
  | head (hpl : pl = .writeHead ∨ pl = .finish) (hrest : rest = [.bwrite .log, .brelse .log]) :
      Next A lh u pl rest .head
  | bwrite (r : Reg) (hne : r = .home → ∃ tail, pl = .install tail) : Next A lh u pl rest (.bwrite r)
  | bunpin (tail n : Nat) (hpl : pl = .install tail) (hu : u = tail) (hn : lh[tail]? = some n)
      (hrest : rest = [.brelse .log, .brelse .home]) : Next A lh u pl rest .bunpin
  | brelse (r : Reg) (hr : needs rest r = false) : Next A lh u pl rest (.brelse r)

theorem Along.next_head (h : Along A lh 0 pl rest) (hsc : i :: rest <:+ Txn.writeHead A)
    (hpl : pl = .writeHead ∨ pl = .finish) :
    Next A lh 0 pl rest i ∧ Along A lh (if i = .bunpin then 0 + 1 else 0) pl rest := by
  have htarget : A.start = target A lh pl .log := by rcases hpl with rfl | rfl <;> rfl
  simp only [Txn.writeHead, suffix_cons_iff, suffix_nil, List.cons.injEq, reduceCtorEq, or_false] at hsc
  rcases hsc with ⟨rfl, rfl⟩ | ⟨rfl, rfl⟩ | ⟨rfl, rfl⟩ | ⟨rfl, rfl⟩
  · exact ⟨.bread _ htarget (by intro r; cases r <;> rfl), h⟩
  · exact ⟨.head hpl rfl, h⟩
  · exact ⟨.bwrite _ (by simp), h⟩
  · exact ⟨.brelse _ rfl, h⟩

theorem Along.next (h : Along A lh u pl (i :: rest)) :
    Next A lh u pl rest i ∧ Along A lh (if i = .bunpin then u + 1 else u) pl rest := by
  cases h with
  | @writeLog tail n sc hn hsc =>
    have hrest : rest <:+ Txn.writeLog A tail n := (suffix_cons i rest).trans hsc
    have hmem : n ∈ lh.drop 0 := by simpa using mem_of_getElem? hn
    have hhome : target A lh (.writeLog tail) .home = n := by simp [target, hn]
    have halong := Along.writeLog hn hrest
    simp only [Txn.writeLog, suffix_cons_iff, suffix_nil, List.cons.injEq, reduceCtorEq, or_false] at hsc
    rcases hsc with ⟨rfl, rfl⟩ | ⟨rfl, rfl⟩ | ⟨rfl, rfl⟩ | ⟨rfl, rfl⟩ | ⟨rfl, rfl⟩ | ⟨rfl, rfl⟩
    · exact ⟨.bread _ rfl (by intro r; cases r <;> rfl), halong⟩
    · exact ⟨.home _ hhome.symm hmem rfl, halong⟩
    · exact ⟨.toLog tail rfl rfl, halong⟩
    · exact ⟨.bwrite _ (by simp), halong⟩
    · exact ⟨.brelse _ rfl, halong⟩
    · exact ⟨.brelse _ rfl, halong⟩
  | writeHead hsc => exact next_head (.writeHead ((suffix_cons i rest).trans hsc)) hsc (.inl rfl)
  | @install tail n sc hn hsc =>
    have hrest : rest <:+ installTrans A tail n := (suffix_cons i rest).trans hsc
    have hhome : target A lh (.install tail) .home = n := by simp [target, hn]
    obtain ⟨hlt, hget⟩ := List.getElem?_eq_some_iff.mp hn
    have hmem : n ∈ lh.drop tail := by
      rw [drop_eq_getElem_cons hlt, hget]
      simp
    have halong := Along.install hn hrest
    simp only [installTrans, suffix_cons_iff, suffix_nil, List.cons.injEq, reduceCtorEq, or_false] at hsc
    rcases hsc with ⟨rfl, rfl⟩ | ⟨rfl, rfl⟩ | ⟨rfl, rfl⟩ | ⟨rfl, rfl⟩ | ⟨rfl, rfl⟩ | ⟨rfl, rfl⟩ | ⟨rfl, rfl⟩
    · exact ⟨.bread _ rfl (by intro r; cases r <;> rfl), by simpa using halong⟩
    · exact ⟨.home _ hhome.symm (by simpa using hmem) rfl, by simpa using halong⟩
    · exact ⟨.toHome tail rfl rfl, by simpa using halong⟩
    · exact ⟨.bwrite _ fun _ => ⟨tail, rfl⟩, by simpa using halong⟩
    · exact ⟨.bunpin tail n rfl (by simp) hn rfl, by simpa using halong⟩
    · exact ⟨.brelse _ rfl, by simpa using halong⟩
    · exact ⟨.brelse _ rfl, by simpa using halong⟩
  | finish hsc hlh => exact next_head (.finish ((suffix_cons i rest).trans hsc) hlh) hsc (.inr rfl)

variable {ι : Type} [DecidableEq ι] [Fintype ι] {A : Area} {s t : State ι} {p q : ι}

omit [Fintype ι] in
theorem State.client_eq (h : s.client e = .ok t) :
    Bio.next s.bio e = .ok t.bio ∧ t.ops = s.ops ∧ t.script = s.script ∧ t.reg = s.reg ∧ t.unpinned = s.unpinned := by
  have hbio : (do
      let bio ← (Bio.next s.bio e).mapError Panic.bio
      return ({ s with bio := bio } : State ι)) = .ok t →
      Bio.next s.bio e = .ok t.bio ∧ t.ops = s.ops ∧ t.script = s.script ∧ t.reg = s.reg ∧ t.unpinned = s.unpinned := by
    intro h
    obtain ⟨bio, hb, rfl⟩ := bind_return_eq_ok.mp h
    exact ⟨mapError_eq_ok.mp hb, rfl, rfl, rfl, rfl⟩
  cases e with
  | modify q b v =>
    cases h
    exact ⟨rfl, rfl, rfl, rfl, rfl⟩
  | bwrite q b =>
    obtain ⟨bio, hb, rfl⟩ := bind_return_eq_ok.mp h
    exact ⟨mapError_eq_ok.mp hb, rfl, rfl, rfl, rfl⟩
  | bget q dev n | lock q | fill q | release q b | brelse q | bpin b | bunpin b => exact hbio h

-- What a statement of commit() asks of bio.c.
def Instr.event (A : Area) (s : State ι) (p : ι) : Instr → Bio.Event ι Block
  | .bread _ n => .bget p A.dev n
  | .toLog => .modify p (s.reg p .log) (s.buf (s.reg p .home)).data
  | .toHome => .modify p (s.reg p .home) (s.buf (s.reg p .log)).data
  | .head => .modify p (s.reg p .log) (putHead s.ops.log.lh (s.buf (s.reg p .log)).data)
  | .bwrite r => .bwrite p (s.reg p r)
  | .bunpin => .bunpin (s.reg p .home)
  | .brelse r => .release p (s.reg p r)

theorem Instr.event_proc (h : (Instr.event A s p i).proc = some q) : q = p := by
  cases i <;> simp_all [Instr.event, Bio.Event.proc]

theorem State.instr_eq (hsc : s.script p = i :: rest) (hn : s.instr A p = .ok t) :
    Bio.next s.bio (i.event A s p) = .ok t.bio ∧ t.ops = s.ops ∧ t.script p = rest ∧
    ((∀ r n, i ≠ .bread r n) → t.reg = s.reg) ∧ t.unpinned = (if i = .bunpin then s.unpinned + 1 else s.unpinned) ∧
    ∀ n, t.latest n = s.latest n ∨ (i = .toLog ∨ i = .head) ∧ n = (s.buf (s.reg p .log)).blockno := by
  simp only [State.instr, hsc] at hn
  cases i with
  | bread r n =>
    obtain ⟨⟨b, c⟩, -, hn⟩ := bind_eq_ok.mp hn
    obtain ⟨bio, hbio, rfl⟩ := bind_return_eq_ok.mp hn
    exact ⟨mapError_eq_ok.mp hbio, rfl, update_self .., fun hi => absurd rfl (hi r n), rfl, fun _ => .inl rfl⟩
  | toLog | head =>
    cases hn
    refine ⟨rfl, rfl, update_self .., fun _ => rfl, rfl, fun n => ?_⟩
    by_cases hnb : n = (s.buf (s.reg p .log)).blockno
    · exact .inr ⟨by simp, hnb⟩
    · exact .inl (update_of_ne hnb ..)
  | toHome | bunpin =>
    cases hn
    exact ⟨rfl, rfl, update_self .., fun _ => rfl, rfl, fun _ => .inl rfl⟩
  | bwrite r | brelse r =>
    obtain ⟨bio, hbio, rfl⟩ := bind_return_eq_ok.mp hn
    exact ⟨mapError_eq_ok.mp hbio, rfl, update_self .., fun _ => rfl, rfl, fun _ => .inl rfl⟩

-- The log, the pins and the local variables of commit() fit together.
structure Regular (A : Area) (s : State ι) : Prop where
  cached : Cached A.dev s.bio s.pinned
  ops : Ops.Admission s.ops
  nodup : s.ops.log.lh.Nodup
  idle : s.ops.log.committing = false → s.unpinned = 0
  along : ∀ p, (s.ops.place p).commits = true →
    Along A s.ops.log.lh s.unpinned (s.ops.place p) (s.script p)
  regs : ∀ p, (s.ops.place p).commits = true → ∀ r, needs (s.script p) r = true →
    Holds s.bio p (s.reg p r) ∧ (s.buf (s.reg p r)).block = (A.dev, target A s.ops.log.lh (s.ops.place p) r)
  apart : ∀ p, (s.ops.place p).commits = true → needs (s.script p) .log = true → needs (s.script p) .home = true →
    s.reg p .log = s.reg p .home → Stuck s.bio p (s.reg p .home)

section

variable (h : Regular A s)
include h

theorem Regular.committing (hp : (s.ops.place p).commits = true) : s.ops.log.committing = true :=
  h.ops.mode.mpr ⟨p, hp⟩

theorem Regular.not_commits (hc : s.ops.log.committing = false) (p : ι) : (s.ops.place p).commits = false := by
  by_contra hp
  have := h.committing (p := p) (by simpa using hp)
  simp [hc] at this

theorem Regular.bioStep (he : e.enabled s.bio) (hpin : ¬Pinning e) (hd : OnDisk A.dev e)
    (hn : Bio.next s.bio e = .ok t.bio) (hops : t.ops = s.ops) (hscript : t.script = s.script)
    (hreg : t.reg = s.reg) (hunp : t.unpinned = s.unpinned)
    (hrel : ∀ p b, (s.ops.place p).commits = true → e ≠ .release p b) : Regular A t := by
  have hpinned : t.pinned = s.pinned := by rw [State.pinned, State.pinned, hops, hunp]
  refine ⟨hpinned ▸ h.cached.event he hpin hd hn, hops ▸ h.ops, hops ▸ h.nodup, ?_, ?_, ?_, ?_⟩
  · rw [hops, hunp]
    exact h.idle
  · rw [hops, hunp, hscript]
    exact h.along
  · rw [hops, hscript, hreg]
    intro p hp r hr
    obtain ⟨hholds, hblock⟩ := h.regs p hp r hr
    exact ⟨hholds.event he (hrel p _ hp) hn,
      (h.cached.bio.block_of_pos he hn (hholds.pos h.cached.bio)).trans hblock⟩
  · rw [hops, hscript, hreg]
    intro p hp h1 h2 heq
    exact (h.apart p hp h1 h2 heq).event he hn

theorem Regular.client (he : e.enabled s.bio) (ha : Asks s e) (ho : Orderly A s (.client e))
    (hn : s.client e = .ok t) : Regular A t := by
  obtain ⟨hbio, hops, hscript, hreg, hunp⟩ := State.client_eq hn
  refine h.bioStep he ?_ ?_ hbio hops hscript hreg hunp ?_
  · cases e with
    | bpin b | bunpin b => exact ha.elim
    | _ => exact id
  · cases e with
    | bget q dev n => exact ho
    | _ => exact trivial
  · rintro q b hq rfl
    have hplace : s.ops.place q = .out ∨ s.ops.place q = .inOp := ha
    rcases hplace with hpl | hpl <;> simp [hpl, Ops.Place.commits] at hq

theorem Regular.logWrite (hA : A.dev ≠ 0) (hp : s.ops.place p = .inOp) (hb : (s.buf b).lock = some p)
    (hn : s.logWrite A p b = .ok t) : Regular A t := by
  obtain ⟨⟨new, l⟩, hnew, hn⟩ := bind_eq_ok.mp hn
  obtain ⟨ops, hops, rfl⟩ := bind_return_eq_ok.mp hn
  rw [mapError_eq_ok] at hnew hops
  have hadm := h.ops.logWrite hp hops
  have hcom := h.ops.not_committing hp
  have hzero := h.idle hcom
  obtain ⟨new', l', hl', rfl⟩ := Ops.State.logWrite_eq_ok hops
  cases hnew.symm.trans hl'
  have hquiet : ∀ q, ¬(s.ops.place q).commits = true := fun q => by simp [h.not_commits hcom q]
  have hpinned : s.pinned = s.ops.log.lh := by rw [State.pinned, hzero, drop_zero]
  obtain ⟨-, -, -, ⟨-, rfl, rfl⟩ | ⟨hnot, rfl, rfl⟩⟩ := Ops.Log.logWrite_cases hnew
  · exact ⟨h.cached, hadm, h.nodup, fun _ => hzero, fun q hq => absurd hq (hquiet q),
      fun q hq => absurd hq (hquiet q), fun q hq => absurd hq (hquiet q)⟩
  · refine ⟨?_, hadm, ?_, fun _ => hzero, fun q hq => absurd hq (hquiet q), fun q hq => absurd hq (hquiet q),
      fun q hq => absurd hq (hquiet q)⟩
    · have hcached := h.cached.bpin hA (h.cached.owned.dev p b hb) (by rw [hpinned]; exact hnot)
      rw [hpinned] at hcached
      simp only [if_true, State.pinned, hzero, drop_zero]
      exact hcached
    · exact nodup_append.mpr ⟨h.nodup, by simp, fun x hx y hy => by
        rintro rfl
        exact hnot (mem_singleton.mp hy ▸ hx)⟩

theorem Regular.quiet (hbio : t.bio = s.bio) (hreg : t.reg = s.reg) (hunp : t.unpinned = s.unpinned)
    (hlh : t.ops.log.lh = s.ops.log.lh) (hops : Ops.Admission t.ops)
    (hidle : t.ops.log.committing = false → t.unpinned = 0)
    (hplace : ∀ q, (t.ops.place q).commits = true → t.ops.place q = s.ops.place q ∧ t.script q = s.script q) :
    Regular A t := by
  have hpinned : t.pinned = s.pinned := by rw [State.pinned, State.pinned, hlh, hunp]
  have hbuf : t.buf = s.buf := by
    funext b
    simp only [State.buf, hbio]
  refine ⟨by rw [hbio, hpinned]; exact h.cached, hops, by rw [hlh]; exact h.nodup, hidle, fun q hq => ?_,
    fun q hq => ?_, fun q hq => ?_⟩
  · obtain ⟨hpl, hsc⟩ := hplace q hq
    rw [hpl] at hq
    rw [hlh, hunp, hpl, hsc]
    exact h.along q hq
  · obtain ⟨hpl, hsc⟩ := hplace q hq
    rw [hpl] at hq
    rw [hlh, hpl, hsc, hreg, hbio, hbuf]
    exact h.regs q hq
  · obtain ⟨hpl, hsc⟩ := hplace q hq
    rw [hpl] at hq
    rw [hsc, hreg, hbio]
    exact h.apart q hq

theorem Regular.turn (hbio : t.bio = s.bio) (hpinned : t.pinned = s.pinned) (hnodup : t.ops.log.lh.Nodup)
    (hops : Ops.Admission t.ops) (hp : (t.ops.place p).commits = true)
    (halong : Along A t.ops.log.lh t.unpinned (t.ops.place p) (t.script p))
    (hneeds : ∀ r, needs (t.script p) r = false) : Regular A t := by
  have honly : ∀ q, (t.ops.place q).commits = true → q = p := fun q hq => hops.solo q p hq hp
  refine ⟨by rw [hbio, hpinned]; exact h.cached, hops, hnodup, fun hc => ?_, fun q hq => ?_, fun q hq r hr => ?_,
    fun q hq hr => ?_⟩
  · have := hops.mode.mpr ⟨p, hp⟩
    simp [hc] at this
  · rw [honly q hq]
    exact halong
  · rw [honly q hq, hneeds] at hr
    simp at hr
  · rw [honly q hq, hneeds] at hr
    simp at hr

end

theorem needs_body (A : Area) (lh : List Nat) (pl : Ops.Place) (r : Reg) : needs (body A lh pl) r = false := by
  cases pl with
  | writeLog tail | install tail =>
    simp only [body]
    split
    next => cases r <;> rfl
    next => rfl
  | writeHead => cases r <;> rfl
  | out | begins | asleep | inOp | erase | finish => rfl

theorem Along.body_writeLog (tail : Nat) :
    Along A lh 0 (.writeLog tail) (body A lh (.writeLog tail)) := by
  rw [body]
  split
  next n hn => exact .writeLog hn (suffix_refl _)
  next hn => exact .logged hn

theorem Along.body_install (tail : Nat) (htail : tail ≤ lh.length) :
    Along A lh tail (.install tail) (body A lh (.install tail)) := by
  rw [body]
  split
  next n hn => simpa [installTrans] using Along.install (A := A) hn (suffix_refl _)
  next hn =>
    have hlen : tail = lh.length := Nat.le_antisymm htail (getElem?_eq_none_iff.mp hn)
    rw [hlen] at hn ⊢
    exact .installed hn

section Unpinned

variable {lh : List Nat} {u tail : Nat} {sc : List Instr}

theorem Along.unpinned_writeLog (h : Along A lh u (.writeLog tail) sc) : u = 0 := by
  cases h <;> rfl

theorem Along.unpinned_writeHead (h : Along A lh u .writeHead sc) : u = 0 := by
  cases h
  rfl

theorem Along.unpinned_erase (h : Along A lh u .erase sc) : u = lh.length := by
  cases h
  rfl

theorem Along.unpinned_finish (h : Along A lh u .finish sc) : u = 0 := by
  cases h
  rfl

theorem Along.unpinned_install (h : Along A lh u (.install tail) []) :
    u = if tail < lh.length then tail + 1 else lh.length := by
  cases h with
  | install hn hsc =>
    obtain ⟨hlt, -⟩ := List.getElem?_eq_some_iff.mp hn
    simp [hlt]
  | installed hn =>
    have hge := getElem?_eq_none_iff.mp hn
    rw [if_neg (by omega)]

end Unpinned

theorem needs_writeHead (A : Area) (r : Reg) : needs (writeHead A) r = false := by
  cases r <;> rfl

-- From one point of commit() to the next, or into it.
inductive Turn (lh : List Nat) : Ops.Place → Ops.Place → Prop
  | empty (h : lh = []) : Turn lh .inOp .finish
  | begins (h : lh ≠ []) : Turn lh .inOp (.writeLog 0)
  | logs {tail : Nat} (h : tail < lh.length) : Turn lh (.writeLog tail) (.writeLog (tail + 1))
  | logged {tail : Nat} (h : ¬tail < lh.length) : Turn lh (.writeLog tail) .writeHead
  | head : Turn lh .writeHead (.install 0)
  | installs {tail : Nat} (h : tail < lh.length) : Turn lh (.install tail) (.install (tail + 1))
  | installed {tail : Nat} (h : ¬tail < lh.length) : Turn lh (.install tail) .erase

theorem Turn.commits (h : Turn lh pl pl') : pl'.commits = true := by
  cases h <;> rfl

theorem Turn.before (h : Turn lh pl pl') : pl = .inOp ∨ pl.commits = true := by
  cases h <;> simp [Ops.Place.commits]

theorem Turn.along (h : Turn lh pl pl') (hin : pl = .inOp → u = 0)
    (halong : pl.commits = true → Along A lh u pl []) : Along A lh u pl' (body A lh pl') := by
  cases h with
  | empty h =>
    rw [hin rfl]
    exact .finish nil_suffix h
  | begins h =>
    rw [hin rfl]
    exact .body_writeLog 0
  | logs h =>
    rw [(halong rfl).unpinned_writeLog]
    exact .body_writeLog _
  | logged h =>
    rw [(halong rfl).unpinned_writeLog]
    exact .writeHead (suffix_refl _)
  | head =>
    rw [(halong rfl).unpinned_writeHead]
    exact .body_install 0 (Nat.zero_le _)
  | installs h =>
    rw [(halong rfl).unpinned_install, if_pos h]
    exact .body_install _ h
  | installed h =>
    rw [(halong rfl).unpinned_install, if_neg h]
    exact .erase

-- What an event of the log does to the process that it is of.
inductive OpCase (A : Area) (s t : State ι) (e : Ops.Event ι) : Prop
  | quiet (ht : t = { s with ops := t.ops, script := t.script }) (hlh : t.ops.log.lh = s.ops.log.lh)
      (hp : (t.ops.place (proc e)).commits = false)
      (hcom : t.ops.log.committing = true → s.ops.log.committing = true)
      (hidle : t.ops.log.committing = false → s.unpinned = 0)
  | turn (ht : t = { s with
        ops := t.ops, script := update s.script (proc e) (body A s.ops.log.lh (t.ops.place (proc e))) })
      (hlh : t.ops.log.lh = s.ops.log.lh) (hturn : Turn s.ops.log.lh (s.ops.place (proc e)) (t.ops.place (proc e)))
      (hsc : (s.ops.place (proc e)).commits = true → s.script (proc e) = [])
      (hlast : s.ops.place (proc e) = .inOp → e = .endOp (proc e) ∧ s.ops.log.outstanding = 1)
  | erase (ht : t = { s with ops := t.ops, script := update s.script (proc e) (writeHead A), unpinned := 0 })
      (hp : s.ops.place (proc e) = .erase) (hlh : t.ops.log.lh = []) (hplace : t.ops.place (proc e) = .finish)

-- The other processes only wake up.
def Apart (s t : State ι) (p : ι) : Prop :=
  ∀ q, q ≠ p → t.script q = s.script q ∧
    (t.ops.place q = s.ops.place q ∨ s.ops.place q = .asleep ∧ t.ops.place q = .begins)

theorem Apart.commits (h : Apart s t p) (hp : (t.ops.place p).commits = false) (hq : (t.ops.place q).commits = true) :
    t.ops.place q = s.ops.place q ∧ t.script q = s.script q := by
  have hqp : q ≠ p := by
    rintro rfl
    simp [hp] at hq
  obtain ⟨hsc, hpl | ⟨-, hpl⟩⟩ := h q hqp
  · exact ⟨hpl, hsc⟩
  · simp [hpl, Ops.Place.commits] at hq

theorem leave_place (o : Ops.State ι) (hq : q ≠ p) : (o.wakeup.goto p .out).place q = o.place q ∨
    o.place q = .asleep ∧ (o.wakeup.goto p .out).place q = .begins := by
  rw [Ops.State.goto_of_ne _ _ hq, Ops.State.wakeup]
  by_cases hs : o.place q = .asleep <;> simp [hs]

theorem Regular.op_cases (h : Regular A s) (he : (Event.op e).enabled s) (hn : s.op A e = .ok t) :
    Ops.Admission t.ops ∧ OpCase A s t e ∧ Apart s t (proc e) := by
  obtain ⟨hen, -, hrest⟩ := he
  obtain ⟨ops, hops, hn⟩ := bind_eq_ok.mp hn
  rw [mapError_eq_ok] at hops
  have hadm := h.ops.next hen hops
  cases e with
  | call p | kill p =>
    cases hops
    cases hn
    refine ⟨hadm, .quiet rfl rfl ?_ id h.idle, fun q hq => ⟨rfl, .inl (s.ops.goto_of_ne _ hq)⟩⟩
    simp only [proc, s.ops.goto_self]
    rfl
  | begin p =>
    cases hops
    cases hn
    obtain ⟨hlh, hcom, hself, hother⟩ := s.ops.beginOp_frame p
    exact ⟨hadm, .quiet rfl hlh hself (fun hc => hcom ▸ hc) fun hc => h.idle (hcom ▸ hc),
      fun q hq => ⟨rfl, .inl (hother q hq)⟩⟩
  | logWrite p b => exact hrest.elim
  | endOp p =>
    have hok : s.ops.endOp p = .ok ops := hops
    have hp : s.ops.place p = .inOp := hen
    have hcom := h.ops.not_committing hp
    cases hn
    rcases h.ops.endOp_eq hp with ⟨hone, heq⟩ | ⟨-, heq⟩
    · -- the last operation: a commit begins
      cases heq.symm.trans hok
      refine ⟨hadm, .turn rfl rfl ?_ (fun hc => ?_) fun _ => ⟨rfl, hone⟩,
        fun q hq => ⟨update_of_ne hq .., .inl (s.ops.goto_of_ne _ hq)⟩⟩
      · simp only [proc, s.ops.goto_self, hp]
        split
        next hempty => exact .empty hempty
        next hne => exact .begins hne
      · simp [proc, hp, Ops.Place.commits] at hc
    · cases heq.symm.trans hok
      refine ⟨hadm, .quiet rfl rfl ?_ id fun _ => h.idle hcom, fun q hq => ⟨update_of_ne hq .., leave_place _ hq⟩⟩
      simp only [proc, Ops.State.goto_self]
      rfl
  | commit p =>
    cases hops
    have hp : (s.ops.place p).commits = true := hen
    have halong := h.along p hp
    rw [show s.script p = [] from hrest] at halong
    have hturn : ∀ pl, s.ops.commit p = s.ops.goto p pl → s.ops.place p ≠ .erase →
        Turn s.ops.log.lh (s.ops.place p) pl → OpCase A s t (.commit p) ∧ Apart s t p := by
      intro pl hpl hne hturn
      simp only [hne, if_false, hpl] at hn
      cases hn
      refine ⟨.turn rfl rfl ?_ (fun _ => hrest) fun hin => ?_,
        fun q hq => ⟨update_of_ne hq .., .inl (s.ops.goto_of_ne _ hq)⟩⟩
      · simp only [proc, s.ops.goto_self]
        exact hturn
      · simp [show s.ops.place p = .inOp from hin, Ops.Place.commits] at hp
    refine ⟨by simp only [pure_eq_ok] at hn; split at hn <;> cases hn <;> exact hadm, ?_⟩
    cases hpl : s.ops.place p with
    | out | begins | asleep | inOp => simp [hpl, Ops.Place.commits] at hp
    | writeLog tail =>
      refine hturn _ (by rw [Ops.State.commit, hpl]) (by simp [hpl]) ?_
      rw [hpl]
      split
      next hlt => exact .logs hlt
      next hge => exact .logged hge
    | writeHead => exact hturn _ (by rw [Ops.State.commit, hpl]) (by simp [hpl]) (by rw [hpl]; exact .head)
    | install tail =>
      refine hturn _ (by rw [Ops.State.commit, hpl]) (by simp [hpl]) ?_
      rw [hpl]
      split
      next hlt => exact .installs hlt
      next hge => exact .installed hge
    | erase =>
      simp only [hpl, if_true, Ops.State.commit] at hn
      cases hn
      exact ⟨.erase rfl hpl rfl (s.ops.goto_self p _),
        fun q hq => ⟨update_of_ne hq .., .inl (s.ops.goto_of_ne _ hq)⟩⟩
    | finish =>
      rw [hpl] at halong
      simp only [hpl, reduceCtorEq, if_false, Ops.State.commit] at hn
      cases hn
      refine ⟨.quiet rfl rfl ?_ (fun _ => h.committing hp) fun _ => halong.unpinned_finish,
        fun q hq => ⟨update_of_ne hq .., leave_place _ hq⟩⟩
      simp only [proc, Ops.State.goto_self]
      rfl

theorem Regular.op (h : Regular A s) (he : (Event.op e).enabled s) (hn : s.op A e = .ok t) : Regular A t := by
  obtain ⟨hadm, hcase, hapart⟩ := h.op_cases he hn
  cases hcase with
  | quiet ht hlh hp _ hidle =>
    refine h.quiet (by rw [ht]) (by rw [ht]) (by rw [ht]) hlh hadm (fun hc => ?_) fun q hq => hapart.commits hp hq
    rw [ht]
    exact hidle hc
  | turn ht hlh hturn hsc =>
    have hscript : t.script (proc e) = body A s.ops.log.lh (t.ops.place (proc e)) := by
      rw [ht]
      exact update_self ..
    have hunp : t.unpinned = s.unpinned := by rw [ht]
    refine h.turn (p := proc e) (by rw [ht]) (by rw [State.pinned, hlh, hunp, State.pinned]) (hlh ▸ h.nodup) hadm
      hturn.commits ?_ fun r => by rw [hscript]; exact needs_body ..
    rw [hscript, hlh, hunp]
    exact hturn.along (fun hp => h.idle (h.ops.not_committing hp)) fun hp => hsc hp ▸ h.along _ hp
  | erase ht hp hlh hplace =>
    have hscript : t.script (proc e) = writeHead A := by
      rw [ht]
      exact update_self ..
    have hunp := (hp ▸ h.along _ (by rw [hp]; rfl) : Along A _ _ .erase _).unpinned_erase
    refine h.turn (p := proc e) (by rw [ht]) ?_ (by simp [hlh]) hadm (by rw [hplace]; rfl) ?_ fun r => by
      rw [hscript]; exact needs_writeHead A r
    · simp [State.pinned, hlh, hunp]
    · rw [hscript, hplace, show t.unpinned = 0 by rw [ht]]
      exact .finish (suffix_refl _) hlh

theorem needs_cons (hi : ∀ r' n, i ≠ .bread r' n) (h : needs rest r = true) : needs (i :: rest) r = true := by
  cases i with
  | bread r' n => exact absurd rfl (hi r' n)
  | toLog | toHome => rfl
  | head | bwrite r' | bunpin | brelse r' => simp [needs, h]

-- A statement of commit(): all that is left to show is about the process that commits.
theorem Regular.only (h : Regular A s) (hp : (s.ops.place p).commits = true) (hops : t.ops = s.ops)
    (hcached : Cached A.dev t.bio t.pinned) (halong : Along A s.ops.log.lh t.unpinned (s.ops.place p) (t.script p))
    (hregs : ∀ r, needs (t.script p) r = true → Holds t.bio p (t.reg p r) ∧
      (t.buf (t.reg p r)).block = (A.dev, target A s.ops.log.lh (s.ops.place p) r))
    (hapart : needs (t.script p) .log = true → needs (t.script p) .home = true →
      t.reg p .log = t.reg p .home → Stuck t.bio p (t.reg p .home)) : Regular A t := by
  have honly : ∀ q, (t.ops.place q).commits = true → q = p := fun q hq => h.ops.solo q p (hops ▸ hq) hp
  refine ⟨hcached, hops ▸ h.ops, hops ▸ h.nodup, fun hc => ?_, fun q hq => ?_, fun q hq => ?_, fun q hq => ?_⟩
  · have := h.committing hp
    simp [← hops, hc] at this
  · rw [honly q hq, hops]
    exact halong
  · rw [honly q hq, hops]
    exact hregs
  · rw [honly q hq]
    exact hapart

theorem Regular.keep (h : Regular A s)
    (hp : (s.ops.place p).commits = true) (hsc : s.script p = i :: rest) (hi : ∀ r n, i ≠ .bread r n)
    (he : e.enabled s.bio) (hrel : ∀ b, e ≠ .release p b) (hn : Bio.next s.bio e = .ok t.bio) (hops : t.ops = s.ops)
    (hscript : t.script p = rest) (hreg : t.reg = s.reg) (hcached : Cached A.dev t.bio t.pinned)
    (halong : Along A s.ops.log.lh t.unpinned (s.ops.place p) rest) : Regular A t := by
  refine h.only hp hops hcached (hscript ▸ halong) (fun r hr => ?_) fun h1 h2 heq => ?_
  · rw [hscript] at hr
    rw [hreg]
    obtain ⟨hholds, hblock⟩ := h.regs p hp r (by rw [hsc]; exact needs_cons hi hr)
    exact ⟨hholds.event he (hrel _) hn, (h.cached.bio.block_of_pos he hn (hholds.pos h.cached.bio)).trans hblock⟩
  · rw [hscript] at h1 h2
    rw [hreg] at heq ⊢
    have hstuck := h.apart p hp (by rw [hsc]; exact needs_cons hi h1) (by rw [hsc]; exact needs_cons hi h2) heq
    exact hstuck.event he hn

theorem bget_chosen
    (hs : Structured u) (hb : u.cache.bget dev n = .ok (b, c)) (hn : u.bget p dev n = .ok v) :
    v.call p = .waits b ∧ (v.cache.buf b).block = (dev, n) := by
  obtain ⟨⟨b', c'⟩, hb', hn⟩ := bind_eq_ok.mp hn
  cases hb.symm.trans hb'
  cases hn
  obtain ⟨xs, hxs⟩ := hs.order
  refine ⟨u.goto_call_self p _, ?_⟩
  rcases Cache.bget_cases hb with ⟨hhit, rfl⟩ | ⟨-, -, rfl⟩
  · obtain ⟨h1, h2⟩ := hxs.cached_some hhit
    simp [Buf.block, h1, h2]
  · simp [Buf.block]

section

variable (h : Regular A s)
include h

theorem Regular.bread (hsc : s.script p = .bread r n :: rest) (hn : s.instr A p = .ok t) :
    ∃ b, t.reg p = update (s.reg p) r b ∧ t.bio.call p = .waits b ∧ (t.buf b).block = (A.dev, n) := by
  simp only [State.instr, hsc] at hn
  obtain ⟨⟨b, c⟩, hb, hn⟩ := bind_eq_ok.mp hn
  obtain ⟨bio, hbio, rfl⟩ := bind_return_eq_ok.mp hn
  rw [mapError_eq_ok] at hb hbio
  exact ⟨b, update_self .., bget_chosen h.cached.bio hb hbio⟩

variable (he : (Event.instr p).enabled s)
include he

theorem Regular.locked (hsc : s.script p = sc) (hneeds : needs sc r = true) : (s.buf (s.reg p r)).lock = some p :=
  (h.regs p he.1 r (hsc ▸ hneeds)).1.lock_of_out he.2.1

theorem Regular.event_enabled (hsc : s.script p = i :: rest) : (i.event A s p).enabled s.bio := by
  cases i with
  | bread r n | bwrite r | brelse r => exact he.2.1
  | toLog | toHome => exact ⟨he.2.1, h.locked he hsc rfl⟩
  | head => exact ⟨he.2.1, h.locked he hsc (by simp [needs])⟩
  | bunpin => trivial

end

theorem Regular.pinned_cons {tail : Nat} (h : Regular A s) (hu : s.unpinned = tail)
    (hget : s.ops.log.lh[tail]? = some n) :
    s.pinned = n :: s.ops.log.lh.drop (tail + 1) ∧ n ∉ s.ops.log.lh.drop (tail + 1) := by
  obtain ⟨hlt, rfl⟩ := List.getElem?_eq_some_iff.mp hget
  have hdrop := h.nodup.sublist (drop_sublist tail _)
  rw [drop_eq_getElem_cons hlt] at hdrop
  exact ⟨by rw [State.pinned, hu, drop_eq_getElem_cons hlt], (nodup_cons.mp hdrop).1⟩

theorem Regular.instr (h : Regular A s) (hA : A.dev ≠ 0) (he : (Event.instr p).enabled s) (hn : s.instr A p = .ok t) :
    Regular A t := by
  obtain ⟨i, rest, hsc⟩ := exists_cons_of_ne_nil he.2.2
  obtain ⟨hbio, hops, hscript, hreg, hunp, -⟩ := State.instr_eq hsc hn
  have hen := h.event_enabled he hsc
  obtain ⟨hp, hout, -⟩ := he
  obtain ⟨hnext, hrest⟩ := (hsc ▸ h.along p hp : Along A _ _ _ (i :: rest)).next
  rw [← hunp] at hrest
  have hcached : i ≠ .bunpin → Cached A.dev t.bio t.pinned := by
    intro hi
    rw [State.pinned, hops, hunp, if_neg hi]
    cases i with
    | bunpin => exact absurd rfl hi
    | _ => exact h.cached.event hen id (by trivial) hbio
  cases hnext with
  | bread n hn' hfree =>
    obtain ⟨b, hchosen, hcall, hblock⟩ := h.bread hsc hn
    have hhome : needs rest .home = false := by simpa [needs] using hfree .home
    refine h.only hp hops (hcached (by simp)) (hscript ▸ hrest) (fun r hr => ?_) fun _ h2 => ?_
    · cases r with
      | home => simp [hscript, hhome] at hr
      | log =>
        rw [hchosen, update_self]
        exact ⟨.inr hcall, hn' ▸ hblock⟩
    · simp [hscript, hhome] at h2
  | home n hn' hmem hlog =>
    obtain ⟨b, hchosen, hcall, hblock⟩ := h.bread hsc hn
    obtain ⟨hholds, hbk⟩ := h.regs p hp .log (by simp [hsc, needs, hlog])
    have hlock := (lock_event hen hbio (hholds.lock_of_out hout)).resolve_left (by simp [Instr.event])
    have hself : t.reg p .home = b := by rw [hchosen, update_self]
    have hother : t.reg p .log = s.reg p .log := by rw [hchosen, update_of_ne (by simp)]
    refine h.only hp hops (hcached (by simp)) (hscript ▸ hrest) (fun r _ => ?_) fun _ _ heq => ?_
    · cases r with
      | home =>
        rw [hself]
        exact ⟨.inr hcall, hn' ▸ hblock⟩
      | log =>
        rw [hother]
        exact ⟨.inl hlock, (h.cached.bio.block_of_pos hen hbio (hholds.pos h.cached.bio)).trans hbk⟩
    · rw [hself] at heq ⊢
      exact ⟨hcall, heq ▸ hother ▸ hlock⟩
  | toLog | toHome | head | bwrite =>
    exact h.keep hp hsc (by simp) hen (by simp [Instr.event]) hbio hops hscript (hreg (by simp)) (hcached (by simp)) hrest
  | bunpin tail n hpl hu hget hrest' =>
    obtain ⟨hsplit, hnot⟩ := h.pinned_cons hu hget
    have hblock := (h.regs p hp .home (by rw [hsc]; rfl)).2
    rw [hpl, target, hget, Option.getD_some] at hblock
    obtain ⟨hdev, hno⟩ := Prod.mk.inj hblock
    refine h.keep hp hsc (by simp) hen (by simp [Instr.event]) hbio hops hscript (hreg (by simp)) ?_ hrest
    rw [State.pinned, hops, hunp, if_pos rfl, hu, ← Except.ok.inj hbio]
    exact (hsplit ▸ h.cached).bunpin hA hdev hno hnot
  | brelse r hr =>
    refine h.only hp hops (hcached (by simp)) (hscript ▸ hrest) (fun r' hr' => ?_) fun h1 h2 _ => ?_
    · rw [hscript] at hr'
      rw [hreg (by simp)]
      have hne : r' ≠ r := by
        rintro rfl
        simp [hr] at hr'
      have hneeds' : needs (s.script p) r' = true := by simp [hsc, needs, hr']
      have hneeds : needs (s.script p) r = true := by simp [hsc, needs]
      -- the other variable is another buffer, since p does not wait
      have hapart : s.reg p r' ≠ s.reg p r := by
        intro heq
        have hstuck : ∃ b, s.bio.call p = .waits b := by
          cases r <;> cases r'
          · exact absurd rfl hne
          · exact ⟨_, (h.apart p hp hneeds hneeds' heq.symm).1⟩
          · exact ⟨_, (h.apart p hp hneeds' hneeds heq).1⟩
          · exact absurd rfl hne
        obtain ⟨b, hb⟩ := hstuck
        simp [hout] at hb
      obtain ⟨hholds, hblock⟩ := h.regs p hp r' hneeds'
      exact ⟨hholds.event hen (by simpa [Instr.event] using Ne.symm hapart) hbio,
        (h.cached.bio.block_of_pos hen hbio (hholds.pos h.cached.bio)).trans hblock⟩
    · rw [hscript] at h1 h2
      cases r with
      | log => simp [hr] at h1
      | home => simp [hr] at h2

theorem Start.regular (h : Start A s) : Regular A s := by
  obtain ⟨hops, hbio, hcall, hbuf, -, hscript, -, hunp⟩ := h
  have hlh : s.ops.log.lh = [] := by rw [hops.1]
  have hplace : ∀ p, ¬(s.ops.place p).commits = true := fun p => by simp [hops.2 p, Ops.Place.commits]
  refine ⟨⟨structured_inv hbio, ⟨?_, ?_, ?_, ?_⟩, fun b => ?_, fun n hn => ?_⟩, hops.admission, by simp [hlh],
    fun _ => hunp, fun p hp => absurd hp (hplace p), fun p hp => absurd hp (hplace p), fun p hp => absurd hp (hplace p)⟩
  · intro p b hp
    simp [hcall] at hp
  · intro p b hp
    have hfree := (hbuf b).1
    simp only [State.buf] at hfree
    simp [hfree] at hp
  · intro p b hp
    simp [hcall] at hp
  · intro p b hp
    have hfree := (hbuf b).1
    simp only [State.buf] at hfree
    simp [hfree] at hp
  · rw [(hbuf b).2.1]
    simp [State.pinned, hlh]
  · simp [State.pinned, hlh] at hn

theorem Regular.next (h : Regular A s) (hA : A.dev ≠ 0) (he : e.enabled s)
    (ho : (∀ p, e ≠ .op (.endOp p)) → Orderly A s e) (hn : Txn.next A s e = .ok t) : Regular A t := by
  cases e with
  | client e => exact h.client he.1 he.2 (ho (by simp)) hn
  | op e => exact h.op he hn
  | logWrite p b => exact h.logWrite hA he.1 (ho (by simp)) hn
  | instr p => exact h.instr hA he hn

end Xv6.Txn
