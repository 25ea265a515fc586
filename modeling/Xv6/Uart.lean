import Xv6.Sleep
import Xv6.Lib.Queue
import Xv6.Lib.Reach

namespace Xv6.Uart

open Lib Function

-- The transmit ring of kernel/uart.c while panicking is 0: uartputc() of any number of processes,
-- and uartintr().

abbrev UART_TX_BUF_SIZE : Nat := 32

abbrev Byte := BitVec 8

-- The wait channels: &uart_tx_r, or anything else that a process sleeps on.
inductive Chan where
  | uart_tx_r
  | other (addr : Nat)
  deriving DecidableEq

-- What uartstart() does to the registers.
inductive Access where
  | lsr (idle : Bool)
  | thr (c : Byte)

def Access.byte : Access → Option Byte
  | .lsr _ => none
  | .thr c => some c

-- Who has uart_tx_lock: uartputc(c) at the test of its loop, uartstart() at the top of its loop, or
-- in its wakeup() with some slots before it and with the byte that it has taken. me is myproc(): in
-- uartintr() the process that it has interrupted, if any.
inductive Section (ι : Type) where
  | free
  | test (p : ι) (c : Byte)
  | start (me : Option ι)
  | wakeup (me : Option ι) (c : Byte) (rest : List ι)
  deriving DecidableEq

def Section.me : Section ι → Option ι
  | .free => none
  | .test p _ => some p
  | .start me | .wakeup me _ _ => me

def Section.hand : Section ι → List Byte
  | .wakeup _ c _ => [c]
  | _ => []

-- Where a process is in the sleep() of uartputc(c): with p->lock held and uart_tx_lock released, or
-- behind sched().
inductive Place where
  | out
  | dozing (c : Byte)
  | asleep (c : Byte)
  deriving DecidableEq

def Place.dozes : Place → Bool
  | .dozing _ => true
  | _ => false

structure State (ι : Type) where
  uart_tx_buf : Fin UART_TX_BUF_SIZE → Byte
  uart_tx_w : Nat
  uart_tx_r : Nat
  sec : Section ι
  place : ι → Place
  tasks : ι → Task Chan
  -- history: what uartputc() has stored, and what uartstart() has done to the registers
  stored : List Byte
  log : List Access

inductive Event (ι : Type) where
  | uartputc (p : ι) (c : Byte)
  | uartintr (me : Option ι)
  -- the next statement under uart_tx_lock; a read of LSR gives idle
  | go (idle : Bool)
  -- the next statement of a process in sleep()
  | sleep (p : ι)

variable {ι : Type} [DecidableEq ι]

namespace State

abbrev full (s : State ι) : Prop := s.uart_tx_w = wrap64 (s.uart_tx_r + UART_TX_BUF_SIZE)

-- none where the event cannot happen. A process that has a spinlock is not interrupted.
def next (table : List ι) (s : State ι) : Event ι → Option (State ι)
  | .uartputc p c =>
    if (s.tasks p).state = .RUNNING ∧ s.place p = .out ∧ s.sec = .free then some { s with sec := .test p c } else none
  | .uartintr me =>
    if (∀ p ∈ me, (s.tasks p).state = .RUNNING ∧ (s.place p).dozes = false) ∧ s.sec = .free then
      some { s with sec := .start me }
    else none
  | .go idle =>
    match s.sec with
    | .free => none
    | .test p c =>
      if s.full then some { s with sec := .free, place := update s.place p (.dozing c) }
      else some { s with
        uart_tx_buf := update s.uart_tx_buf (Fin.ofNat UART_TX_BUF_SIZE s.uart_tx_w) c
        uart_tx_w := wrap64 (s.uart_tx_w + 1)
        stored := s.stored ++ [c]
        sec := .start (some p) }
    | .start me =>
      if s.uart_tx_w = s.uart_tx_r then some { s with sec := .free }
      else if idle then some { s with
        uart_tx_r := wrap64 (s.uart_tx_r + 1)
        sec := .wakeup me (s.uart_tx_buf (Fin.ofNat UART_TX_BUF_SIZE s.uart_tx_r)) table
        log := s.log ++ [.lsr true] }
      else some { s with sec := .free, log := s.log ++ [.lsr false] }
    | .wakeup me c [] => some { s with sec := .start me, log := s.log ++ [.thr c] }
    | .wakeup me c (q :: rest) =>
      if me = some q then some { s with sec := .wakeup me c rest }
      else if (s.place q).dozes then none
      else if SleepsOn s.tasks q .uart_tx_r then
        some { s with tasks := setState s.tasks q .RUNNABLE, sec := .wakeup me c rest }
      else some { s with sec := .wakeup me c rest }
  | .sleep p =>
    match s.place p with
    | .out => none
    | .dozing c => some { s with tasks := Xv6.sleep s.tasks p .uart_tx_r, place := update s.place p (.asleep c) }
    | .asleep c =>
      if (s.tasks p).state = .RUNNING ∧ s.sec = .free then
        some { s with tasks := awaken s.tasks p, place := update s.place p .out, sec := .test p c }
      else none

-- The rest of the kernel puts nobody to sleep on &uart_tx_r, and leaves alone who runs in the section.
inductive Step (table : List ι) (s : State ι) : State ι → Prop
  | event (e : Event ι) (h : s.next table e = some t) : Step table s t
  | world (tasks : ι → Task Chan) (hsleep : ∀ p, SleepsOn tasks p .uart_tx_r → SleepsOn s.tasks p .uart_tx_r)
      (hme : ∀ p, s.sec.me = some p → (tasks p).state = (s.tasks p).state) : Step table s { s with tasks }

def Start (s : State ι) : Prop :=
  s.uart_tx_w = 0 ∧ s.uart_tx_r = 0 ∧ s.sec = .free ∧ s.stored = [] ∧ s.log = [] ∧
  ∀ p, s.place p = .out ∧ (s.tasks p).chan ≠ some .uart_tx_r

def taken (s : State ι) : List Byte := s.log.filterMap Access.byte ++ s.sec.hand

end State

-- Every byte for THR comes right after a read of LSR that found the UART idle.
inductive Polite : List Access → Prop
  | nil : Polite []
  | lsr (h : Polite log) (idle : Bool) : Polite (log ++ [.lsr idle])
  | thr (h : Polite log) (c : Byte) : Polite (log ++ [.lsr true, .thr c])

variable {s t : State ι} {table : List ι}

structure Sends (s : State ι) : Prop where
  queue : ∃ buf, Queue UART_TX_BUF_SIZE (2 ^ 64) s.uart_tx_buf s.uart_tx_r s.uart_tx_w s.stored s.taken buf
  polite : Polite s.log
  handed : s.sec.hand ≠ [] → ∃ log, Polite log ∧ s.log = log ++ [.lsr true]

structure Wakes (s : State ι) : Prop where
  me : ∀ p, s.sec.me = some p → (s.tasks p).state = .RUNNING ∧ (s.place p).dozes = false
  -- the ring is full, or the wakeup() has still to come to the process
  woken : ∀ q, (s.place q).dozes = true ∨ SleepsOn s.tasks q .uart_tx_r →
    s.full ∨ ∃ me c rest, s.sec = .wakeup me c rest ∧ q ∈ rest

omit [DecidableEq ι] in
theorem Sends.same (h : Sends s) (hsec : sec.hand = s.sec.hand) :
    Sends { s with sec, place, tasks } := by
  obtain ⟨hqueue, hpolite, hidle⟩ := h
  simp only [State.taken, ← hsec] at hqueue hidle
  exact ⟨hqueue, hpolite, hidle⟩

theorem Sends.next (h : Sends s) (hn : s.next table e = some t) : Sends t := by
  obtain ⟨⟨buf, hq⟩, hpolite, hhanded⟩ := id h
  revert hn
  fun_cases State.next table s e <;> intro hn <;> cases hn
  case case7 idle p c hsec hfull =>
    simp only [State.taken, hsec] at hq
    exact ⟨⟨_, hq.put (by decide) (mt (hq.full_iff (by decide)).mpr hfull) c⟩, hpolite, by simp [Section.hand]⟩
  case case9 me hsec hempty =>
    cases buf with
    | nil => exact absurd ((hq.empty_iff (by decide)).mpr rfl).symm hempty
    | cons c buf =>
      simp only [State.taken, hsec, Section.hand, List.append_nil] at hq
      obtain ⟨rfl, hrest⟩ := hq.take (by decide)
      refine ⟨⟨buf, ?_⟩, hpolite.lsr true, fun _ => ⟨s.log, hpolite, rfl⟩⟩
      simpa [State.taken, Section.hand, List.filterMap_cons, Access.byte, wrap64] using hrest
  case case10 idle me hsec hempty hbusy =>
    simp only [State.taken, hsec] at hq
    refine ⟨⟨buf, ?_⟩, hpolite.lsr false, by simp [Section.hand]⟩
    simpa [State.taken, Section.hand, List.filterMap_cons, Access.byte] using hq
  case case11 idle me c hsec =>
    simp only [State.taken, hsec] at hq hhanded
    obtain ⟨log, hlog, heq⟩ := hhanded (by simp [Section.hand])
    refine ⟨⟨buf, ?_⟩, ?_, by simp [Section.hand]⟩
    · simpa [State.taken, Section.hand, List.filterMap_cons, Access.byte] using hq
    · rw [heq, List.append_assoc]
      exact hlog.thr c
  -- the rest leaves the ring and the registers alone
  all_goals exact h.same (by simp only [Section.hand, *])

theorem Wakes.next (h : Wakes s) (hall : ∀ p, p ∈ table) (hn : s.next table e = some t) : Wakes t := by
  obtain ⟨hme, hwoken⟩ := h
  simp only [SleepsOn] at hwoken
  revert hn
  fun_cases State.next table s e <;> intro hn <;> cases hn
  all_goals
    constructor <;> simp only [Section.me, SleepsOn, setState, sleep, awaken, update_apply] <;>
      grind -ring -linarith [Section.me, Place.dozes, SleepsOn]

theorem uart_inv (hall : ∀ p, p ∈ table) (h : Reach State.Start (State.Step table) s) : Sends s ∧ Wakes s := by
  induction h with
  | start h =>
    obtain ⟨hw, hr, hsec, hstored, hlog, hout⟩ := h
    refine ⟨⟨⟨[], ?_⟩, hlog ▸ .nil, by simp [hsec, Section.hand]⟩, by simp [hsec, Section.me], ?_⟩
    · constructor <;> simp [State.taken, *, Section.hand]
    · simp [hout, Place.dozes, SleepsOn]
  | step _ hs ih =>
    cases hs with
    | event e hn => exact ⟨ih.1.next hn, ih.2.next hall hn⟩
    | world tasks hsleep hme =>
      refine ⟨ih.1.same rfl, fun p hp => ?_, fun q hq => ih.2.woken q (hq.imp_right (hsleep q))⟩
      exact ⟨(hme p hp).trans (ih.2.me p hp).1, (ih.2.me p hp).2⟩

-- The ring holds what uartputc() has stored and uartstart() has not yet taken, each byte in its cell.
theorem uart_fifo (hall : ∀ p, p ∈ table) (h : Reach State.Start (State.Step table) s) :
    (∃ unsent, s.stored = s.log.filterMap Access.byte ++ s.sec.hand ++ unsent ∧
      unsent.length = (s.uart_tx_w + 2 ^ 64 - s.uart_tx_r) % 2 ^ 64 ∧ unsent.length ≤ UART_TX_BUF_SIZE ∧
      ∀ k (hk : k < unsent.length), s.uart_tx_buf (Fin.ofNat UART_TX_BUF_SIZE (s.uart_tx_r + k)) = unsent[k]) ∧
    Polite s.log ∧
    (s.sec = .free → ¬s.full → ∀ p, ¬SleepsOn s.tasks p .uart_tx_r) := by
  obtain ⟨⟨⟨buf, hq⟩, hpolite, -⟩, hwakes⟩ := uart_inv hall h
  refine ⟨⟨buf, hq.split, (hq.distance (by decide)).symm, hq.size, fun k hk => ?_⟩, hpolite, fun hfree hfull p hs => ?_⟩
  · rw [← hq.cells k hk, hq.read]
    refine congrArg _ (Fin.ext ?_)
    simp only [Fin.val_ofNat, UART_TX_BUF_SIZE]
    omega
  · rcases hwakes.woken p (.inr hs) with hf | ⟨me, c, rest, hsec, -⟩
    · exact hfull hf
    · simp [hfree] at hsec

-- The ring is full when process 1 comes, which sleeps until uartintr() sends a byte.
theorem uart_fifo_full : ∃ s : State (Fin 2), s.place 1 = .asleep 7 ∧ s.log.filterMap Access.byte = [5] ∧
    ¬SleepsOn s.tasks 1 .uart_tx_r := by
  obtain ⟨s, hs, hp, hlog, hsec, hfull⟩ : ∃ s : State (Fin 2), List.foldlM (State.next [0, 1])
      { uart_tx_buf := fun _ => 0, uart_tx_w := 0, uart_tx_r := 0, sec := .free, place := fun _ => .out,
        tasks := fun _ => { state := .RUNNING, chan := none, killed := false }, stored := [], log := [] }
      ((List.replicate 32 [.uartputc 0 5, .go false, .go false]).flatten ++ [.uartputc 1 7, .go false, .sleep 1,
        .uartintr none, .go true, .go true, .go true, .go true, .go false]) = some s ∧ s.place 1 = .asleep 7 ∧
      s.log.filterMap Access.byte = [5] ∧ s.sec = .free ∧ ¬s.full := exists_of_any (by decide +kernel)
  have hreach : Reach State.Start (State.Step [0, 1]) s :=
    Reach.foldlM (fun _ e _ hn => .event e hn) (.start ⟨rfl, rfl, rfl, rfl, rfl, fun _ => ⟨rfl, by simp⟩⟩) hs
  exact ⟨s, hp, hlog, (uart_fifo (by decide) hreach).2.2 hsec hfull 1⟩

end Xv6.Uart
