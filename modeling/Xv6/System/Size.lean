import Xv6.System.Ordinary

namespace Xv6

open Lib

variable {L : Layout} {used : List Nat} {k : Kernel}

theorem not_freePage_trapframe (h : KInv L used sized k role)
    (hp : k.Live p) : ¬k.FreePage (k.procs p).trapframe := by
  rw [h.freePage_iff]
  rintro ⟨-, hfree⟩
  simp [h.frame p hp] at hfree

-- As long as sbrk() is not asked to go beyond the trapframe, no process does, and
-- nothing panics but an exit of init.
theorem size_le_trapframe (h : Reach (Start L used) (Step L Bounded) k) :
    (∀ p, (k.procs p).sz ≤ TRAPFRAME) ∧
    (∀ e : Event, e.enabled k → Bounded k e → ∀ err, e.next L k = .error err → err = .initExiting) ∧
    (∀ p, k.Live p → ¬k.FreePage (k.procs p).trapframe) ∧
    ∀ p n k', (k.tasks p).state = .RUNNING → 0 ≤ wrap32 n →
      Event.next L k (.call p (.sbrk n)) = .ok k' →
      ((k'.procs p).sz ≤ TRAPFRAME ↔ (k.procs p).sz + (wrap32 n).toNat ≤ TRAPFRAME) := by
  obtain ⟨⟨role, hinv⟩, hshm⟩ := bounded_inv h
  refine ⟨hinv.size rfl, ?_, fun p hp => not_freePage_trapframe hinv hp, ?_⟩
  · intro e he hb err hnext
    have hends := hinv.next_spec he (hb.tame hshm)
    rw [hnext] at hends
    cases hends with
    | exiting => rfl
    | remap p call =>
      subst call
      exact hb.elim
  · intro p n k' hp hn hnext
    have hsz := hinv.size rfl p
    have hwrap : wrap64 ((k.procs p).sz + (wrap32 n).toNat) = (k.procs p).sz + (wrap32 n).toNat := by
      have hlt : wrap32 n < 2 ^ 31 := by
        have := Int.bmod_lt (x := n) (m := 2 ^ 32) (by decide)
        simp only [wrap32]
        omega
      apply wrap64_eq_of_lt
      simp only [TRAPFRAME_eq] at hsz
      omega
    have hsbrk : sbrk L p (wrap32 n) k = .ok ((k.procs p).sz, k.setProc p { k.procs p with
        sz := (k.procs p).sz + (wrap32 n).toNat }) := by
      rw [sbrk, if_neg (by omega), hwrap]
    simp only [Event.next, Call.run, hsbrk, ok_bind, pure_eq_ok, Except.ok.injEq] at hnext
    rw [← hnext, Kernel.setProc_self]

theorem size_le_trapframe_forked : ∃ k : Kernel, k.Live ⟨1, by decide⟩ ∧
    (∀ p, (k.procs p).sz ≤ TRAPFRAME) ∧ ∀ p, k.Live p → ¬k.FreePage (k.procs p).trapframe := by
  obtain ⟨k, hreach, hlive⟩ := exists_forked
  obtain ⟨hsz, -, hframe, -⟩ := size_le_trapframe hreach
  exact ⟨k, hlive, hsz, hframe⟩

-- 129 times the largest int is beyond MAXVA, and the fault handler walks there.
theorem size_unbounded : ∃ k, Reach (Start sampleLayout []) (Step sampleLayout fun _ _ => True) k ∧
    TRAPFRAME < (k.procs initSlot).sz ∧
    Event.next sampleLayout k (.call initSlot (.fault MAXVA)) = .error .walk := by
  obtain ⟨k, hk, hres⟩ : ∃ k, sampleRun (.schedule initSlot :: List.replicate 129 (.call initSlot (.sbrk 0x7fffffff)))
      = some k ∧ TRAPFRAME < (k.procs initSlot).sz ∧ failure
      (Event.next sampleLayout k (.call initSlot (.fault MAXVA))) = some .walk :=
    exists_of_any (by decide +kernel)
  simp only [failure_eq_some] at hres
  exact ⟨k, sampleRun_reach (fun _ _ _ => trivial) hk, hres⟩

end Xv6
