import Xv6.System.Ordinary

namespace Xv6

open Lib

variable {L : Layout} {used : List Nat} {sized : Bool} {k : Kernel} {role : Nat → Role} {p q : Fin NPROC}

theorem KInv.mapped_in_use (h : KInv L used sized k role) (hp : k.Live p)
    (hpte : leafPte k.phys.mem 2 (k.procs p).pagetable SHM_VA = some pte) : role (PTE2PA pte) ≠ .free := by
  rcases (h.space p hp).owner h.vm shm_va_lt.1 hpte with ⟨c, i, -, hrole⟩ | ⟨-, hrole⟩ <;> simp [hrole]

theorem wait_zombie (h : zombieChild k p = some q) : wait L p 0 k = (do
    let k' ← freeproc L q k
    return (some (k.procs q).pid, k')) := by
  simp only [wait, h, copyStatus, if_true, ok_bind, Int.lt_irrefl, if_false]

theorem zombieChild_spec (h : zombieChild k p = some q) :
    (k.procs q).parent = some p ∧ (k.tasks q).state = .ZOMBIE := by
  have hfound := List.find?_some h
  simpa using hfound

theorem KInv.wait_halts_iff (h : KInv L used true k role) (hp : (k.tasks p).state = .RUNNING)
    (hz : zombieChild k p = some q) (hsz : PGROUNDUP (k.procs q).sz ≤ SHM_VA) :
    wait L p 0 k = .error .freewalkLeaf ↔ k.MapsShm q := by
  have hq : k.Live q := by simp [Kernel.Live, (zombieChild_spec hz).2]
  constructor
  · intro herr
    by_contra hmaps
    obtain ⟨res, k', role', hok, -⟩ := h.wait_spec 0 hp fun pp hpp => by
      rw [hz, Option.some.injEq] at hpp
      exact hpp ▸ hmaps
    simp [herr] at hok
  · rintro ⟨ha, hpte⟩
    have hshared : SharedAt k.phys.mem role (k.procs q).pagetable SHM_VA :=
      ⟨rfl, k.shm.shared_page, (h.shared _).mpr ⟨ha, rfl⟩, hpte⟩
    rw [wait_zombie hz, h.freeproc_halts hq hsz hshared, error_bind]

-- As long as nobody tears down a page table with the segment in it, or cuts it off there.
theorem teardown_safe (h : Reach (Start L used) (Step L Tame) k) :
    (∀ e : Event, e.enabled k → Tame k e → e.next L k ≠ .error .freewalkLeaf) ∧
    (k.shm.allocated = true ∨ (∃ p pte, k.Live p ∧
        leafPte k.phys.mem 2 (k.procs p).pagetable SHM_VA = some pte ∧
        PTE2PA pte = k.shm.shared_page) → ¬k.FreePage k.shm.shared_page) ∧
    ∀ p q, (k.tasks p).state = .RUNNING → zombieChild k p = some q →
      PGROUNDUP (k.procs q).sz ≤ SHM_VA → (wait L p 0 k = .error .freewalkLeaf ↔ k.MapsShm q) := by
  obtain ⟨role, hinv⟩ := tame_inv h
  refine ⟨fun e he ht herr => ?_, fun hor hfree => ?_, fun p q hp hz hsz => hinv.wait_halts_iff hp hz hsz⟩
  · have hends := hinv.next_spec he ht
    rw [herr] at hends
    cases hends
  · rw [hinv.freePage_iff] at hfree
    rcases hor with ha | ⟨p, pte, hp, hpte, heq⟩
    · have hshared := (hinv.shared k.shm.shared_page).mpr ⟨ha, rfl⟩
      simp [hshared] at hfree
    · exact hinv.mapped_in_use hp hpte (heq ▸ hfree.2)

-- A child of init gets the segment and exits.
def sampleExit : List Event :=
  [.schedule initSlot, .call initSlot .fork, .schedule ⟨1, one_lt_NPROC⟩, .call ⟨1, one_lt_NPROC⟩ .shmGet,
    .call ⟨1, one_lt_NPROC⟩ (.exit 0)]

theorem exists_exited : ∃ k, Reach (Start sampleLayout []) (Step sampleLayout Tame) k ∧
    (k.tasks initSlot).state = .RUNNING ∧ zombieChild k initSlot = some ⟨1, by decide⟩ ∧
    PGROUNDUP (k.procs ⟨1, by decide⟩).sz ≤ SHM_VA ∧ k.MapsShm ⟨1, by decide⟩ := by
  obtain ⟨k, hk, hres⟩ : ∃ k, sampleRun sampleExit = some k ∧ (k.tasks initSlot).state = .RUNNING ∧
      zombieChild k initSlot = some ⟨1, by decide⟩ ∧ PGROUNDUP (k.procs ⟨1, by decide⟩).sz ≤ SHM_VA ∧
      k.MapsShm ⟨1, by decide⟩ := by
    apply exists_of_any
    decide +kernel
  refine ⟨k, sampleRun_reach (fun e he _ => ?_) hk, hres⟩
  simp only [sampleExit, List.mem_cons, List.not_mem_nil, or_false] at he
  rcases he with rfl | rfl | rfl | rfl | rfl <;> trivial

theorem teardown_safe_exited : ∃ k : Kernel, k.MapsShm ⟨1, by decide⟩ ∧
    ¬k.FreePage k.shm.shared_page := by
  obtain ⟨k, hreach, -, -, -, hmaps⟩ := exists_exited
  exact ⟨k, hmaps, (teardown_safe hreach).2.1 (.inl hmaps.1)⟩

theorem reap_panics : ∃ k, Reach (Start sampleLayout []) (Step sampleLayout fun _ _ => True) k ∧
    (Event.call initSlot (.wait 0)).enabled k ∧
    Event.next sampleLayout k (.call initSlot (.wait 0)) = .error .freewalkLeaf := by
  obtain ⟨k, hreach, hp, hz, hsz, hmaps⟩ := exists_exited
  obtain ⟨role, hinv⟩ := tame_inv hreach
  refine ⟨k, hreach.mono fun s t ⟨e, he, _, hn⟩ => ⟨e, he, trivial, hn⟩, hp, ?_⟩
  simp only [Event.next, Call.run, (hinv.wait_halts_iff hp hz hsz).mpr hmaps, error_bind]

end Xv6
