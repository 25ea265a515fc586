import Xv6.System.Teardown

namespace Xv6

open Lib

-- What an address below the trapframe leads to is not free and nobody's page table or trapframe, and no
-- other such address leads there, unless it is the shared segment.
theorem processes_isolated (h : Reach (Start L used) (Step L Tame) k) (hp : k.Live p) (hva : va < TRAPFRAME)
    (he : leafPte k.phys.mem 2 (k.procs p).pagetable va = some e) :
    IsPage L (PTE2PA e) ∧ PTE2PA e ∉ used ∧ ¬k.FreePage (PTE2PA e) ∧
    (∀ q, k.Live q → PTE2PA e ≠ (k.procs q).trapframe ∧
      ∀ va' l, ¬Leads k.phys.mem va' 2 (k.procs q).pagetable l (PTE2PA e)) ∧
    ∀ q va' e', k.Live q → va' < TRAPFRAME → leafPte k.phys.mem 2 (k.procs q).pagetable va' = some e' →
      PTE2PA e' = PTE2PA e →
      q = p ∧ va' / PGSIZE = va / PGSIZE ∨ k.shm.allocated = true ∧ PTE2PA e = k.shm.shared_page := by
  obtain ⟨role, hinv⟩ := tame_inv h
  have howner := (hinv.space p hp).owner hinv.vm hva he
  have hrole : role (PTE2PA e) ≠ .free ∧ role (PTE2PA e) ≠ .other ∧ role (PTE2PA e) ≠ .frame ∧
      (role (PTE2PA e)).level = none := by
    rcases howner with ⟨c, i, -, hrole⟩ | ⟨-, hrole⟩ <;> simp [hrole, Role.level]
  obtain ⟨hfree, hother, hframe, hlevel⟩ := hrole
  refine ⟨hinv.vm.page _ hfree hother, fun hused => hother ((hinv.kernel _).mpr hused),
    fun hf => hfree ((hinv.freePage_iff _).mp hf).2,
    fun q hq => ⟨fun heq => hframe (heq ▸ hinv.frame q hq), fun va' l hleads => ?_⟩, ?_⟩
  · have := hleads.level hinv.vm.wired (by rw [(hinv.space q hq).top, Role.level_top])
    simp [hlevel] at this
  · intro q va' e' hq hva' he' heq
    rcases howner with ⟨c, i, hl, hleaf⟩ | ⟨-, hshared⟩
    · have howner' := (hinv.space q hq).owner hinv.vm hva' he'
      rw [heq] at howner'
      rcases howner' with ⟨c', i', hl', hleaf'⟩ | ⟨-, hshared⟩
      · rw [hleaf, Role.leaf.injEq] at hleaf'
        obtain ⟨rfl, rfl⟩ := hleaf'
        obtain ⟨-, hroot, hpx⟩ := hinv.vm.wired.lookup_inj (hinv.space q hq).top (hinv.space p hp).top hl' hl
        exact .inl ⟨hinv.root_inj q p hq hp hroot, (px_eq_iff (high_not_user hva').1 (high_not_user hva).1).mp hpx⟩
      · simp [hleaf] at hshared
    · exact .inr ((hinv.shared _).mp hshared)

theorem processes_isolated_exited : ∃ k : Kernel, ∃ e,
    leafPte k.phys.mem 2 (k.procs ⟨1, by decide⟩).pagetable SHM_VA = some e ∧ ¬k.FreePage (PTE2PA e) := by
  obtain ⟨k, hreach, -, hz, -, hmaps⟩ := exists_exited
  have hlive : k.Live ⟨1, by decide⟩ := by simp [Kernel.Live, (zombieChild_spec hz).2]
  exact ⟨k, _, hmaps.2, (processes_isolated hreach hlive shm_va_lt.1 hmaps.2).2.2.1⟩

-- Whatever the file holds, exec() returns, and only the caller's memory changes, or nobody's.
theorem exec_survives (h : Reach (Start L used) (Step L Bounded) k) (hp : k.Live p) (file : Option (List Byte))
    (args : Args) : ∃ r k', exec L p file args.strings k = .ok (r, k') ∧ Untouched p k k' ∧ k'.Live p ∧
      (r = -1 → ∀ q, Untouched q k k') := by
  obtain ⟨⟨role, hinv⟩, hshm⟩ := bounded_inv h
  have hnone : ¬k.MapsShm p := by simp [Kernel.MapsShm, hshm]
  obtain ⟨r, k', -, hok, -, hspec⟩ := hinv.exec_spec hp hnone file args
  exact ⟨r, k', hok, hspec⟩

theorem exec_survives_forked : ∃ k : Kernel, ∀ file args, ∃ res,
    exec sampleLayout ⟨1, by decide⟩ file (Args.strings args) k = .ok res := by
  obtain ⟨k, hreach, hlive⟩ := exists_forked
  refine ⟨k, fun file args => ?_⟩
  obtain ⟨r, k', hok, -⟩ := exec_survives hreach hlive file args
  exact ⟨(r, k'), hok⟩

end Xv6
