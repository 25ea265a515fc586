import Xv6.Proc.Space

namespace Xv6

open Lib

variable {L : Layout} {used : List Nat} {sized : Bool} {k k' k'' : Kernel} {s t : Phys}
  {role role' role'' : Nat → Role} {X P : Nat → Prop} {p q : Fin NPROC}

def Kernel.Live (k : Kernel) (p : Fin NPROC) : Prop := (k.tasks p).state ≠ .UNUSED

instance (k : Kernel) (p : Fin NPROC) : Decidable (k.Live p) := inferInstanceAs (Decidable (_ ≠ _))

-- Where a process of size sz can have user pages. `sized` says whether sizes are
-- known to be below the trapframe, as they are as long as sbrk() keeps them there.
def limit (sized : Bool) (sz : Nat) : Nat := if sized then PGROUNDUP sz else TRAPFRAME

theorem limit_true (sz : Nat) : limit true sz = PGROUNDUP sz := if_pos rfl

theorem limit_false (sz : Nat) : limit false sz = TRAPFRAME := if_neg Bool.false_ne_true

namespace Role

@[simp] def common : Role → Bool
  | .shared | .other => true
  | _ => false

theorem not_common_of_not_pinned {ρ : Role} (h : ρ.pinned = false) : ρ.common = false := by
  cases ρ <;> first | rfl | simp [pinned] at h

theorem ne_shared_of_not_common {ρ : Role} (h : ρ.common = false) : ρ ≠ .shared := by
  rintro rfl
  simp at h

end Role

-- Every process has its own page table and trapframe, shared_mem its page, and the
-- kernel the pages in `used`; nothing else is in use outside the page tables.
structure KInv (L : Layout) (used : List Nat) (sized : Bool) (k : Kernel) (role : Nat → Role) : Prop where
  vm : Vm L k.phys role
  space : ∀ p, k.Live p → Space L k.phys.mem role (k.procs p).pagetable (k.procs p).trapframe
    (limit sized (k.procs p).sz)
  frame : ∀ p, k.Live p → role (k.procs p).trapframe = .frame
  root_inj : ∀ p q, k.Live p → k.Live q → (k.procs p).pagetable = (k.procs q).pagetable → p = q
  frame_inj : ∀ p q, k.Live p → k.Live q → (k.procs p).trapframe = (k.procs q).trapframe → p = q
  unused : ∀ p, ¬k.Live p →
    (k.procs p).pagetable = 0 ∧ (k.procs p).trapframe = 0 ∧ (k.procs p).sz = 0
  size : sized = true → ∀ p, (k.procs p).sz ≤ TRAPFRAME
  shared : ∀ a, role a = .shared ↔ k.shm.allocated = true ∧ a = k.shm.shared_page
  kernel : ∀ a, role a = .other ↔ a ∈ used
  whole : ∀ a, (role a).pinned = true → (role a).common = true ∨
    ∃ p, k.Live p ∧ (a = (k.procs p).pagetable ∨ a = (k.procs p).trapframe)

theorem Space.mono (h : Space L m role r tf lim) (hle : lim ≤ lim') : Space L m role r tf lim' :=
  ⟨h.top, h.tramp, h.frame, h.high, fun va hva =>
    (h.user va hva).imp id (Or.imp (fun hu => ⟨by omega, hu.2⟩) id)⟩

-- At most the family, the pids, the exit statuses and the states differ.
structure Kin (k k' : Kernel) : Prop where
  phys : k'.phys = k.phys
  shm : k'.shm = k.shm
  live : ∀ q, k'.Live q ↔ k.Live q
  procs : ∀ q, (k'.procs q).pagetable = (k.procs q).pagetable ∧
    (k'.procs q).trapframe = (k.procs q).trapframe ∧ (k'.procs q).sz = (k.procs q).sz

theorem KInv.kin (h : KInv L used sized k role) (hk : Kin k k') : KInv L used sized k' role where
  vm := by
    rw [hk.phys]
    exact h.vm
  space := by
    intro p hp
    rw [hk.phys, (hk.procs p).1, (hk.procs p).2.1, (hk.procs p).2.2]
    exact h.space p ((hk.live p).mp hp)
  frame := by
    intro p hp
    rw [(hk.procs p).2.1]
    exact h.frame p ((hk.live p).mp hp)
  root_inj := by
    intro p q hp hq
    rw [(hk.procs p).1, (hk.procs q).1]
    exact h.root_inj p q ((hk.live p).mp hp) ((hk.live q).mp hq)
  frame_inj := by
    intro p q hp hq
    rw [(hk.procs p).2.1, (hk.procs q).2.1]
    exact h.frame_inj p q ((hk.live p).mp hp) ((hk.live q).mp hq)
  unused := by
    intro p hp
    rw [(hk.procs p).1, (hk.procs p).2.1, (hk.procs p).2.2]
    exact h.unused p ((hk.live p).not.mp hp)
  size := by
    intro hs p
    rw [(hk.procs p).2.2]
    exact h.size hs p
  shared := by
    rw [hk.shm]
    exact h.shared
  kernel := h.kernel
  whole := by
    intro a ha
    refine (h.whole a ha).imp id ?_
    rintro ⟨p, hp, hor⟩
    refine ⟨p, (hk.live p).mpr hp, ?_⟩
    rwa [(hk.procs p).1, (hk.procs p).2.1]

-- The kernel k' differs from k in the slot of p, as far as the invariant looks.
structure Swap (p : Fin NPROC) (k k' : Kernel) : Prop where
  live : ∀ q, q ≠ p → (k'.Live q ↔ k.Live q)
  procs : ∀ q, q ≠ p → (k'.procs q).pagetable = (k.procs q).pagetable ∧
    (k'.procs q).trapframe = (k.procs q).trapframe ∧ (k'.procs q).sz = (k.procs q).sz
  shm : k'.shm = k.shm

-- Pages that nobody but the process p refers to.
def Private (k : Kernel) (role : Nat → Role) (p : Fin NPROC) (role' : Nat → Role) (x : Nat) : Prop :=
  (role x).common = false ∧ (role' x).common = false ∧
    ∀ q, q ≠ p → k.Live q → x ≠ (k.procs q).pagetable ∧ x ≠ (k.procs q).trapframe

structure Slot (L : Layout) (sized : Bool) (k : Kernel) (role : Nat → Role) (p : Fin NPROC) : Prop where
  space : Space L k.phys.mem role (k.procs p).pagetable (k.procs p).trapframe
    (limit sized (k.procs p).sz)
  frame : role (k.procs p).trapframe = .frame
  root_ne : ∀ q, q ≠ p → k.Live q → (k.procs p).pagetable ≠ (k.procs q).pagetable
  frame_ne : ∀ q, q ≠ p → k.Live q → (k.procs p).trapframe ≠ (k.procs q).trapframe

theorem KInv.slot (h : KInv L used sized k role) (hp : k.Live p) : Slot L sized k role p :=
  ⟨h.space p hp, h.frame p hp, fun q hq hl heq => hq (h.root_inj p q hp hl heq).symm,
    fun q hq hl heq => hq (h.frame_inj p q hp hl heq).symm⟩

-- The rule for every call that works on one process: the others are not touched.
theorem KInv.swap (h : KInv L used sized k role) (hs : Swap p k k') (hvm : Vm L k'.phys role')
    (hf : Frame X k.phys.mem role k'.phys.mem role') (hX : ∀ x, X x → Private k role p role' x)
    (hlive : k'.Live p → Slot L sized k' role' p) (hdead : ¬k'.Live p →
      (k'.procs p).pagetable = 0 ∧ (k'.procs p).trapframe = 0 ∧ (k'.procs p).sz = 0)
    (hsize : sized = true → (k'.procs p).sz ≤ TRAPFRAME) (hown : ∀ x, (role' x).pinned = true →
      X x ∨ k.Live p ∧ (x = (k.procs p).pagetable ∨ x = (k.procs p).trapframe) →
      k'.Live p ∧ (x = (k'.procs p).pagetable ∨ x = (k'.procs p).trapframe)) :
    KInv L used sized k' role' where
  vm := hvm
  space := by
    intro q hq
    by_cases hqp : q = p
    · subst hqp
      exact (hlive hq).space
    · rw [hs.live q hqp] at hq
      rw [(hs.procs q hqp).1, (hs.procs q hqp).2.1, (hs.procs q hqp).2.2]
      exact (h.space q hq).frame_of hf (fun hx => ((hX _ hx).2.2 q hqp hq).1 rfl)
        fun x hx => Role.ne_shared_of_not_common (hX x hx).1
  frame := by
    intro q hq
    by_cases hqp : q = p
    · subst hqp
      exact (hlive hq).frame
    · rw [hs.live q hqp] at hq
      have hframe := h.frame q hq
      rw [(hs.procs q hqp).2.1, hf.role_eq _ (fun hx => ((hX _ hx).2.2 q hqp hq).2 rfl)
        (.inl (by rw [hframe]; rfl)), hframe]
  root_inj := by
    intro q q' hq hq' heq
    by_cases hqp : q = p
    · by_contra hne
      exact (hlive (hqp ▸ hq)).root_ne q' (fun h' => hne (hqp.trans h'.symm)) hq' (hqp ▸ heq)
    · by_cases hqp' : q' = p
      · by_contra hne
        exact (hlive (hqp' ▸ hq')).root_ne q hqp hq (hqp' ▸ heq.symm)
      · rw [(hs.procs q hqp).1, (hs.procs q' hqp').1] at heq
        exact h.root_inj q q' ((hs.live q hqp).mp hq) ((hs.live q' hqp').mp hq') heq
  frame_inj := by
    intro q q' hq hq' heq
    by_cases hqp : q = p
    · by_contra hne
      exact (hlive (hqp ▸ hq)).frame_ne q' (fun h' => hne (hqp.trans h'.symm)) hq' (hqp ▸ heq)
    · by_cases hqp' : q' = p
      · by_contra hne
        exact (hlive (hqp' ▸ hq')).frame_ne q hqp hq (hqp' ▸ heq.symm)
      · rw [(hs.procs q hqp).2.1, (hs.procs q' hqp').2.1] at heq
        exact h.frame_inj q q' ((hs.live q hqp).mp hq) ((hs.live q' hqp').mp hq') heq
  unused := by
    intro q hq
    by_cases hqp : q = p
    · subst hqp
      exact hdead hq
    · rw [(hs.procs q hqp).1, (hs.procs q hqp).2.1, (hs.procs q hqp).2.2]
      exact h.unused q ((hs.live q hqp).not.mp hq)
  size := by
    intro hsz q
    by_cases hqp : q = p
    · rw [hqp]
      exact hsize hsz
    · rw [(hs.procs q hqp).2.2]
      exact h.size hsz q
  shared := by
    intro a
    rw [hs.shm, ← h.shared a]
    by_cases hx : X a
    · exact iff_of_false (Role.ne_shared_of_not_common (hX a hx).2.1)
        (Role.ne_shared_of_not_common (hX a hx).1)
    · constructor
      · intro ha
        rw [← hf.role_eq a hx (.inr (by rw [ha]; rfl)), ha]
      · intro ha
        rw [hf.role_eq a hx (.inl (by rw [ha]; rfl)), ha]
  kernel := by
    intro a
    rw [← h.kernel a]
    by_cases hx : X a
    · refine iff_of_false (fun ha => ?_) fun ha => ?_
      · simpa [ha] using (hX a hx).2.1
      · simpa [ha] using (hX a hx).1
    · constructor
      · intro ha
        rw [← hf.role_eq a hx (.inr (by rw [ha]; rfl)), ha]
      · intro ha
        rw [hf.role_eq a hx (.inl (by rw [ha]; rfl)), ha]
  whole := by
    intro a ha
    by_cases hx : X a
    · exact .inr ⟨p, hown a ha (.inl hx)⟩
    have heq := hf.role_eq a hx (.inr ha)
    rw [heq] at ha ⊢
    refine (h.whole a ha).imp id ?_
    rintro ⟨q, hq, hor⟩
    by_cases hqp : q = p
    · subst hqp
      exact ⟨q, hown a (by rw [heq, ha]) (.inr ⟨hq, hor⟩)⟩
    · refine ⟨q, (hs.live q hqp).mpr hq, ?_⟩
      rwa [(hs.procs q hqp).1, (hs.procs q hqp).2.1]

theorem Swap.refl (p : Fin NPROC) (k : Kernel) (t : Phys) : Swap p k { k with phys := t } :=
  ⟨fun _ _ => Iff.rfl, fun _ _ => ⟨rfl, rfl, rfl⟩, rfl⟩

theorem Swap.setProc (p : Fin NPROC) (k : Kernel) (proc : Proc) (t : Phys) :
    Swap p k { k.setProc p proc with phys := t } :=
  ⟨fun _ _ => Iff.rfl, fun q hq => by simp [Kernel.setProc_of_ne k proc hq], rfl⟩

theorem KInv.private_root (h : KInv L used sized k role) (hp : k.Live p)
    (hr : (role' (k.procs p).pagetable).common = false) : Private k role p role' (k.procs p).pagetable := by
  refine ⟨by simp [(h.space p hp).top], hr, fun q hq hl => ⟨?_, ?_⟩⟩
  · exact (h.slot hp).root_ne q hq hl
  · intro heq
    have hframe := h.frame q hl
    simp [← heq, (h.space p hp).top] at hframe

theorem KInv.edit (h : KInv L used sized k role) (sz : Nat) (hp : k.Live p)
    (he : Edit L k.phys role t role' (k.procs p).pagetable P)
    (hsp : Space L t.mem role' (k.procs p).pagetable (k.procs p).trapframe (limit sized sz))
    (hsz : sized = true → sz ≤ TRAPFRAME) :
    KInv L used sized { k.setProc p { k.procs p with sz := sz } with phys := t } role' := by
  have hslot := h.slot hp
  have hframe : role' (k.procs p).trapframe = .frame := by
    rw [he.frame.role_eq _ _ (.inl (by rw [hslot.frame]; rfl)), hslot.frame]
    intro heq
    have hframe := hslot.frame
    simp [heq, hslot.space.top] at hframe
  refine h.swap (X := (· = (k.procs p).pagetable)) (.setProc p k _ t) he.vm he.frame ?_ ?_ ?_ ?_ ?_
  · intro x hx
    subst hx
    exact h.private_root hp (by simp [he.top])
  · intro _
    refine ⟨?_, ?_, fun q hq hl => ?_, fun q hq hl => ?_⟩
    · simp only [Kernel.setProc_self]
      exact hsp
    · simp only [Kernel.setProc_self]
      exact hframe
    · simp only [Kernel.setProc_self, Kernel.setProc_of_ne k _ hq]
      exact hslot.root_ne q hq hl
    · simp only [Kernel.setProc_self, Kernel.setProc_of_ne k _ hq]
      exact hslot.frame_ne q hq hl
  · intro hdead
    exact absurd hp hdead
  · simp only [Kernel.setProc_self]
    exact hsz
  · rintro x - (rfl | ⟨-, hor⟩)
    · exact ⟨hp, .inl (by simp)⟩
    · exact ⟨hp, by simpa using hor⟩

theorem Kernel.setProc_sz (k : Kernel) (p : Fin NPROC) :
    k.setProc p { k.procs p with sz := (k.procs p).sz } = k := by
  simp [Kernel.setProc]

theorem KInv.edit_phys (h : KInv L used sized k role) (hp : k.Live p)
    (he : Edit L k.phys role t role' (k.procs p).pagetable P)
    (hsp : Space L t.mem role' (k.procs p).pagetable (k.procs p).trapframe
      (limit sized (k.procs p).sz)) : KInv L used sized { k with phys := t } role' := by
  have hedit := h.edit _ hp he hsp (fun hs => h.size hs p)
  rwa [Kernel.setProc_sz] at hedit

end Xv6
