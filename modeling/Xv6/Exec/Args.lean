import Xv6.Flat.Copy

namespace Xv6

open Lib Function

variable {L : Layout} {used : List Nat} {k : Kernel} {p : Fin NPROC} {m : Mem} {role : Nat → Role}

-- What a new program finds: argv[] at the stack pointer, which is in a1, the strings
-- above it, each below the one before, and all of it in the stack page.
structure Passed (k : Kernel) (p : Fin NPROC) (argv : List (List Byte)) : Prop where
  roomy : 2 * PGSIZE ≤ (k.procs p).sz
  fits : argTotal argv ≤ USERSTACK * PGSIZE
  aligned : ((k.procs p).sz - argTotal argv) % 16 = 0
  a1 : k.phys.mem (k.procs p).trapframe TF_A1 = BitVec.ofNat 64 ((k.procs p).sz - argTotal argv)
  sp : k.phys.mem (k.procs p).trapframe TF_SP = BitVec.ofNat 64 ((k.procs p).sz - argTotal argv)
  array : readAt (viewByte k.phys.mem (k.procs p).pagetable) ((k.procs p).sz - argTotal argv)
    (8 * (argv.length + 1)) = ustackBytes (argPtrs argv (k.procs p).sz ++ [0])
  count : (argPtrs argv (k.procs p).sz).length = argv.length
  strings : Placed (viewByte k.phys.mem (k.procs p).pagetable) argv (k.procs p).sz
  inside : ∀ x ∈ (argPtrs argv (k.procs p).sz).zip argv,
    (k.procs p).sz - argTotal argv + 8 * (argv.length + 1) ≤ x.1 ∧ x.1 + x.2.length + 1 ≤ (k.procs p).sz
  apart : ((argPtrs argv (k.procs p).sz).zip argv).Pairwise fun x y => y.1 + y.2.length + 1 ≤ x.1

theorem argPtrs_apart (h : argRoom argv ≤ sp) :
    ((argPtrs argv sp).zip argv).Pairwise fun x y => y.1 + y.2.length + 1 ≤ x.1 := by
  induction argv generalizing sp with
  | nil => simp [argPtrs]
  | cons arg argv ih =>
    simp only [argRoom, argPtrs, List.zip_cons_cons, List.pairwise_cons] at h ⊢
    exact ⟨fun y hy => (argPtrs_bounds (by omega) hy).2, ih (by omega)⟩

theorem stackByte_eq_viewByte (h : OnStack m r sz e) (hsz : sz % PGSIZE = 0)
    (hlo : sz - USERSTACK * PGSIZE ≤ va) (hhi : va < sz) : viewByte m r va = stackByte m sz e va := by
  have hoff : va % PGSIZE = va - (sz - USERSTACK * PGSIZE) := by
    simp only [USERSTACK, PGSIZE_eq] at *
    omega
  rw [viewByte_some (h.mapped va hlo hhi), stackByte, hoff]

theorem Vm.exec_run (h : Vm L k.phys role)
    (hsp : Space L k.phys.mem role (k.procs p).pagetable (k.procs p).trapframe lim)
    (hframe : role (k.procs p).trapframe = .frame) (hd : Disposable k role p) (file : Option (List Byte)) :
    (∃ k', ∀ argv, exec L p file argv k = .ok (-1, k')) ∨
    ∀ args : Args, if argTotal args.strings ≤ USERSTACK * PGSIZE
      then ∃ k', exec L p file args.strings k = .ok (args.strings.length, k') ∧ Passed k' p args.strings
      else ∃ k', exec L p file args.strings k = .ok (-1, k') := by
  cases file with
  | none => exact .inl ⟨k, fun _ => rfl⟩
  | some file =>
    simp only [exec]
    split
    · exact .inl ⟨k, fun _ => rfl⟩
    rcases h.procPagetable_spec (k.procs p).trapframe with ⟨t, role', hpt, -⟩ |
      ⟨r, t, role', hpt, hr0, hfree, ht, hspr, hempty, hf⟩
    · exact .inl ⟨{ k with phys := t }, fun _ => by simp only [hpt, ok_bind, if_true, pure_eq_ok]⟩
    have hzero : PGROUNDUP 0 = 0 := by decide
    have himage : Image L k.phys.mem role (k.procs p).trapframe t role' r 0 :=
      ⟨ht, hspr _, hf, fun va hva => by omega, fun va _ hva => hempty va hva, Nat.zero_le _⟩
    generalize elfHdr (readi file 0 ELFHDR_SIZE) = elf
    simp only [hpt, ok_bind, if_neg hr0]
    obtain ⟨sz, u, ρ, himage', hno | ⟨e, hal, hlow, hstack, hpush⟩⟩ := himage.execImage_cases (k.self p) file elf
    · obtain ⟨v, -, hok, -⟩ := himage'.bad hfree hframe
      exact .inl ⟨{ k with phys := v }, fun _ => by simp only [hno, ok_bind, hok, pure_eq_ok]⟩
    right
    intro args
    obtain ⟨sp, v, hok, himage'', hstack', hres⟩ := himage'.pushStack_spec hstack (k.self p) hal hlow args
    simp only [hpush, hok, ok_bind, pure_eq_ok]
    rcases hres with ⟨rfl, hbig⟩ | ⟨rfl, hfits, hplaced, harray⟩
    · obtain ⟨w, -, hbad, -⟩ := himage''.bad hfree hframe
      rw [if_neg (by omega)]
      exact ⟨{ k with phys := w }, by simp only [hbad, ok_bind]⟩
    rw [if_pos hfits]
    obtain ⟨w, ρ', hcommit, -, -, -, -, hregs, hsame, -⟩ :=
      himage''.commit hfree hframe hsp hd.1 hd.2 elf.entry (sz - argTotal args.strings)
    refine ⟨_, by simp only [hcommit, ok_bind]; rfl, ?_⟩
    have htotal : argTotal args.strings ≤ sz := by
      simp only [USERSTACK, PGSIZE_eq] at *
      omega
    have hsum : argRoom args.strings + 8 * (args.strings.length + 1) ≤ argTotal args.strings := by
      simp only [argTotal, aligned16]
      omega
    have hroom : argRoom args.strings ≤ sz := by omega
    -- the stack as the user sees it
    have hview : ∀ va, sz - USERSTACK * PGSIZE ≤ va → va < sz → viewByte w.mem r va = stackByte v.mem sz e va := by
      intro va hlo hhi
      have hb := himage''.bounds
      rw [← stackByte_eq_viewByte hstack' hal hlo hhi]
      exact (alike_of_pte (hsame va).pte fun e' he' => (hsame va).data (himage''.user va (by omega)) e' he').byte
    refine ⟨?_, hfits, ?_, ?_, ?_, ?_, length_argPtrs .., ?_, ?_, ?_⟩ <;> simp only [Kernel.setProc_self]
    · exact hlow
    · have := argRoom_mod args.strings
      simp only [argTotal, aligned16, PGSIZE_eq] at *
      omega
    · rw [hregs]
      simp [Phys.setRegs, Phys.store, TF_A1, TF_EPC, TF_SP]
    · rw [hregs]
      simp [Phys.setRegs, Phys.store]
    · rw [← harray]
      exact readAt_congr fun i hi => hview _ (by omega) (by omega)
    · refine hplaced.congr hroom fun va h1 h2 => hview va (by omega) h2
    · intro x hx
      have := argPtrs_bounds hroom hx
      omega
    · exact argPtrs_apart hroom

-- A page that one entry maps can count as a user page of that page table.
theorem Wired.adopt (hw : Wired m role) (ha : (role a).loose = true) (hb : (role b).level = some 0)
    (hv : hasFlag (m b i) PTE_V) (he : PTE2PA (m b i) = a) : Wired m (update role a (.leaf b i)) := by
  have hne : ∀ c l, (role c).level = some l → c ≠ a := by
    rintro c l hl rfl
    simp [Role.level_of_loose ha] at hl
  have hlevel : ∀ c l, (update role a (.leaf b i) c).level = some l ↔ (role c).level = some l := by
    intro c l
    by_cases hc : c = a
    · subst hc
      simp [Role.level_of_loose ha]
    · rw [update_of_ne hc]
  refine ⟨fun c j l hl hv' => ?_, fun c l d j hc => ?_, fun c d j hc => ?_⟩
  · rw [hlevel] at hl
    obtain ⟨hrole, hinner⟩ := hw.down c j l hl hv'
    rw [update_of_ne (hne _ l (by rw [hrole, Role.level_table]))]
    exact ⟨hrole, hinner⟩
  · rw [hlevel]
    rw [update_of_ne (hne c l (by rw [← hlevel, hc, Role.level_table]))] at hc
    exact hw.up c l d j hc
  · rw [hlevel]
    by_cases hca : c = a
    · rw [hca, update_self, Role.leaf.injEq] at hc
      rw [← hc.1, ← hc.2, hca]
      exact ⟨hb, hv, he⟩
    · rw [update_of_ne hca] at hc
      exact hw.back c d j hc

-- A process whose size covers the shared segment can be torn down like any other: the
-- page counts as one of its own then.
theorem KInv.adopt (h : KInv L used true k role) (hp : k.Live p)
    (hshm : k.MapsShm p → SHM_VA < PGROUNDUP (k.procs p).sz) :
    ∃ role', Vm L k.phys role' ∧ role' (k.procs p).trapframe = .frame ∧ Disposable k role' p ∧
      Space L k.phys.mem role' (k.procs p).pagetable (k.procs p).trapframe (PGROUNDUP (k.procs p).sz) := by
  have hspace := h.space p hp
  rw [limit_true] at hspace
  by_cases hmaps : k.MapsShm p
  swap
  · exact ⟨role, h.vm, h.frame p hp,
      h.disposable hp fun va hva hs => hmaps (h.mapsShm_iff.mpr ⟨va, hva, hs⟩), hspace⟩
  have hcover := hshm hmaps
  obtain ⟨halloc, hpte⟩ := hmaps
  have hrole : role k.shm.shared_page = .shared := (h.shared _).mpr ⟨halloc, rfl⟩
  generalize k.shm.shared_page = pa at *
  obtain ⟨c, i, hl, hv, he⟩ := leafPte_eq_some.mp hpte
  have hpage := h.vm.page pa (by simp [hrole]) (by simp [hrole])
  have hentry : PTE2PA (k.phys.mem c i) = pa := by rw [he, PTE2PA_leaf hpage.lt_pow hpage.1 (by decide)]
  have hlow := shm_va_lt
  have hsz := pgroundup_bounds (x := (k.procs p).sz) (by have := h.size rfl p; simp only [TRAPFRAME_eq, MAXVA_eq] at *; omega)
  have hvm : Vm L k.phys (update role pa (.leaf c i)) :=
    ⟨h.vm.alloc_of rfl rfl (free_iff_update (by simp [hrole]) (by simp)) fun _ _ => rfl,
      h.vm.page_of (fun _ hx => update_of_ne hx _ _) fun _ _ => hpage,
      h.vm.wired.adopt (by rw [hrole]; rfl)
        (h.vm.wired.lookup_level (by rw [hspace.top, Role.level_top]) hl) hv hentry⟩
  have hkeep : ∀ a, role a ≠ .shared → update role pa (.leaf c i) a = role a := by
    intro a ha
    apply update_of_ne
    rintro rfl
    exact ha hrole
  have hall : ∀ va, va < TRAPFRAME → leafPte k.phys.mem 2 (k.procs p).pagetable va = none ∨
      va < PGROUNDUP (k.procs p).sz ∧ UserLeaf k.phys.mem (update role pa (.leaf c i)) 2 (k.procs p).pagetable va := by
    intro va hva
    rcases hspace.user va hva with hnone | ⟨hlt, b, j, hl', hv', hleaf⟩ | ⟨hseg, -⟩
    · exact .inl hnone
    · exact .inr ⟨hlt, b, j, hl', hv', by rw [hkeep _ (by simp [hleaf]), hleaf]⟩
    · refine .inr ⟨?_, userLeaf_congr_page (high_not_user hlow.1).1 (high_not_user hva).1 hseg
        ⟨c, i, hl, hv, by rw [hentry, update_self]⟩⟩
      simp only [SHM_VA, PGSIZE_eq] at *
      omega
  refine ⟨_, hvm, by rw [hkeep _ (by simp [h.frame p hp]), h.frame p hp], ⟨by omega, hall⟩,
    by rw [hkeep _ (by simp [hspace.top]), hspace.top], hspace.tramp, hspace.frame, hspace.high,
    fun va hva => (hall va hva).imp id .inl⟩

-- exec() returns -1 on account of its arguments exactly if they do not fit in the stack page. That
-- it would have returned -1 in any case shows in a call without arguments.
theorem exec_passes_arguments (h : KInv L used true k role) (hp : k.Live p)
    (hshm : k.MapsShm p → SHM_VA < PGROUNDUP (k.procs p).sz) (file : Option (List Byte)) (args : Args) :
    ∃ res k' res₀ k₀, exec L p file args.strings k = .ok (res, k') ∧ exec L p file [] k = .ok (res₀, k₀) ∧
      (res = -1 ↔ res₀ = -1 ∨ USERSTACK * PGSIZE < argTotal args.strings) ∧
      (res ≠ -1 → res = args.strings.length ∧ Passed k' p args.strings) := by
  obtain ⟨role', hvm, hframe, hd, hspace⟩ := h.adopt hp hshm
  rcases hvm.exec_run hspace hframe hd file with ⟨k', hno⟩ | hrun
  · exact ⟨-1, k', -1, k', hno _, hno _, by simp, by simp⟩
  have hnone := hrun ⟨[], by decide, by simp, by simp⟩
  rw [if_pos (by decide)] at hnone
  obtain ⟨k₀, hok₀, -⟩ := hnone
  have hargs := hrun args
  split at hargs
  next hfits =>
    obtain ⟨k', hok, hpassed⟩ := hargs
    refine ⟨_, k', _, k₀, hok, hok₀, iff_of_false (by omega) ?_, fun _ => ⟨rfl, hpassed⟩⟩
    simp only [List.length_nil]
    omega
  next hbig =>
    obtain ⟨k', hok⟩ := hargs
    exact ⟨-1, k', _, k₀, hok, hok₀, iff_of_true rfl (.inr (by omega)), by simp⟩

theorem exec_passes_arguments_sample : ∃ k p, ∀ file (args : Args), ∃ res k' res₀ k₀,
    exec sampleLayout p file args.strings k = .ok (res, k') ∧ exec sampleLayout p file [] k = .ok (res₀, k₀) ∧
      (res = -1 ↔ res₀ = -1 ∨ USERSTACK * PGSIZE < argTotal args.strings) ∧
      (res ≠ -1 → res = args.strings.length ∧ Passed k' p args.strings) := by
  obtain ⟨k, hreach, hlive⟩ := exists_forked
  obtain ⟨⟨role, hinv⟩, hshm⟩ := bounded_inv hreach
  exact ⟨k, _, exec_passes_arguments hinv hlive fun hmaps => by simp [hmaps.1] at hshm⟩

end Xv6
