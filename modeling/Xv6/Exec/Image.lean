import Xv6.Exec
import Xv6.Proc.Calls

namespace Xv6

open Lib List

variable {L : Layout} {s t : Phys} {m₀ : Mem} {role₀ role role' : Nat → Role} {r tf sz : Nat}

-- The page table r that exec() builds beside everything else (m₀, role₀): user
-- pages from 0 to sz without a gap, and none above.
structure Image (L : Layout) (m₀ : Mem) (role₀ : Nat → Role) (tf : Nat) (s : Phys) (role : Nat → Role)
    (r sz : Nat) : Prop where
  vm : Vm L s role
  space : Space L s.mem role r tf (PGROUNDUP sz)
  frame : Frame (· = r) m₀ role₀ s.mem role
  user : ∀ va, va < PGROUNDUP sz → UserLeaf s.mem role 2 r va
  rest : ∀ va, PGROUNDUP sz ≤ va → va < TRAPFRAME → leafPte s.mem 2 r va = none
  small : sz ≤ 0x8000000

def Open (m : Mem) (r lo hi : Nat) : Prop :=
  ∀ va, lo ≤ va → va < hi → ∃ e, leafPte m 2 r va = some e ∧ hasFlag e PTE_U

theorem Image.bounds (h : Image L m₀ role₀ tf s role r sz) :
    sz ≤ PGROUNDUP sz ∧ PGROUNDUP sz < sz + PGSIZE ∧ PGROUNDUP sz % PGSIZE = 0 ∧
      PGROUNDUP sz ≤ 0x8000000 := by
  have hsmall := h.small
  have hb := pgroundup_bounds (x := sz) (by simp only [MAXVA_eq]; omega)
  simp only [PGSIZE_eq] at *
  omega

theorem Image.grows (h : Image L m₀ role₀ tf s role r sz) (hg : Grows L s role t role' r 0) :
    Image L m₀ role₀ tf t role' r sz := by
  have hb := h.bounds
  refine ⟨hg.edit.vm, h.space.grows hg (Nat.zero_le _) fun _ _ hlt => by omega,
    h.frame.trans hg.edit.frame, fun va hva => ?_, fun va hlo hhi => ?_, h.small⟩
  · have hu := h.user va hva
    exact (hg.keep va (by omega) hu.mapped).2 hu
  · exact (hg.new va (high_not_user hhi).1 (h.rest va hlo hhi)).resolve_right fun hn => by omega

theorem Open.grows (h : Open s.mem r lo hi) (hhi : hi ≤ 2 ^ 39) (hg : Grows L s role t role' r sz) :
    Open t.mem r lo hi := by
  intro va hlo hlt
  obtain ⟨e, he, hu⟩ := h va hlo hlt
  exact ⟨e, by rw [(hg.keep va (by omega) (by simp [he])).1, he], hu⟩

theorem Image.edit (h : Image L m₀ role₀ tf s role r sz) {P : Nat → Prop}
    (he : Edit L s role t role' r P) (hsz : sz ≤ sz') (hsmall : sz' ≤ 0x8000000)
    (hP : ∀ va, P va → va < PGROUNDUP sz')
    (huser : ∀ va, va < PGROUNDUP sz' → P va ∨ PGROUNDUP sz ≤ va → UserLeaf t.mem role' 2 r va) :
    Image L m₀ role₀ tf t role' r sz' := by
  have hb := pgroundup_bounds (x := sz') (by simp only [MAXVA_eq]; omega)
  have hmono : PGROUNDUP sz ≤ PGROUNDUP sz' := pgroundup_mono hsz (by simp only [MAXVA_eq]; omega)
  have hlow : ∀ va, va < PGROUNDUP sz' → va < TRAPFRAME := by
    intro va hva
    simp only [TRAPFRAME_eq, PGSIZE_eq] at *
    omega
  have huser' : ∀ va, va < PGROUNDUP sz' → UserLeaf t.mem role' 2 r va := by
    intro va hva
    by_cases hp : P va ∨ PGROUNDUP sz ≤ va
    · exact huser va hva hp
    · simp only [not_or, not_le] at hp
      exact (he.same va (high_not_user (hlow va hva)).1 hp.1).user (h.user va hp.2)
  refine ⟨he.vm, ?_, h.frame.trans he.frame, huser', fun va hlo hhi => ?_, hsmall⟩
  · refine h.space.edit he (fun va hp => hlow va (hP va hp)) (fun va hp => ?_) fun va _ hlt => by omega
    exact .inr (.inl ⟨hP va hp, huser' va (hP va hp)⟩)
  · have hnot : ¬P va := fun hp => by
      have := hP va hp
      omega
    rw [(he.same va (high_not_user hhi).1 hnot).pte, h.rest va (by omega) hhi]

theorem lt_pgroundup_iff (h : x ≤ MAXVA) : va < PGROUNDUP x ↔ PGROUNDDOWN va < x := by
  have hb := pgroundup_bounds h
  have hd := pgrounddown_bounds va
  simp only [PGSIZE_eq] at *
  omega

section

variable (h : Image L m₀ role₀ tf s role r sz) (ho : Open s.mem r 0 (PGROUNDUP sz))
include h ho

theorem Image.uvmalloc_spec (hx : IsFlags xperm) (newsz : Nat) :
    ∃ sz' t role', uvmalloc L r sz newsz xperm s = .ok (sz', t) ∧
      (sz' = 0 ∧ Image L m₀ role₀ tf t role' r sz ∨
       max sz newsz = sz' ∧ Image L m₀ role₀ tf t role' r sz' ∧ Open t.mem r 0 (PGROUNDUP sz') ∧
         ∀ va, PGROUNDUP sz ≤ va → va < PGROUNDUP sz' → ∃ pa,
           leafPte t.mem 2 r va = some (PA2PTE pa ||| (PTE_R ||| PTE_U ||| xperm) ||| PTE_V)) := by
  have hb := h.bounds
  by_cases hlt : newsz < sz
  · exact ⟨sz, s, role, by rw [uvmalloc, if_pos hlt], .inr ⟨by omega, h, ho, fun va h1 h2 => by omega⟩⟩
  obtain ⟨res, halloc, hok⟩ := h.vm.uvmalloc_spec h.space.top hx (Nat.le_of_not_lt hlt)
  rw [hok]
  cases res with
  | error e =>
    exact (halloc.not_stuck (fun va hva _ => h.user va hva) h.rest).elim
  | ok res =>
    cases halloc with
    | @full t role' edit none =>
      refine ⟨0, t, role', rfl, .inl ⟨rfl, h.edit edit (Nat.le_refl _) h.small ?_ ?_⟩⟩
      · intro va hva
        omega
      · intro va hva hp
        omega
    | @done t role' edit was new =>
      -- pages without a gap: there are not enough of them for more
      have hsmall : newsz ≤ 0x8000000 := by
        apply edit.vm.user_bound edit.top
        intro va hva h39
        by_cases hold : PGROUNDUP sz ≤ va
        · have hd := pgrounddown_bounds va
          exact (new va ⟨hold, by omega⟩).1
        · exact (edit.same va h39 fun hp => hold hp.1).user (h.user va (by omega))
      have hmax : newsz ≤ MAXVA := by
        simp only [MAXVA_eq]
        omega
      refine ⟨newsz, t, role', rfl, .inr ⟨by omega, h.edit edit (by omega) hsmall ?_ ?_, ?_,
        fun va h1 h2 => (new va ⟨h1, (lt_pgroundup_iff hmax).mp h2⟩).2⟩⟩
      · exact fun va hp => (lt_pgroundup_iff hmax).mpr hp.2
      · rintro va hva (hp | hlo)
        · exact (new va hp).1
        · exact (new va ⟨hlo, (lt_pgroundup_iff hmax).mp hva⟩).1
      · intro va _ hva
        by_cases hold : PGROUNDUP sz ≤ va
        · obtain ⟨-, pa, hpte⟩ := new va ⟨hold, (lt_pgroundup_iff hmax).mp hva⟩
          refine ⟨_, hpte, ?_⟩
          rw [has_leaf (by decide) (by decide), has_or, has_or]
          exact .inl (.inr (by decide))
        · obtain ⟨e, he, hu⟩ := ho va (Nat.zero_le _) (by omega)
          refine ⟨e, ?_, hu⟩
          rw [(edit.same va (by omega) fun hp => hold hp.1).pte, he]

theorem Image.write (va : Nat) (hva : va < PGROUNDUP sz) :
    ∃ pa, walkaddr r va s = .ok pa ∧ pa ≠ 0 ∧ ∀ off bytes,
      Grows L s role (s.writeBytes pa off bytes) role r 0 := by
  have hb := h.bounds
  obtain ⟨e, he, hu⟩ := ho va (Nat.zero_le _) hva
  have huser := h.user va hva
  obtain ⟨c, i, -, hrole⟩ := huser.owner he
  have hpage := h.vm.page (PTE2PA e) (by simp [hrole]) (by simp [hrole])
  refine ⟨PTE2PA e, ?_, Nat.ne_of_gt hpage.pos, fun off bytes => ?_⟩
  · rw [walkaddr_eq (by simp only [MAXVA_eq]; omega), he]
    simp only [if_pos hu]
  · exact h.vm.writeUser h.space.top he (.inl huser) (fills_writeBytes s _ off bytes) 0

theorem Image.loadsegLoop_spec (hva : va + fsz ≤ sz) (file : List Byte) (off turns i : Nat)
    (hi : ∀ j, j < turns → i + j * PGSIZE < fsz) :
    ∃ res t, loadsegLoop r va file off fsz turns i s = .ok (res, t) ∧
      Image L m₀ role₀ tf t role r sz ∧ Open t.mem r 0 (PGROUNDUP sz) := by
  have hb := h.bounds
  induction turns generalizing i s with
  | zero => exact ⟨0, s, rfl, h, ho⟩
  | succ turns ih =>
    have hlt : i < fsz := by
      have := hi 0 (by omega)
      omega
    have hwrap : wrap64 (va + i) = va + i := wrap64_eq_of_lt (by omega)
    obtain ⟨pa, hpa, hne, hwrite⟩ := h.write ho (va + i) (by omega)
    have hg := hwrite 0 (readi file (wrapU32 (off + i)) (min (fsz - i) PGSIZE))
    have hopen := ho.grows (by omega) hg
    simp only [loadsegLoop, hwrap, hpa, ok_bind, if_neg hne]
    split
    · exact ⟨-1, _, rfl, h.grows hg, hopen⟩
    · refine ih (h.grows hg) hopen (i + PGSIZE) fun j hj => ?_
      have hnext := hi (j + 1) (by omega)
      simp only [PGSIZE_eq] at *
      omega

theorem Image.loadseg_spec (hva : va + fsz ≤ sz) (file : List Byte) (off : Nat) :
    ∃ res t, loadseg r va file off fsz s = .ok (res, t) ∧
      Image L m₀ role₀ tf t role r sz ∧ Open t.mem r 0 (PGROUNDUP sz) := by
  apply h.loadsegLoop_spec ho hva
  intro j hj
  simp only [PGSIZE_eq] at *
  omega

end

theorem isFlags_flags2perm (flags : Nat) : IsFlags (flags2perm flags) := by
  simp only [flags2perm]
  split <;> split <;> decide

theorem Image.loadSegment_spec (h : Image L m₀ role₀ tf s role r sz)
    (ho : Open s.mem r 0 (PGROUNDUP sz)) (file : List Byte) (ph : ProgHdr)
    (hv : ph.vaddr < 2 ^ 64) (hm : ph.memsz < 2 ^ 64) :
    ∃ ok sz' t role', loadSegment L r file ph sz s = .ok (ok, sz', t) ∧
      Image L m₀ role₀ tf t role' r sz' ∧ (ok = true → Open t.mem r 0 (PGROUNDUP sz')) := by
  rw [loadSegment]
  split
  · exact ⟨false, sz, s, role, rfl, h, by simp⟩
  split
  · exact ⟨false, sz, s, role, rfl, h, by simp⟩
  split
  · exact ⟨false, sz, s, role, rfl, h, by simp⟩
  next hmem hwrap halign =>
    obtain ⟨sz', t, role', hok, hres⟩ := h.uvmalloc_spec ho (isFlags_flags2perm ph.flags)
      (wrap64 (ph.vaddr + ph.memsz))
    simp only [hok, ok_bind]
    split
    next hzero =>
      rcases hres with ⟨-, himage⟩ | ⟨hmax, himage, -, -⟩
      · exact ⟨false, sz, t, role', rfl, himage, by simp⟩
      · have hsz : sz = sz' := by omega
        rw [← hsz] at himage
        exact ⟨false, sz, t, role', rfl, himage, by simp⟩
    next hzero =>
      obtain ⟨hmax, himage, hopen, -⟩ := hres.resolve_left fun h0 => hzero h0.1
      -- no wrap, so that the segment ends where the image does
      have hfits : ph.vaddr + wrapU32 ph.filesz ≤ sz' := by
        have hle : wrapU32 ph.filesz ≤ ph.filesz := Nat.mod_le ..
        have hsum : wrap64 (ph.vaddr + ph.memsz) = ph.vaddr + ph.memsz := by
          simp only [wrap64] at *
          omega
        omega
      obtain ⟨res, u, hload, himage', hopen'⟩ := himage.loadseg_spec hopen hfits file (wrapU32 ph.off)
      refine ⟨decide (0 ≤ res), sz', u, role', ?_, himage', fun _ => hopen'⟩
      simp only [hload, ok_bind, pure_eq_ok]

theorem field_lt (bytes : List Byte) (off n : Nat) : field bytes off n < 256 ^ n := by
  rw [field]
  have hlen : ((bytes.drop off).take n).length ≤ n := length_take_le ..
  generalize (bytes.drop off).take n = part at hlen
  induction part generalizing n with
  | nil => exact Nat.pow_pos (by omega)
  | cons b rest ih =>
    obtain ⟨n, rfl⟩ : ∃ n', n = n' + 1 := ⟨n - 1, by simp at hlen; omega⟩
    have hrest := ih n (by simpa using hlen)
    have hb : b.toNat < 256 := b.isLt
    rw [foldr_cons, Nat.pow_succ]
    omega

theorem Image.loadSegments_spec (h : Image L m₀ role₀ tf s role r sz)
    (ho : Open s.mem r 0 (PGROUNDUP sz)) (file : List Byte) (n : Nat) (off : Int) :
    ∃ ok sz' t role', loadSegments L r file n off sz s = .ok (ok, sz', t) ∧
      Image L m₀ role₀ tf t role' r sz' ∧ (ok = true → Open t.mem r 0 (PGROUNDUP sz')) := by
  induction n generalizing off sz s role with
  | zero => exact ⟨true, sz, s, role, rfl, h, fun _ => ho⟩
  | succ n ih =>
    simp only [loadSegments]
    generalize readi file (wrapU32 (toU64 off)) PROGHDR_SIZE = bytes
    split
    · exact ⟨false, sz, s, role, rfl, h, by simp⟩
    split
    · exact ih h ho _
    · obtain ⟨ok, sz', t, role', hok, himage, hopen⟩ := h.loadSegment_spec ho file (progHdr bytes)
        (field_lt bytes 16 8) (field_lt bytes 40 8)
      simp only [hok, ok_bind]
      cases ok with
      | true => exact ih himage (hopen rfl) _
      | false => exact ⟨false, sz', t, role', rfl, himage, by simp⟩

-- The stack page of an image, with the entry e for it.
structure OnStack (m : Mem) (r sz : Nat) (e : Pte) : Prop where
  mapped : ∀ va, sz - USERSTACK * PGSIZE ≤ va → va < sz → leafPte m 2 r va = some e
  user : hasFlag e PTE_U
  write : hasFlag e PTE_W

def stackByte (m : Mem) (sz : Nat) (e : Pte) (va : Nat) : Byte :=
  pageByte (m (PTE2PA e)) (va - (sz - USERSTACK * PGSIZE))

theorem Image.copyout_spec (h : Image L m₀ role₀ tf s role r sz) (ho : OnStack s.mem r sz e) (p : Self)
    (src : List Byte) (hsz : sz % PGSIZE = 0) (hlow : 2 * PGSIZE ≤ sz) (hlo : sz - USERSTACK * PGSIZE ≤ sp)
    (hhi : sp + src.length ≤ sz) (hsrc : src ≠ []) :
    ∃ t, copyout L p r sp src s = .ok (0, t) ∧ Image L m₀ role₀ tf t role r sz ∧ OnStack t.mem r sz e ∧
      ∀ va, sz - USERSTACK * PGSIZE ≤ va → va < sz →
        stackByte t.mem sz e va = writeAt (stackByte s.mem sz e) sp src va := by
  have hb := h.bounds
  have hpos := length_pos_iff.mpr hsrc
  have hdown : PGROUNDDOWN sp = sz - USERSTACK * PGSIZE := by
    simp only [PGROUNDDOWN, USERSTACK, PGSIZE_eq] at *
    omega
  have hpte := ho.mapped _ (Nat.le_refl _) (show sz - USERSTACK * PGSIZE < sz by omega)
  have hlt : sz - USERSTACK * PGSIZE < PGROUNDUP sz := by omega
  have huser := h.user _ hlt
  obtain ⟨c, i, -, hrole⟩ := huser.owner hpte
  have hpage := h.vm.page (PTE2PA e) (by simp [hrole]) (by simp [hrole])
  have hg := h.vm.writeUser h.space.top hpte (.inl huser)
    (fills_writeBytes s _ (sp - (sz - USERSTACK * PGSIZE)) src) 0
  refine ⟨_, ?_, h.grows hg, ⟨fun va h1 h2 => ?_, ho.user, ho.write⟩, fun va h1 h2 => ?_⟩
  · rw [← hdown]
    refine copyout_page (by rwa [hdown]) (by simp only [MAXVA_eq]; omega) ho.user ho.write
      (Nat.ne_of_gt hpage.pos) hsrc ?_ p
    simp only [USERSTACK, PGSIZE_eq] at *
    omega
  · rw [(hg.keep va (by omega) (by simp [ho.mapped va h1 h2])).1, ho.mapped va h1 h2]
  · rw [stackByte, pageByte_writeBytes _ _ _ _ (by simp only [USERSTACK, PGSIZE_eq] at *; omega), writeAt, writeAt,
      show va - (sz - USERSTACK * PGSIZE) - (sp - (sz - USERSTACK * PGSIZE)) = va - sp by omega]
    simp only [stackByte, show sp - (sz - USERSTACK * PGSIZE) ≤ va - (sz - USERSTACK * PGSIZE) ↔ sp ≤ va by omega]

theorem sub64_eq (h : b ≤ a) (ha : a < 2 ^ 64) : sub64 a b = a - b := by
  simp only [sub64, wrap64]
  omega

-- The room that n bytes take on the stack, the strings of argv, and these with the array.
def aligned16 (n : Nat) : Nat := (n + 15) / 16 * 16

def argRoom : List (List Byte) → Nat
  | [] => 0
  | arg :: argv => aligned16 (arg.length + 1) + argRoom argv

def argTotal (argv : List (List Byte)) : Nat := argRoom argv + aligned16 (8 * (argv.length + 1))

-- Where the strings go from sp down.
def argPtrs : List (List Byte) → Nat → List Nat
  | [], _ => []
  | arg :: argv, sp => (sp - aligned16 (arg.length + 1)) :: argPtrs argv (sp - aligned16 (arg.length + 1))

theorem argPtrs_bounds (h : argRoom argv ≤ sp) (hx : x ∈ (argPtrs argv sp).zip argv) :
    sp - argRoom argv ≤ x.1 ∧ x.1 + x.2.length + 1 ≤ sp := by
  induction argv generalizing sp with
  | nil => simp [argPtrs] at hx
  | cons arg argv ih =>
    have hroom : arg.length + 1 ≤ aligned16 (arg.length + 1) := by
      simp only [aligned16]
      omega
    simp only [argRoom, argPtrs, zip_cons_cons, mem_cons] at h hx ⊢
    rcases hx with rfl | hx
    · simp only
      omega
    · have := ih (by omega) hx
      omega

theorem length_argPtrs (argv : List (List Byte)) (sp : Nat) : (argPtrs argv sp).length = argv.length := by
  induction argv generalizing sp with
  | nil => rfl
  | cons arg argv ih => rw [argPtrs, length_cons, length_cons, ih]

theorem argRoom_mod (argv : List (List Byte)) : argRoom argv % 16 = 0 := by
  induction argv with
  | nil => rfl
  | cons arg argv ih =>
    simp only [argRoom, aligned16]
    omega

-- The strings of argv are in the bytes f where they belong.
def Placed (f : Nat → Byte) (argv : List (List Byte)) (sp : Nat) : Prop :=
  ∀ x ∈ (argPtrs argv sp).zip argv, readAt f x.1 (x.2.length + 1) = x.2 ++ [0#8]

theorem Placed.congr (h : Placed f argv sp) (hroom : argRoom argv ≤ sp)
    (hfg : ∀ va, sp - argRoom argv ≤ va → va < sp → g va = f va) : Placed g argv sp := by
  intro x hx
  have hb := argPtrs_bounds hroom hx
  rw [← h x hx]
  exact readAt_congr fun i hi => hfg _ (by omega) (by omega)

theorem sub_aligned (hsp : sp % 16 = 0) (hn : n ≤ sp) : sp - n - (sp - n) % 16 = sp - aligned16 n := by
  simp only [aligned16]
  omega

theorem Image.pushArgs_spec (h : Image L m₀ role₀ tf s role r sz) (ho : OnStack s.mem r sz e) (p : Self)
    (hsz : sz % PGSIZE = 0) (hlow : 2 * PGSIZE ≤ sz) (argv : List (List Byte))
    (hargv : ∀ arg ∈ argv, arg.length < PGSIZE) (hsp : sp % 16 = 0) (hlo : sz - USERSTACK * PGSIZE ≤ sp)
    (hhi : sp ≤ sz) (ustack : List Nat) (hfew : ustack.length + argv.length < MAXARG) :
    ∃ pushed t, pushArgs L p r (sz - USERSTACK * PGSIZE) argv sp ustack s = .ok (pushed, t) ∧
      Image L m₀ role₀ tf t role r sz ∧ OnStack t.mem r sz e ∧
      (pushed = none ∧ sp < sz - USERSTACK * PGSIZE + argRoom argv ∨
        pushed = some (sp - argRoom argv, ustack ++ argPtrs argv sp) ∧
        sz - USERSTACK * PGSIZE + argRoom argv ≤ sp ∧ Placed (stackByte t.mem sz e) argv sp ∧
        ∀ va, sp ≤ va → va < sz → stackByte t.mem sz e va = stackByte s.mem sz e va) := by
  induction argv generalizing sp ustack s with
  | nil =>
    exact ⟨some (sp, ustack), s, rfl, h, ho, .inr ⟨by simp [argPtrs, argRoom], by simpa [argRoom] using hlo,
      by simp [Placed, argPtrs], fun _ _ _ => rfl⟩⟩
  | cons arg argv ih =>
    have hb := h.bounds
    have harg := hargv arg (by simp)
    have hbase : PGSIZE ≤ sz - USERSTACK * PGSIZE := by
      simp only [USERSTACK, PGSIZE_eq] at *
      omega
    have hle : arg.length + 1 ≤ sp := by omega
    rw [length_cons] at hfew
    simp only [pushArgs, sub64_eq hle (by omega), sub_aligned hsp hle, if_neg (show ¬MAXARG ≤ ustack.length by omega)]
    simp only [argRoom, argPtrs]
    have hroom : arg.length + 1 ≤ aligned16 (arg.length + 1) := by
      simp only [aligned16]
      omega
    split
    · exact ⟨none, s, rfl, h, ho, .inl ⟨rfl, by omega⟩⟩
    next hge =>
      have hsp' : (sp - aligned16 (arg.length + 1)) % 16 = 0 := by
        simp only [aligned16] at *
        omega
      obtain ⟨t, hok, himage, hstack, hbytes⟩ := h.copyout_spec ho p (arg ++ [0#8]) hsz hlow
        (Nat.le_of_not_lt hge) (by simp only [length_append, length_singleton]; omega) (by simp)
      obtain ⟨pushed, u, hok', himage', hstack', hres⟩ := ih himage hstack
        (fun a ha => hargv a (by simp [ha])) hsp' (Nat.le_of_not_lt hge) (by omega)
        (ustack ++ [sp - aligned16 (arg.length + 1)]) (by simp; omega)
      refine ⟨pushed, u, ?_, himage', hstack', ?_⟩
      · simp only [hok, ok_bind, show ¬((0 : Int) < 0) from by decide, if_false, hok']
      rcases hres with ⟨rfl, hno⟩ | ⟨rfl, hfit, hplaced, hkeep⟩
      · exact .inl ⟨rfl, by omega⟩
      · -- what is pushed later lies below the string
        have hstring : ∀ va, sp - aligned16 (arg.length + 1) ≤ va → va < sz →
            stackByte u.mem sz e va =
              writeAt (stackByte s.mem sz e) (sp - aligned16 (arg.length + 1)) (arg ++ [0#8]) va := by
          intro va h1 h2
          rw [hkeep va h1 h2, hbytes va (by omega) h2]
        refine .inr ⟨by rw [Nat.sub_sub, append_assoc, singleton_append], by omega, ?_, fun va h1 h2 => ?_⟩
        · intro x hx
          rw [argPtrs, zip_cons_cons, mem_cons] at hx
          rcases hx with rfl | hx
          · have hread := readAt_writeAt (stackByte s.mem sz e) (arg ++ [0#8]) (sp - aligned16 (arg.length + 1))
            rw [length_append, length_singleton] at hread
            show readAt _ _ (arg.length + 1) = arg ++ [0#8]
            rw [← hread]
            exact readAt_congr fun i hi => hstring _ (by omega) (by omega)
          · exact hplaced x hx
        · rw [hstring va (by omega) h2]
          exact writeAt_outside _ _ (.inl (by simp only [length_append, length_singleton]; omega))

theorem length_ustackBytes (ustack : List Nat) : (ustackBytes ustack).length = 8 * ustack.length := by
  induction ustack with
  | nil => rfl
  | cons a ustack ih =>
    rw [ustackBytes] at ih ⊢
    simp only [flatMap_cons, length_append, length_map, length_range, ih,
      length_cons]
    omega

theorem Image.pushStack_spec (h : Image L m₀ role₀ tf s role r sz) (ho : OnStack s.mem r sz e) (p : Self)
    (hsz : sz % PGSIZE = 0) (hlow : 2 * PGSIZE ≤ sz) (args : Args) :
    ∃ sp t, pushStack L p r sz args.strings s = .ok (sp, t) ∧ Image L m₀ role₀ tf t role r sz ∧
      OnStack t.mem r sz e ∧ (sp = none ∧ USERSTACK * PGSIZE < argTotal args.strings ∨
        sp = some (sz - argTotal args.strings) ∧ argTotal args.strings ≤ USERSTACK * PGSIZE ∧
        Placed (stackByte t.mem sz e) args.strings sz ∧
        readAt (stackByte t.mem sz e) (sz - argTotal args.strings) (8 * (args.strings.length + 1)) =
          ustackBytes (argPtrs args.strings sz ++ [0])) := by
  have hb := h.bounds
  have hfew := args.few
  obtain ⟨pushed, t, hok, himage, hstack, hres⟩ := h.pushArgs_spec ho p hsz hlow args.strings args.short
    (by simp only [PGSIZE_eq] at hsz; omega) (by omega) (Nat.le_refl sz) [] (by simpa using hfew)
  simp only [nil_append] at hres
  rw [pushStack, hok, ok_bind, argTotal]
  rcases hres with ⟨rfl, hno⟩ | ⟨rfl, hfit, hplaced, -⟩
  · refine ⟨none, t, rfl, himage, hstack, .inl ⟨rfl, ?_⟩⟩
    simp only [USERSTACK, PGSIZE_eq] at *
    omega
  have hlen := length_argPtrs args.strings sz
  have hroom : (args.strings.length + 1) * 8 ≤ aligned16 (8 * (args.strings.length + 1)) ∧
      aligned16 (8 * (args.strings.length + 1)) ≤ PGSIZE := by
    simp only [aligned16, MAXARG, PGSIZE_eq] at *
    omega
  have hbase : PGSIZE ≤ sz - USERSTACK * PGSIZE := by
    simp only [USERSTACK, PGSIZE_eq] at *
    omega
  have hle : (args.strings.length + 1) * 8 ≤ sz - argRoom args.strings := by omega
  have hsp : (sz - argRoom args.strings) % 16 = 0 := by
    have := argRoom_mod args.strings
    simp only [PGSIZE_eq] at *
    omega
  simp only [pushUstack, hlen, sub64_eq hle (by omega), sub_aligned hsp hle]
  rw [Nat.mul_comm (args.strings.length + 1), Nat.sub_sub]
  split
  · exact ⟨none, t, rfl, himage, hstack, .inl ⟨rfl, by omega⟩⟩
  next hge =>
    have hbytes : (ustackBytes (argPtrs args.strings sz ++ [0])).length = 8 * (args.strings.length + 1) := by
      rw [length_ustackBytes, length_append, length_singleton, hlen]
    obtain ⟨u, hcopy, himage', hstack', hwrite⟩ := himage.copyout_spec hstack p
      (ustackBytes (argPtrs args.strings sz ++ [0])) hsz hlow (Nat.le_of_not_lt hge) (by omega) (by
        intro hnil
        rw [hnil] at hbytes
        simp at hbytes)
    simp only [hcopy, ok_bind, show ¬((0 : Int) < 0) from by decide, if_false, pure_eq_ok]
    refine ⟨_, u, rfl, himage', hstack', .inr ⟨rfl, by omega, hplaced.congr (by omega) fun va h1 h2 => ?_, ?_⟩⟩
    · rw [hwrite va (by omega) h2]
      exact writeAt_outside _ _ (.inl (by omega))
    · have hread := readAt_writeAt (stackByte t.mem sz e) (ustackBytes (argPtrs args.strings sz ++ [0]))
        (sz - (argRoom args.strings + aligned16 (8 * (args.strings.length + 1))))
      rw [hbytes] at hread
      rw [← hread]
      exact readAt_congr fun i hi => hwrite _ (by omega) (by omega)

theorem Image.uvmclear_spec (h : Image L m₀ role₀ tf s role r sz) (hsz : sz % PGSIZE = 0) (hlow : 2 * PGSIZE ≤ sz) :
    ∃ t, uvmclear r (sz - (USERSTACK + 1) * PGSIZE) s = .ok t ∧
      Image L m₀ role₀ tf t role r sz ∧ ∀ va, sz - USERSTACK * PGSIZE ≤ va → va < sz →
        leafPte t.mem 2 r va = leafPte s.mem 2 r va := by
  have hb := h.bounds
  have hguard : sz - (USERSTACK + 1) * PGSIZE < PGROUNDUP sz ∧
      ∀ va, va / PGSIZE = (sz - (USERSTACK + 1) * PGSIZE) / PGSIZE →
        va < PGROUNDUP sz ∧ va < sz - USERSTACK * PGSIZE := by
    simp only [USERSTACK, PGSIZE_eq] at *
    refine ⟨by omega, fun va hva => by omega⟩
  generalize sz - (USERSTACK + 1) * PGSIZE = guard at hguard
  obtain ⟨hlt, hpage⟩ := hguard
  rcases h.vm.uvmclear_spec h.space.top guard with ⟨e, -, ⟨hmax, -⟩ | ⟨hnone, -⟩⟩ |
    ⟨t, hok, hmax, hedit, hclear⟩
  · simp only [MAXVA_eq] at hmax
    omega
  · exact absurd hnone (h.user guard hlt).mapped
  · refine ⟨t, hok, h.edit hedit (Nat.le_refl _) h.small (fun va hva => (hpage va hva).1) ?_, ?_⟩
    · rintro va hva (hp | hlo)
      · exact (hclear va (by omega) hp).2 (h.user va hva)
      · omega
    · intro va hlo hhi
      refine (hedit.same va (by omega) fun hp => ?_).pte
      have := (hpage va hp).2
      omega

theorem Image.execImage_cases (h : Image L m₀ role₀ tf s role r 0) (p : Self) (file : List Byte) (elf : ElfHdr) :
    ∃ sz t role', Image L m₀ role₀ tf t role' r sz ∧
      ((∀ argv, execImage L p r file elf argv s = .ok (none, sz, t)) ∨
        ∃ e, sz % PGSIZE = 0 ∧ 2 * PGSIZE ≤ sz ∧ OnStack t.mem r sz e ∧
          ∀ argv, execImage L p r file elf argv s = (do
            let (sp, s) ← pushStack L p r sz argv t
            return (sp, sz, s))) := by
  have hzero : PGROUNDUP 0 = 0 := by decide
  have hopen : Open s.mem r 0 (PGROUNDUP 0) := by
    intro va _ hva
    omega
  obtain ⟨ok, sz, t, role', hload, himage, hres⟩ := h.loadSegments_spec hopen file elf.phnum
    (wrap32 elf.phoff)
  simp only [execImage, hload, ok_bind]
  cases ok with
  | false => exact ⟨sz, t, role', himage, .inl fun _ => rfl⟩
  | true =>
    have hb := himage.bounds
    have hround : PGROUNDUP (PGROUNDUP sz) = PGROUNDUP sz :=
      pgroundup_aligned (by simp only [MAXVA_eq]; omega) hb.2.2.1
    have himage' : Image L m₀ role₀ tf t role' r (PGROUNDUP sz) :=
      ⟨himage.vm, by rw [hround]; exact himage.space, himage.frame, by rw [hround]; exact himage.user,
        by rw [hround]; exact himage.rest, hb.2.2.2⟩
    have hopen' := hres rfl
    rw [← hround] at hopen'
    generalize PGROUNDUP sz = sz at himage' hopen' hb hround
    have hwrap : wrap64 (sz + (USERSTACK + 1) * PGSIZE) = sz + (USERSTACK + 1) * PGSIZE := by
      apply wrap64_eq_of_lt
      simp only [USERSTACK, PGSIZE_eq]
      omega
    obtain ⟨sz1, u, ρ, hok, hstack⟩ := himage'.uvmalloc_spec hopen' (show IsFlags PTE_W by decide)
      (wrap64 (sz + (USERSTACK + 1) * PGSIZE))
    simp only [Bool.true_eq_false, if_false, hok, ok_bind]
    split
    next hsz1 =>
      rcases hstack with ⟨-, himage''⟩ | ⟨hmax, -⟩
      · exact ⟨sz, u, ρ, himage'', .inl fun _ => rfl⟩
      · rw [hwrap] at hmax
        simp only [USERSTACK, PGSIZE_eq] at hmax
        omega
    next hsz1 =>
      obtain ⟨hmax, himage'', -, hnew⟩ := hstack.resolve_left fun h0 => hsz1 h0.1
      have hb1 := himage''.bounds
      rw [hwrap] at hmax
      have hsz1' : sz1 % PGSIZE = 0 ∧ 2 * PGSIZE ≤ sz1 ∧ sz1 - USERSTACK * PGSIZE < sz1 ∧
          PGROUNDUP sz ≤ sz1 - USERSTACK * PGSIZE := by
        rw [hround]
        simp only [USERSTACK, PGSIZE_eq] at *
        omega
      obtain ⟨v, hclear, himage₃, hkeep⟩ := himage''.uvmclear_spec hsz1'.1 hsz1'.2.1
      obtain ⟨pa, hpte⟩ := hnew (sz1 - USERSTACK * PGSIZE) hsz1'.2.2.2 (by omega)
      refine ⟨sz1, v, ρ, himage₃, .inr ⟨PA2PTE pa ||| (PTE_R ||| PTE_U ||| PTE_W) ||| PTE_V,
        hsz1'.1, hsz1'.2.1, ⟨fun va h1 h2 => ?_, ?_, ?_⟩, fun argv => ?_⟩⟩
      · rw [hkeep va h1 h2, ← hpte]
        refine leafPte_congr_page (by omega) (by omega) ?_
        simp only [USERSTACK, PGSIZE_eq] at *
        omega
      · exact (has_leaf (by decide) (by decide)).mpr (by decide)
      · exact (has_leaf (by decide) (by decide)).mpr (by decide)
      · simp only [hclear, ok_bind]

theorem Image.execImage_spec (h : Image L m₀ role₀ tf s role r 0) (p : Self) (file : List Byte)
    (elf : ElfHdr) (args : Args) :
    ∃ sp sz t role', execImage L p r file elf args.strings s = .ok (sp, sz, t) ∧
      Image L m₀ role₀ tf t role' r sz := by
  obtain ⟨sz, t, role', himage, hno | ⟨e, hal, hlow, hstack, hpush⟩⟩ := h.execImage_cases p file elf
  · exact ⟨none, sz, t, role', hno _, himage⟩
  · obtain ⟨sp, u, hok, himage', -⟩ := himage.pushStack_spec hstack p hal hlow args
    exact ⟨sp, sz, u, role', by rw [hpush, hok]; rfl, himage'⟩

theorem setRegs_mem (s : Phys) (tf entry sp : Nat) (h : a ≠ tf) :
    (s.setRegs tf entry sp).mem a = s.mem a := by
  simp [Phys.setRegs, Phys.store, h]

section Commit

variable {k : Kernel} {p : Fin NPROC} {old : Nat}

section

variable (h : Image L m₀ role₀ tf s role r sz) (hfree : role₀ r = .free) (hframe : role₀ tf = .frame)
include h hfree hframe

theorem Image.frame_eq : tf ≠ r ∧ role tf = .frame := by
  have hrtf : tf ≠ r := by
    intro heq
    simp [heq, hfree] at hframe
  rw [h.frame.role_eq _ hrtf (.inl (by rw [hframe]; rfl))]
  exact ⟨hrtf, hframe⟩

theorem Image.bad :
    ∃ t role', procFreepagetable L r sz s = .ok t ∧ Vm L t role' ∧
      Frame (fun _ => False) m₀ role₀ t.mem role' := by
  obtain ⟨-, hframe'⟩ := h.frame_eq hfree hframe
  have hb := h.bounds
  obtain ⟨t, role', hok, hvm, hfree', hf⟩ := h.vm.procFreepagetable_spec sz h.space
    (h.vm.page _ (by simp [hframe']) (by simp [hframe'])) (by simp [hframe'])
    (by simp only [MAXVA_eq]; omega) (by
      intro va hva
      by_cases hlt : va < PGROUNDUP sz
      · exact .inr ⟨hlt, h.user va hlt⟩
      · exact .inl (h.rest va (by omega) hva))
  refine ⟨t, role', hok, hvm, (h.frame.trans hf).shrink ?_⟩
  intro x hx _
  left
  simp [hx, hfree, hfree', Role.pinned]

theorem Image.commit (hold : Space L m₀ role₀ old tf lim) (hsz : oldsz ≤ MAXVA)
    (hd : ∀ va, va < TRAPFRAME → leafPte m₀ 2 old va = none ∨ va < PGROUNDUP oldsz ∧ UserLeaf m₀ role₀ 2 old va)
    (entry sp : Nat) :
    ∃ t role', procFreepagetable L old oldsz (s.setRegs tf entry sp) = .ok t ∧ Vm L t role' ∧
      Space L t.mem role' r tf (PGROUNDUP sz) ∧ role' tf = .frame ∧ role' old = .free ∧
      t.mem tf = (s.setRegs tf entry sp).mem tf ∧ (∀ va, Same s.mem role t.mem role' 2 r va) ∧
      Frame (fun x => (x = r ∨ x = tf) ∨ x = old) m₀ role₀ t.mem role' := by
  obtain ⟨hrtf, hframe'⟩ := h.frame_eq hfree hframe
  have hne : old ≠ r ∧ old ≠ tf := by
    have htop := hold.top
    constructor <;> intro heq
    · simp [heq, hfree] at htop
    · simp [heq, hframe] at htop
  -- the registers
  generalize hs' : s.setRegs tf entry sp = s'
  have hmem : ∀ a, a ≠ tf → s'.mem a = s.mem a := by
    intro a ha
    rw [← hs']
    exact setRegs_mem s tf entry sp ha
  have hvm' : Vm L s' role := by
    refine h.vm.write (by rw [← hs']; rfl) (by rw [← hs']; rfl) fun a ha => hmem a ?_
    rintro rfl
    simp [hframe', Role.level] at ha
  have hf1 : Frame (· = tf) s.mem role s'.mem role :=
    h.vm.wired.frame_loose (by rw [hframe']; rfl) hmem fun _ _ => rfl
  have hf2 : Frame (fun x => x = r ∨ x = tf) m₀ role₀ s'.mem role :=
    (h.frame.mono fun _ hx => .inl hx).trans (hf1.mono fun _ hx => .inr hx)
  have hspold : Space L s'.mem role old tf lim := by
    refine hold.frame_of hf2 (by simp [hne]) ?_
    rintro x (rfl | rfl)
    · simp [hfree]
    · simp [hframe]
  obtain ⟨t, role', hok, ht, hgone, hf3⟩ := hvm'.procFreepagetable_spec oldsz hspold
    (h.vm.page _ (by simp [hframe']) (by simp [hframe'])) (by simp [hframe']) hsz (by
      intro va hva
      have hsame := hf2.same old 2 va (by simp [hne]) hold.top
      exact (hd va hva).imp hsame.pte.trans fun hu => ⟨hu.1, hsame.user hu.2⟩)
  have hf1r := fun va => hf1.same r 2 va hrtf.symm h.space.top
  have hf3r := fun va => hf3.same r 2 va hne.1.symm h.space.top
  refine ⟨t, role', hok, ht, ?_, ?_, hgone, hf3.mem_eq tf hne.2.symm (by rw [hframe']; rfl)
    (by rw [hframe']; rfl) (by simp [hframe']), fun va => (hf1r va).trans (hf3r va),
    (hf2.mono fun _ hx => .inl hx).trans (hf3.mono fun _ hx => .inr hx)⟩
  · refine (h.space.frame_of hf1 hrtf.symm ?_).frame_of hf3 hne.1.symm ?_
    · rintro x rfl
      simp [hframe']
    · rintro x rfl
      simp [hspold.top]
  · rw [hf3.role_eq _ hne.2.symm (.inl (by rw [hframe']; rfl)), hframe']

end

theorem KInv.execCommit (h : KInv L used true k role) (hp : k.Live p) (hshm : ¬k.MapsShm p) (hfree : role r = .free)
    (himage : Image L k.phys.mem role (k.procs p).trapframe s role' r sz) (entry sp : Nat) :
    ∃ t role'', procFreepagetable L (k.procs p).pagetable (k.procs p).sz
        (s.setRegs (k.procs p).trapframe entry sp) = .ok t ∧
      KInv L used true { k.setProc p { k.procs p with pagetable := r, sz := sz } with phys := t } role'' ∧
      Untouched p k { k.setProc p { k.procs p with pagetable := r, sz := sz } with phys := t } := by
  have hslot := h.slot hp
  have hd := h.disposable hp fun va hva hs => hshm (h.mapsShm_iff.mpr ⟨va, hva, hs⟩)
  have hprivate : Private k role p (fun _ => .free) (k.procs p).pagetable := h.private_root hp (by simp)
  obtain ⟨t, role'', hok, ht, hspace, hframe'', hgone, -, -, htotal⟩ :=
    himage.commit hfree hslot.frame hslot.space hd.1 hd.2 entry sp
  generalize hroot : (k.procs p).pagetable = old at *
  generalize htf : (k.procs p).trapframe = tf at *
  have hX : ∀ x, (x = r ∨ x = tf) ∨ x = old → Private k role p role'' x := by
    rintro x ((rfl | rfl) | rfl)
    · exact h.private_free hfree (by simp [hspace.top])
    · rw [← htf]
      exact h.private_frame hp (by simp [htf, hframe''])
    · exact ⟨hprivate.1, by simp [hgone], hprivate.2.2⟩
  have hsmall := himage.small
  refine ⟨t, role'', hok, h.swap (.setProc p k _ t) ht htotal hX (fun _ => ⟨?_, ?_, ?_, ?_⟩)
    (fun hdead => absurd hp hdead) (fun _ => ?_) ?_, fun _ _ => rfl, fun q hq => k.setProc_of_ne _ hq,
    fun q va hq hl => h.pte_of_frame htotal hX hq hl va,
    fun _ _ _ hq hl => h.data_of_frame htotal hX hq hl, rfl, rfl⟩
  · simp only [Kernel.setProc_self]
    rw [limit_true, htf]
    exact hspace
  · simp only [Kernel.setProc_self]
    rw [htf]
    exact hframe''
  · intro q hq hl
    simp only [Kernel.setProc_self, Kernel.setProc_of_ne k _ hq]
    exact ((hX r (.inl (.inl rfl))).2.2 q hq hl).1
  · intro q hq hl
    simp only [Kernel.setProc_self, Kernel.setProc_of_ne k _ hq]
    exact hslot.frame_ne q hq hl
  · simp only [Kernel.setProc_self, TRAPFRAME_eq]
    omega
  · intro x hpinned hor
    have hx : x = r ∨ x = tf ∨ x = old := by
      rcases hor with (hx | hx) | ⟨-, hx⟩
      · exact hx.imp id .inl
      · exact .inr (.inr hx)
      · rw [hroot, htf] at hx
        exact .inr hx.symm
    simp only [Kernel.setProc_self, htf]
    rcases hx with hx | hx | hx
    · exact ⟨hp, .inl hx⟩
    · exact ⟨hp, .inr hx⟩
    · simp [hx, hgone, Role.pinned] at hpinned

-- exec() never panics and leaves a process in order, whether it fails or not.
theorem KInv.exec_spec (h : KInv L used true k role) (hp : k.Live p) (hshm : ¬k.MapsShm p)
    (file : Option (List Byte)) (args : Args) :
    ∃ res k' role', exec L p file args.strings k = .ok (res, k') ∧ KInv L used true k' role' ∧
      Untouched p k k' ∧ k'.Live p ∧ (res = -1 → ∀ q, Untouched q k k') := by
  have hself := fun q => Untouched.refl q k
  cases file with
  | none => exact ⟨-1, k, role, rfl, h, hself p, hp, fun _ => hself⟩
  | some file =>
    simp only [exec]
    split
    · exact ⟨-1, k, role, rfl, h, hself p, hp, fun _ => hself⟩
    rcases h.vm.procPagetable_spec (k.procs p).trapframe with ⟨t, role', hpt, ht, hf⟩ |
      ⟨r, t, role', hpt, hr0, hfree, ht, hsp, hempty, hf⟩
    · have hu := h.unseen ht hf
      refine ⟨-1, { k with phys := t }, role', ?_, (hu p).1, (hu p).2, hp, fun _ q => (hu q).2⟩
      simp only [hpt, ok_bind, if_true, pure_eq_ok]
    · have hzero : PGROUNDUP 0 = 0 := by decide
      have himage : Image L k.phys.mem role (k.procs p).trapframe t role' r 0 :=
        ⟨ht, hsp _, hf, fun va hva => by omega, fun va _ hva => hempty va hva, Nat.zero_le _⟩
      generalize elfHdr (readi file 0 ELFHDR_SIZE) = elf
      obtain ⟨sp, sz, u, ρ, hexec, himage'⟩ := himage.execImage_spec (k.self p) file elf args
      simp only [hpt, ok_bind, if_neg hr0, hexec]
      cases sp with
      | none =>
        obtain ⟨v, ρ', hok, hvm, hf⟩ := himage'.bad hfree (h.frame p hp)
        have hu := h.unseen hvm hf
        exact ⟨-1, _, ρ', by simp only [hok, ok_bind, pure_eq_ok], (hu p).1, (hu p).2, hp, fun _ q => (hu q).2⟩
      | some sp =>
        obtain ⟨v, ρ', hok, hinv, hu⟩ := h.execCommit hp hshm hfree himage' elf.entry sp
        exact ⟨args.strings.length, _, ρ', by simp only [hok, ok_bind, pure_eq_ok], hinv, hu, hp, by omega⟩

end Commit

end Xv6
