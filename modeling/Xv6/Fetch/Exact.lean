import Xv6.Fetch.Strings
import Xv6.Flat.Transparent
import Xv6.Vm.Supply

namespace Xv6

open Lib

variable {L : Layout} {s t u : Phys} {role : Nat → Role} {p : Self} {tf va n len : Nat} {src bytes : List Byte}

-- The free pages are fewer than it takes to map the page at va, which is below the size.
def Starved (p : Self) (s : Phys) (va : Nat) : Prop :=
  va < p.sz ∧ leafPte s.mem 2 p.pagetable va = none ∧
    ∃ free, Chain s.next 0 s.freelist free ∧ free.length < missing s.mem p.pagetable va

theorem Current.denied_iff (h : Current L s role p tf) (va : Nat) :
    Denied L p s (PGROUNDDOWN va) ↔ Starved p s (PGROUNDDOWN va) := by
  rw [Denied, Starved, pgrounddown_idem]
  refine and_congr_right fun hsz => and_congr_right fun hnone => ?_
  rw [h.vm.vmfault_supply h.space.top (pgrounddown_idem va) (Nat.lt_of_lt_of_le hsz h.max) hsz hnone]
  constructor
  · intro hlt
    obtain ⟨free, hinv⟩ := h.vm.alloc
    exact ⟨free, hinv.chain, by rwa [h.vm.free_length hinv.chain]⟩
  · rintro ⟨free, hc, hlt⟩
    rwa [h.vm.free_length hc] at hlt

section Pages

theorem Current.copyin_data (h : Current L s role p tf) (hok : copyin L p p.pagetable va len s = .ok (res, bytes, t))
    (ha : Data L role a) : t.mem a = s.mem a := by
  have hr := h.space.top
  obtain ⟨res', bytes', t', role', hok', hg⟩ := (h.vm.hush fun _ => true).copyin_spec
    ((hushed_of_table _ (by simp [hr])).trans hr) h.max va len
  rw [hok, Except.ok.injEq, Prod.mk.injEq, Prod.mk.injEq] at hok'
  rw [hok'.2.2]
  exact hg.edit.hushed_data hr ha rfl

theorem Current.copyout_data (h : Current L s role p tf) (hok : copyout L p p.pagetable va src s = .ok (res, t))
    (ha : Data L role a) (hno : ∀ va' e, va' < 2 ^ 39 → leafPte s.mem 2 p.pagetable va' = some e → hasFlag e PTE_U →
      PTE2PA e ≠ a) : t.mem a = s.mem a := by
  have hr := h.space.top
  have hguard : Guarded s.mem (hushed L role (· == a)) p.pagetable := by
    intro va' e h39 he hu
    obtain ⟨hdata, hp⟩ := h.in_use (h.user_lt h39 he hu) he
    right
    rw [hushed_of_data hdata, if_neg]
    simpa using ⟨hno va' e h39 he hu, hp⟩
  obtain ⟨res', t', role', hok', hg⟩ := (h.vm.hush (· == a)).copyout_spec
    ((hushed_of_table _ (by simp [hr])).trans hr) hguard h.max va src
  rw [hok, Except.ok.injEq, Prod.mk.injEq] at hok'
  rw [hok'.2]
  exact hg.edit.hushed_data hr ha (by simp)

theorem Current.copyout_byte (h : Current L s role p tf) (hok : copyout L p p.pagetable va src s = .ok (res, t))
    (hw : Wrote L s role t role' p tf va (src.take n)) (ha : Data L role a) (hoff : off < PGSIZE)
    (hout : ∀ i e, i < n → leafPte t.mem 2 p.pagetable (va + i) = some e → PTE2PA e = a → (va + i) % PGSIZE ≠ off) :
    pageByte (t.mem a) off = pageByte (s.mem a) off := by
  by_cases hmapped : ∃ va' e, va' < 2 ^ 39 ∧ leafPte s.mem 2 p.pagetable va' = some e ∧ hasFlag e PTE_U ∧ PTE2PA e = a
  swap
  · rw [h.copyout_data hok ha fun va' e h39 he hu heq => hmapped ⟨va', e, h39, he, hu, heq⟩]
  obtain ⟨va', e, h39, he, hu, rfl⟩ := hmapped
  have hpage : (PGROUNDDOWN va' + off) / PGSIZE = va' / PGSIZE := by
    simp only [PGROUNDDOWN, PGSIZE_eq] at *
    omega
  have hmod : (PGROUNDDOWN va' + off) % PGSIZE = off := by
    simp only [PGROUNDDOWN, PGSIZE_eq] at *
    omega
  obtain ⟨hlow, hpte⟩ := leafPte_page (m := s.mem) (r := p.pagetable) hpage (h.user_lt h39 he hu)
  rw [he] at hpte
  have hpte' := ((hw.grows.keep _ (high_not_user hlow).1 (by simp [hpte])).1).trans hpte
  have hview := hw.byte _ hlow
  have hlen : (src.take n).length ≤ n := List.length_take_le ..
  rw [writeAt_outside, viewByte_some hpte, viewByte_some hpte', hmod] at hview
  · exact hview
  · by_contra hin
    obtain ⟨i, hi⟩ := Nat.exists_eq_add_of_le (show va ≤ PGROUNDDOWN va' + off by omega)
    rw [hi] at hpte' hmod
    exact hout i e (by omega) hpte' rfl hmod

end Pages

-- A copy that stops at n where the page is not open, or denied after a copy of the first n bytes.
theorem stop_exact {σ : Type} {run D S : Nat → σ → Prop} {O : Nat → Prop} {A : Prop} {len : Nat}
    (hsame : ∀ i u, run i u → (D i u ↔ S i u)) (hn : n ≤ len) (hdone : ∀ i, i < n → O i ∧ ∀ u, run i u → ¬D i u)
    (hstop : n < len → A ∧ (O n → ∃ u, run n u ∧ D n u)) {res : Int} (hres : res = if n = len then 0 else -1) :
    (res = 0 ∧ n = len ∨ res = -1 ∧ n < len ∧ A ∧ (O n → ∃ u, run n u ∧ S n u)) ∧
    (res = 0 ↔ ∀ i, i < len → O i ∧ ∀ u, run i u → ¬S i u) := by
  by_cases heq : n = len
  · rw [if_pos heq] at hres
    refine ⟨.inl ⟨hres, heq⟩, iff_of_true hres fun i hi => ⟨(hdone i (by omega)).1, fun u hu hs => ?_⟩⟩
    exact (hdone i (by omega)).2 u hu ((hsame i u hu).mpr hs)
  · rw [if_neg heq] at hres
    obtain ⟨hA, hD⟩ := hstop (by omega)
    have hS : O n → ∃ u, run n u ∧ S n u := fun ho => (hD ho).imp fun u hu => ⟨hu.1, (hsame n u hu.1).mp hu.2⟩
    refine ⟨.inr ⟨hres, by omega, hA, hS⟩, iff_of_false (by rw [hres]; decide) fun hall => ?_⟩
    obtain ⟨u, hu, hs⟩ := hS (hall n (by omega)).1
    exact (hall n (by omega)).2 u hu hs

-- copyout() and copyin() succeed exactly if every page of the range is open to the user, or can
-- be had when its turn comes.
theorem copy_exact (h : Current L s role p tf) (va : Nat) :
    (∀ src, ∃ n res t, copyout L p p.pagetable va src s = .ok (res, t) ∧
      (res = 0 ∧ n = src.length ∨ res = -1 ∧ n < src.length ∧ (n = 0 ∨ (va + n) % PGSIZE = 0) ∧
        (Opens s.mem p true (va + n) → ∃ u, copyout L p p.pagetable va (src.take n) s = .ok (0, u) ∧
          Starved p u (PGROUNDDOWN (va + n)))) ∧
      (res = 0 ↔ ∀ i, i < src.length → Opens s.mem p true (va + i) ∧
        ∀ u, copyout L p p.pagetable va (src.take i) s = .ok (0, u) → ¬Starved p u (PGROUNDDOWN (va + i))) ∧
      (∀ va', va' < TRAPFRAME →
        viewByte t.mem p.pagetable va' = writeAt (viewByte s.mem p.pagetable) va (src.take n) va') ∧
      ∀ a off, Data L role a → off < PGSIZE → (∀ i e, i < n → leafPte t.mem 2 p.pagetable (va + i) = some e →
        PTE2PA e = a → (va + i) % PGSIZE ≠ off) → pageByte (t.mem a) off = pageByte (s.mem a) off) ∧
    ∀ len, ∃ n res t, copyin L p p.pagetable va len s =
        .ok (res, readAt (viewByte s.mem p.pagetable) va n, t) ∧
      (res = 0 ∧ n = len ∨ res = -1 ∧ n < len ∧ (n = 0 ∨ (va + n) % PGSIZE = 0) ∧
        (Opens s.mem p false (va + n) → ∃ bytes u, copyin L p p.pagetable va n s = .ok (0, bytes, u) ∧
          Starved p u (PGROUNDDOWN (va + n)))) ∧
      (res = 0 ↔ ∀ i, i < len → Opens s.mem p false (va + i) ∧
        ∀ bytes u, copyin L p p.pagetable va i s = .ok (0, bytes, u) → ¬Starved p u (PGROUNDDOWN (va + i))) ∧
      (∀ i, i < n → Opens s.mem p false (va + i)) ∧
      (∀ va', va' < TRAPFRAME → viewByte t.mem p.pagetable va' = viewByte s.mem p.pagetable va') ∧
      ∀ a, Data L role a → t.mem a = s.mem a := by
  constructor
  · intro src
    obtain ⟨n, t, role', hn, hw, hok, hdone, hstop⟩ := h.copyoutLoop_spec (Nat.le_refl src.length) va
    -- a copy of the first i bytes is a run of copyout() of its own
    have hturns : ∀ i, copyoutLoop L p p.pagetable src.length va (src.take i) s =
        copyout L p p.pagetable va (src.take i) s := fun i =>
      copyoutLoop_turns L p p.pagetable va _ s (List.length_take_le' ..) (Nat.le_refl _)
    simp only [hturns] at hdone hstop
    have hsame : ∀ i u, copyout L p p.pagetable va (src.take i) s = .ok (0, u) →
        (Denied L p u (PGROUNDDOWN (va + i)) ↔ Starved p u (PGROUNDDOWN (va + i))) := by
      intro i u hu
      obtain ⟨n', t', ρ, -, hw', hok', -⟩ := h.copyoutLoop_spec (Nat.le_refl (src.take i).length) va
      obtain ⟨-, rfl⟩ := Prod.mk.inj (Except.ok.inj (hok'.symm.trans hu))
      exact hw'.now.denied_iff _
    obtain ⟨hends, hiff⟩ := stop_exact hsame hn hdone hstop rfl
    exact ⟨n, _, t, hok, hends, hiff, hw.byte, fun a off ha hoff hout => h.copyout_byte hok hw ha hoff hout⟩
  · intro len
    obtain ⟨n, t, role', hn, hw, hok, hdone, hstop⟩ := h.copyinLoop_spec (Nat.le_refl len) va []
    have hturns : ∀ i, i ≤ len → copyinLoop L p p.pagetable len va i [] s = copyin L p p.pagetable va i s := fun i hi =>
      copyinLoop_turns L p p.pagetable va [] s hi (Nat.le_refl i)
    have hsame : ∀ i (x : List Byte × Phys), copyin L p p.pagetable va i s = .ok (0, x) →
        (Denied L p x.2 (PGROUNDDOWN (va + i)) ↔ Starved p x.2 (PGROUNDDOWN (va + i))) := by
      rintro i ⟨bytes, u⟩ hu
      obtain ⟨n', t', ρ, -, hw', hok', -⟩ := h.copyinLoop_spec (Nat.le_refl i) va []
      obtain ⟨-, heq⟩ := Prod.mk.inj (Except.ok.inj (hok'.symm.trans hu))
      exact (Prod.mk.inj heq).2 ▸ hw'.now.denied_iff _
    obtain ⟨hends, hiff⟩ := stop_exact hsame hn
      (fun i hi => ⟨(hdone i hi).1, fun x hx => (hdone i hi).2 x.1 x.2 ((hturns i (by omega)).trans hx)⟩)
      (fun hlt => ⟨(hstop hlt).1, fun ho => by
        obtain ⟨bytes, u, hu, hd⟩ := (hstop hlt).2 ho
        exact ⟨(bytes, u), (hturns n hn).symm.trans hu, hd⟩⟩) rfl
    simp only [Prod.exists, Prod.forall] at hends hiff
    exact ⟨n, _, t, hok, hends, hiff, fun i hi => (hdone i hi).1, fun va' hva' => (hw.alike hva').byte,
      fun a ha => h.copyin_data hok ha⟩

def grown : Option Mirrored := sampleMirrored [.event (.call initSlot (.sbrk 8192))]

theorem grown_current (h : grown = some c) (hlive : c.kernel.Live initSlot) :
    ∃ role, Current sampleLayout c.kernel.phys role (c.kernel.self initSlot) (c.kernel.procs initSlot).trapframe := by
  obtain ⟨role, hinv⟩ := (flat_inv (sampleMirrored_reach h)).inv
  exact ⟨role, hinv.vm, (hinv.space initSlot hlive).widen, hinv.size rfl initSlot⟩

theorem copy_exact_across : ∃ c t, grown = some c ∧
    copyout sampleLayout (c.kernel.self initSlot) (c.kernel.self initSlot).pagetable 4095 [1#8, 2#8] c.kernel.phys =
      .ok (0, t) ∧ viewByte t.mem (c.kernel.self initSlot).pagetable 4095 = 1#8 ∧
      viewByte t.mem (c.kernel.self initSlot).pagetable 4096 = 2#8 := by
  have hrun : grown.any (fun c => decide (c.kernel.Live initSlot) &&
      (copyout sampleLayout (c.kernel.self initSlot) (c.kernel.self initSlot).pagetable 4095 [1#8, 2#8]
        c.kernel.phys).toOption.any fun res => decide (res.1 = 0)) = true := by
    decide +kernel
  obtain ⟨c, hc, hres⟩ := (Option.any_eq_true ..).mp hrun
  rw [Bool.and_eq_true, decide_eq_true_eq] at hres
  obtain ⟨role, hcur⟩ := grown_current hc hres.1
  obtain ⟨n, res, t, hok, hends, -, hview, -⟩ := (copy_exact hcur 4095).1 [1#8, 2#8]
  have hzero : res = 0 := by simpa [hok, Except.toOption] using hres.2
  subst hzero
  obtain rfl : n = 2 := hends.elim (fun h => h.2) fun h => absurd h.1 (by decide)
  refine ⟨c, t, hc, hok, ?_, ?_⟩
  · rw [hview 4095 (by decide)]
    rfl
  · rw [hview 4096 (by decide)]
    rfl

section Untouched

theorem copyinLoop_mapped (hpa : NoNullPage s.mem p.pagetable) (hturns : len ≤ turns) (dst : List Byte)
    (hm : ∀ i, i < len → leafPte s.mem 2 p.pagetable (va + i) ≠ none)
    (hok : copyinLoop L p p.pagetable turns va len dst s = .ok (0, bytes, t)) :
    bytes = dst ++ readAt (viewByte s.mem p.pagetable) va len ∧ ∀ i, i < len → UserMapped s.mem p.pagetable (va + i) := by
  induction turns generalizing va len dst with
  | zero =>
    obtain rfl : len = 0 := by omega
    simp only [copyinLoop, Except.ok.injEq, Prod.mk.injEq] at hok
    exact ⟨by simp [readAt, hok.2.1], fun i hi => by omega⟩
  | succ turns ih =>
    by_cases hlen : len = 0
    · subst hlen
      simp only [copyinLoop, if_true, Except.ok.injEq, Prod.mk.injEq] at hok
      exact ⟨by simp [readAt, hok.2.1], fun i hi => by omega⟩
    obtain ⟨hle, hlt, hal, hpg⟩ := pgrounddown_bounds va
    rcases walkaddr_user hpa (PGROUNDDOWN va) with ⟨e, huser, he, hne, hwalk⟩ | ⟨hno, hwalk⟩
    swap
    · -- a page that the user cannot get at, and vmfault() finds it mapped
      have hstop : userPage L p p.pagetable (PGROUNDDOWN va) s = .ok (0, s) ∨
          userPage L p p.pagetable (PGROUNDDOWN va) s = .error .walk := by
        simp only [userPage, hwalk, ok_bind, if_true, vmfault, pgrounddown_idem]
        split
        · exact .inl rfl
        by_cases hmax : MAXVA ≤ PGROUNDDOWN va
        · right
          simp only [ismapped, walk, if_pos hmax, error_bind]
        · left
          have hva0 := Nat.lt_of_not_le hmax
          have hva : va < MAXVA := by
            simp only [MAXVA_eq, PGSIZE_eq] at *
            omega
          have hmapped := hm 0 (by omega)
          rw [Nat.add_zero, ← leafPte_congr_page (lt_39_of_lt_MAXVA hva) (lt_39_of_lt_MAXVA hva0) hpg] at hmapped
          simp only [ismapped_eq hva0, ok_bind, hmapped, ne_eq, not_false_eq_true, decide_true, if_true, pure_eq_ok]
      rcases hstop with hstop | hstop <;>
        simp [copyinLoop, hlen, hstop] at hok
    generalize hn : min (PGSIZE - (va - PGROUNDDOWN va)) len = n
    have hn0 : 0 < n := hn ▸ turn_pos va hlen
    obtain ⟨rest, rfl⟩ : ∃ rest, len = n + rest := ⟨len - n, by omega⟩
    have hsame : ∀ i, i < n → (va + i) / PGSIZE = PGROUNDDOWN va / PGSIZE := fun i hi => turn_page (by omega)
    have hpage : userPage L p p.pagetable (PGROUNDDOWN va) s = .ok (PTE2PA e, s) := by
      simp only [userPage, hwalk, ok_bind, if_neg hne, pure_eq_ok]
    have hread : s.readBytes (PTE2PA e) (va - PGROUNDDOWN va) n = readAt (viewByte s.mem p.pagetable) va n := by
      rw [readBytes_eq]
      exact readAt_congr fun i hi => (huser.byte he (hsame i hi)).symm
    rw [copyinLoop_succ hpage hne hn0 hn, hread] at hok
    have hwrap : 0 < rest → wrap64 (PGROUNDDOWN va + PGSIZE) = va + n := fun hrest =>
      turn_next ((userMapped_page hpg).mp huser).1 hn (by omega)
    obtain ⟨hbytes, hmapped⟩ := ih (by omega) _ (fun i hi => by
      rw [hwrap (by omega), Nat.add_assoc]
      exact hm (n + i) (by omega)) hok
    refine ⟨?_, fun i hi => ?_⟩
    · rw [hbytes, readAt_add, List.append_assoc]
      rcases Nat.eq_zero_or_pos rest with rfl | hrest
      · simp [readAt]
      · rw [hwrap hrest]
    · by_cases hin : i < n
      · exact (userMapped_page (hsame i hin)).mpr huser
      · obtain ⟨j, rfl⟩ := Nat.exists_eq_add_of_le (Nat.le_of_not_lt hin)
        have := hmapped j (by omega)
        rwa [hwrap (by omega), Nat.add_assoc] at this

def EndsAt (bytes : List Byte) (k : Nat) : Prop := bytes[k]? = some 0#8 ∧ ∀ i, i < k → bytes[i]? ≠ some 0#8

theorem readAt_getElem? (f : Nat → Byte) (hi : i < n) : (readAt f va n)[i]? = some (f (va + i)) := by
  rw [List.getElem?_eq_getElem (by rwa [readAt_length])]
  simp [readAt]

-- Where copyin() reads a string of k bytes, copyinstr() finds the same string exactly if
-- all its pages have been touched before.
theorem string_like_buffer (p : Self) (s : Phys) (hpa : NoNullPage s.mem p.pagetable) {k max : Nat} (hk : k < max)
    (hcopy : copyin L p p.pagetable srcva (k + 1) s = .ok (0, bytes, t)) (hend : EndsAt bytes k) (dst : Buffer) :
    (∃ dst', copyinstr p.pagetable dst srcva max s = .ok (0, dst') ∧ ∀ i, i ≤ k → bytes[i]? = some (dst' i)) ↔
      ∀ i, i ≤ k → leafPte s.mem 2 p.pagetable (srcva + i) ≠ none := by
  have hloop := copyinstrLoop_spec hpa (Nat.le_refl max) srcva 0 dst
  constructor
  · rintro ⟨dst', hok, hsame⟩ i hi
    rcases hloop with ⟨k', hk', hstr, hok'⟩ | ⟨-, n, -, hok'⟩
    · rw [show copyinstrLoop p.pagetable s max srcva max 0 dst = .ok (0, dst') from hok, Except.ok.injEq,
        Prod.mk.injEq] at hok'
      have hle : k ≤ k' := by
        by_contra hlt
        refine hend.2 k' (by omega) ?_
        rw [hsame k' (by omega), hok'.2, writeAt_readAt _ _ _ (Nat.lt_succ_self k'), hstr.nul]
      obtain ⟨-, e, he, -⟩ := hstr.mapped i (by omega)
      simp [he]
    · rw [show copyinstrLoop p.pagetable s max srcva max 0 dst = .ok (0, dst') from hok] at hok'
      simp at hok'
  · intro hm
    obtain ⟨hbytes, hmapped⟩ := copyinLoop_mapped hpa (Nat.le_refl (k + 1)) [] (fun i hi => hm i (by omega)) hcopy
    rw [List.nil_append] at hbytes
    have hbyte : ∀ i, i ≤ k → bytes[i]? = some (viewByte s.mem p.pagetable (srcva + i)) := fun i hi => by
      rw [hbytes, readAt_getElem? _ (by omega)]
    have hstr : IsString s.mem p.pagetable srcva k := by
      refine ⟨fun i hi => hmapped i (by omega), fun i hi h0 => hend.2 i hi ?_, ?_⟩
      · rw [hbyte i (by omega), h0]
      · have := hend.1
        rwa [hbyte k (Nat.le_refl k), Option.some.injEq] at this
    rcases hloop with ⟨k', hk', hstr', hok⟩ | ⟨hnone, -⟩
    · obtain rfl := hstr.unique hstr'
      exact ⟨_, hok, fun i hi => by rw [hbyte i hi, writeAt_readAt _ _ _ (by omega)]⟩
    · exact absurd hstr (hnone k hk)

theorem string_like_buffer_hi : ∃ dst', copyinstr 0x80001000 (fun _ => 1#8) 0 100 greeting = .ok (0, dst') ∧
    ∀ i, i ≤ 2 → [0x68#8, 0x69#8, 0#8][i]? = some (dst' i) :=
  (string_like_buffer (L := sampleLayout) (t := greeting) ⟨0, 0x80001000⟩ greeting greeting_noNullPage (by decide) rfl
    ⟨rfl, by decide⟩ _).mpr (by decide +kernel)

-- A path in memory from sbrk() that init has not touched: copyin() reads the empty string,
-- and copyinstr() fails.
theorem untouched_path_fails : ∃ c : Mirrored, Reach (Mirrored.Origin sampleLayout []) (Mirrored.Step sampleLayout) c ∧
    (c.kernel.tasks initSlot).state = .RUNNING ∧
    (∃ t, copyin sampleLayout (c.kernel.self initSlot) (c.kernel.procs initSlot).pagetable 0 1 c.kernel.phys =
      .ok (0, [0#8], t)) ∧
    ∀ dst, copyinstr (c.kernel.procs initSlot).pagetable dst 0 128 c.kernel.phys = .ok (-1, dst) := by
  have hrun : grown.any (fun c => decide ((c.kernel.tasks initSlot).state = .RUNNING) &&
      (copyin sampleLayout (c.kernel.self initSlot) (c.kernel.procs initSlot).pagetable 0 1
        c.kernel.phys).toOption.any (fun res => decide (res.1 = 0 ∧ res.2.1 = [0#8])) &&
      (walkaddr (c.kernel.procs initSlot).pagetable 0 c.kernel.phys).toOption.any (· == 0)) = true := by
    decide +kernel
  obtain ⟨c, hc, hres⟩ := (Option.any_eq_true ..).mp hrun
  simp only [Bool.and_eq_true, decide_eq_true_eq] at hres
  refine ⟨c, sampleMirrored_reach hc, hres.1.1, ?_, fun dst => ?_⟩
  · cases hcopy : copyin sampleLayout (c.kernel.self initSlot) (c.kernel.procs initSlot).pagetable 0 1 c.kernel.phys with
    | error e => simp [hcopy, Except.toOption] at hres
    | ok res =>
      obtain ⟨r, bytes, t⟩ := res
      simp only [hcopy, Except.toOption, Option.any_some, decide_eq_true_eq] at hres
      exact ⟨t, by rw [hres.1.2.1, hres.1.2.2]⟩
  · cases hwalk : walkaddr (c.kernel.procs initSlot).pagetable 0 c.kernel.phys with
    | error e => simp [hwalk, Except.toOption] at hres
    | ok pa =>
      simp only [hwalk, Except.toOption, Option.any_some, beq_iff_eq] at hres
      have hdown : PGROUNDDOWN 0 = 0 := rfl
      show copyinstrLoop _ _ (127 + 1) 0 128 0 dst = _
      rw [copyinstrLoop, if_neg (by decide)]
      simp only [hdown, hwalk, ok_bind, hres.2, if_true, pure_eq_ok]

end Untouched

end Xv6
