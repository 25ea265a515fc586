import Xv6.Fetch
import Xv6.Flat.Memory

namespace Xv6

open Lib

variable {s : Phys} {m : Mem} {r va k n max dst : Nat} {buf : Buffer}

def UserMapped (m : Mem) (pagetable va : Nat) : Prop :=
  va < MAXVA ∧ ∃ e, leafPte m 2 pagetable va = some e ∧ hasFlag e PTE_U

-- Bytes 0 to k from va on are the user's, and byte k is the first NUL.
structure IsString (m : Mem) (pagetable va k : Nat) : Prop where
  mapped : ∀ i, i ≤ k → UserMapped m pagetable (va + i)
  before : ∀ i, i < k → viewByte m pagetable (va + i) ≠ 0#8
  nul : viewByte m pagetable (va + k) = 0#8

theorem IsString.unique (h : IsString m r va k) (h' : IsString m r va k') : k = k' := by
  rcases Nat.lt_trichotomy k k' with hlt | rfl | hlt
  · exact absurd h.nul (h'.before k hlt)
  · rfl
  · exact absurd h'.nul (h.before k' hlt)

theorem isString_add (hm : ∀ i, i < n → UserMapped m r (va + i)) (hb : ∀ i, i < n → viewByte m r (va + i) ≠ 0#8) :
    IsString m r va (n + k) ↔ IsString m r (va + n) k := by
  constructor
  · intro h
    refine ⟨fun i hi => ?_, fun i hi => ?_, ?_⟩
    · rw [Nat.add_assoc]
      exact h.mapped _ (by omega)
    · rw [Nat.add_assoc]
      exact h.before _ (by omega)
    · rw [Nat.add_assoc]
      exact h.nul
  · intro h
    refine ⟨fun i hi => ?_, fun i hi => ?_, ?_⟩
    · by_cases hin : i < n
      · exact hm i hin
      · have := h.mapped (i - n) (by omega)
        rwa [show va + n + (i - n) = va + i by omega] at this
    · by_cases hin : i < n
      · exact hb i hin
      · have := h.before (i - n) (by omega)
        rwa [show va + n + (i - n) = va + i by omega] at this
    · rw [← Nat.add_assoc]
      exact h.nul

section Page

theorem update_eq_writeAt (buf : Buffer) (dst : Nat) (c : Byte) : Function.update buf dst c = writeAt buf dst [c] := by
  funext j
  by_cases hj : j = dst
  · subst hj
    simp [writeAt]
  · rw [Function.update_of_ne hj, writeAt_outside]
    simp only [List.length_singleton]
    omega

theorem copyinstrBytes_nul (s : Phys) (pa p max dst : Nat) (buf : Buffer) (hj : j < n)
    (hnul : pageByte (s.mem pa) (p + j) = 0#8) (hb : ∀ i, i < j → pageByte (s.mem pa) (p + i) ≠ 0#8) :
    copyinstrBytes s pa n p max dst buf =
      (true, max - j, dst + j, writeAt buf dst (readAt (pageByte (s.mem pa)) p (j + 1))) := by
  induction n generalizing p max dst buf j with
  | zero => omega
  | succ n ih =>
    have hread : byteOf (s.mem pa (Fin.ofNat 512 (p / 8))) (p % 8) = pageByte (s.mem pa) p := rfl
    simp only [copyinstrBytes, hread]
    cases j with
    | zero =>
      rw [Nat.add_zero] at hnul
      rw [if_pos hnul, readAt_succ, hnul, update_eq_writeAt]
      rfl
    | succ j =>
      have hfirst := hb 0 (by omega)
      rw [Nat.add_zero] at hfirst
      rw [if_neg hfirst, ih (j := j) (p + 1) (max - 1) (dst + 1) _ (by omega)
        (by rwa [show p + 1 + j = p + (j + 1) by omega])
        fun i hi => by rw [show p + 1 + i = p + (i + 1) by omega]; exact hb (i + 1) (by omega)]
      rw [readAt_succ _ p, writeAt_cons, update_eq_writeAt, Nat.sub_sub, Nat.add_comm 1 j,
        show dst + 1 + j = dst + (j + 1) by omega]

theorem copyinstrBytes_all (s : Phys) (pa p max dst : Nat) (buf : Buffer)
    (hb : ∀ i, i < n → pageByte (s.mem pa) (p + i) ≠ 0#8) :
    copyinstrBytes s pa n p max dst buf =
      (false, max - n, dst + n, writeAt buf dst (readAt (pageByte (s.mem pa)) p n)) := by
  induction n generalizing p max dst buf with
  | zero => simp [copyinstrBytes, readAt, writeAt_nil]
  | succ n ih =>
    have hread : byteOf (s.mem pa (Fin.ofNat 512 (p / 8))) (p % 8) = pageByte (s.mem pa) p := rfl
    have hfirst := hb 0 (by omega)
    rw [Nat.add_zero] at hfirst
    simp only [copyinstrBytes, hread, if_neg hfirst]
    rw [ih (p + 1) (max - 1) (dst + 1) _
      fun i hi => by rw [show p + 1 + i = p + (i + 1) by omega]; exact hb (i + 1) (by omega)]
    rw [readAt_succ _ p, writeAt_cons, update_eq_writeAt, Nat.sub_sub, Nat.add_comm 1 n,
      show dst + 1 + n = dst + (n + 1) by omega]

end Page

-- No page that the user can get at is at physical address 0, which stands for none.
def NoNullPage (m : Mem) (pagetable : Nat) : Prop :=
  ∀ va e, va < MAXVA → leafPte m 2 pagetable va = some e → hasFlag e PTE_U → PTE2PA e ≠ 0

theorem userMapped_page (hpage : va' / PGSIZE = va / PGSIZE) : UserMapped m r va' ↔ UserMapped m r va := by
  have hmax : va' < MAXVA ↔ va < MAXVA := by
    simp only [MAXVA_eq, PGSIZE_eq] at *
    omega
  constructor
  · rintro ⟨hva, e, he, hu⟩
    exact ⟨hmax.mp hva, e, (leafPte_congr_page (lt_39_of_lt_MAXVA (hmax.mp hva)) (lt_39_of_lt_MAXVA hva) hpage) ▸ he, hu⟩
  · rintro ⟨hva, e, he, hu⟩
    exact ⟨hmax.mpr hva, e,
      (leafPte_congr_page (lt_39_of_lt_MAXVA hva) (lt_39_of_lt_MAXVA (hmax.mpr hva)) hpage).trans he, hu⟩

theorem walkaddr_user (hpa : NoNullPage s.mem r) (va : Nat) :
    (∃ e, UserMapped s.mem r va ∧ leafPte s.mem 2 r va = some e ∧ PTE2PA e ≠ 0 ∧
      walkaddr r va s = .ok (PTE2PA e)) ∨ ¬UserMapped s.mem r va ∧ walkaddr r va s = .ok 0 := by
  by_cases hmax : va < MAXVA
  swap
  · exact .inr ⟨fun h => hmax h.1, by rw [walkaddr, if_pos (Nat.le_of_not_lt hmax)]⟩
  rw [walkaddr_eq hmax]
  cases he : leafPte s.mem 2 r va with
  | none =>
    refine .inr ⟨?_, rfl⟩
    rintro ⟨-, e, he', -⟩
    simp [he] at he'
  | some e =>
    by_cases hu : hasFlag e PTE_U
    · refine .inl ⟨e, ⟨hmax, e, he, hu⟩, rfl, hpa va e hmax he hu, ?_⟩
      simp only [if_pos hu]
    · refine .inr ⟨?_, ?_⟩
      · rintro ⟨-, e', he', hu'⟩
        rw [he, Option.some.injEq] at he'
        exact hu (he' ▸ hu')
      · simp only [if_neg hu]

theorem UserMapped.byte (h : UserMapped m r (PGROUNDDOWN va)) (he : leafPte m 2 r (PGROUNDDOWN va) = some e)
    (hi : (va + i) / PGSIZE = PGROUNDDOWN va / PGSIZE) :
    viewByte m r (va + i) = pageByte (m (PTE2PA e)) (va - PGROUNDDOWN va + i) := by
  have hva := ((userMapped_page hi).mpr h).1
  rw [viewByte_some ((leafPte_congr_page (lt_39_of_lt_MAXVA h.1) (lt_39_of_lt_MAXVA hva) hi).trans he)]
  congr 1
  simp only [PGROUNDDOWN, PGSIZE_eq] at *
  omega

theorem copyinstrLoop_spec (hpa : NoNullPage s.mem r) (hturns : max ≤ turns) (va dst : Nat) (buf : Buffer) :
    (∃ k, k < max ∧ IsString s.mem r va k ∧ copyinstrLoop r s turns va max dst buf =
      .ok (0, writeAt buf dst (readAt (viewByte s.mem r) va (k + 1)))) ∨
    (∀ k, k < max → ¬IsString s.mem r va k) ∧ ∃ n, n ≤ max ∧
      copyinstrLoop r s turns va max dst buf = .ok (-1, writeAt buf dst (readAt (viewByte s.mem r) va n)) := by
  induction turns generalizing va max dst buf with
  | zero =>
    refine .inr ⟨fun k hk => by omega, 0, Nat.zero_le _, ?_⟩
    simp [copyinstrLoop, readAt, writeAt_nil]
  | succ turns ih =>
    by_cases hmax : max = 0
    · refine .inr ⟨fun k hk => by omega, 0, Nat.zero_le _, ?_⟩
      simp [copyinstrLoop, hmax, readAt, writeAt_nil]
    obtain ⟨hle, hlt, hal, hpg⟩ := pgrounddown_bounds va
    rcases walkaddr_user hpa (PGROUNDDOWN va) with ⟨e, huser, he, hne, hwalk⟩ | ⟨hno, hwalk⟩
    swap
    · refine .inr ⟨fun k _ hstr => hno ?_, 0, Nat.zero_le _, ?_⟩
      · have := hstr.mapped 0 (Nat.zero_le _)
        exact (userMapped_page hpg).mpr this
      · simp only [copyinstrLoop, if_neg hmax, hwalk, ok_bind, if_true, pure_eq_ok]
        simp [readAt, writeAt_nil]
    generalize hn : min (PGSIZE - (va - PGROUNDDOWN va)) max = n
    have hn0 : 0 < n := hn ▸ turn_pos va hmax
    have hnmax : n ≤ max := hn ▸ Nat.min_le_right ..
    have hnpage : n ≤ PGSIZE - (va - PGROUNDDOWN va) := hn ▸ Nat.min_le_left ..
    -- the page is the same for all n bytes
    have hsame : ∀ i, i < n → (va + i) / PGSIZE = PGROUNDDOWN va / PGSIZE := fun i hi => turn_page (by omega)
    have hmapped : ∀ i, i < n → UserMapped s.mem r (va + i) := fun i hi => (userMapped_page (hsame i hi)).mpr huser
    have hbyte : ∀ i, i < n → viewByte s.mem r (va + i) = pageByte (s.mem (PTE2PA e)) (va - PGROUNDDOWN va + i) :=
      fun i hi => huser.byte he (hsame i hi)
    have hread : ∀ j, j ≤ n → readAt (pageByte (s.mem (PTE2PA e))) (va - PGROUNDDOWN va) j =
        readAt (viewByte s.mem r) va j := fun j hj => readAt_congr fun i hi => (hbyte i (by omega)).symm
    have hstep : ∀ got mx d b, copyinstrBytes s (PTE2PA e) n (va - PGROUNDDOWN va) max dst buf = (got, mx, d, b) →
        copyinstrLoop r s (turns + 1) va max dst buf =
          if got then .ok (0, b) else copyinstrLoop r s turns (wrap64 (PGROUNDDOWN va + PGSIZE)) mx d b := by
      intro got mx d b hb
      simp only [copyinstrLoop, if_neg hmax, hwalk, ok_bind, if_neg hne, hn, hb, pure_eq_ok]
    by_cases hex : ∃ j, j < n ∧ viewByte s.mem r (va + j) = 0#8
    · -- the string ends on this page
      classical
      obtain ⟨hjn, hj0⟩ := Nat.find_spec hex
      have hmin : ∀ i, i < Nat.find hex → viewByte s.mem r (va + i) ≠ 0#8 := fun i hi h0 =>
        Nat.find_min hex hi ⟨by omega, h0⟩
      refine .inl ⟨Nat.find hex, by omega, ⟨fun i hi => hmapped i (by omega), hmin, hj0⟩, ?_⟩
      rw [hstep _ _ _ _ (copyinstrBytes_nul s (PTE2PA e) _ max dst buf hjn (by rw [← hbyte _ hjn]; exact hj0)
        fun i hi => by rw [← hbyte i (by omega)]; exact hmin i hi), if_pos rfl, hread _ hjn]
    · have hnz : ∀ i, i < n → viewByte s.mem r (va + i) ≠ 0#8 := fun i hi h0 => hex ⟨i, hi, h0⟩
      have hloop := hstep _ _ _ _ (copyinstrBytes_all s (PTE2PA e) (va - PGROUNDDOWN va) max dst buf
        fun i hi => by rw [← hbyte i hi]; exact hnz i hi)
      rw [if_neg (by decide), hread n (Nat.le_refl n)] at hloop
      -- where bytes are left, the next turn starts after these
      have hwrap : 0 < max - n → wrap64 (PGROUNDDOWN va + PGSIZE) = va + n := fun hrest =>
        turn_next ((userMapped_page hpg).mp huser).1 hn (by omega)
      have hwrite : ∀ k, writeAt (writeAt buf dst (readAt (viewByte s.mem r) va n)) (dst + n)
          (readAt (viewByte s.mem r) (va + n) k) = writeAt buf dst (readAt (viewByte s.mem r) va (n + k)) := by
        intro k
        rw [readAt_add, writeAt_append, readAt_length]
      rcases Nat.eq_zero_or_pos (max - n) with hzero | hpos
      · refine .inr ⟨fun k hk hstr => hnz k (by omega) hstr.nul, n, hnmax, ?_⟩
        rw [hloop, hzero]
        cases turns <;> simp [copyinstrLoop]
      · rw [hwrap hpos] at hloop
        rcases ih (by omega : max - n ≤ turns) (va + n) (dst + n) (writeAt buf dst (readAt (viewByte s.mem r) va n))
          with ⟨k, hk, hstr, hok⟩ | ⟨hnone, n', hn', hok⟩
        · refine .inl ⟨n + k, by omega, (isString_add hmapped hnz).mpr hstr, ?_⟩
          rw [hloop, hok, hwrite, Nat.add_assoc]
        · refine .inr ⟨fun k hk hstr => ?_, n + n', by omega, ?_⟩
          · have hnk : n ≤ k := by
              by_contra hlt'
              exact hnz k (by omega) hstr.nul
            obtain ⟨k', rfl⟩ := Nat.exists_eq_add_of_le hnk
            exact hnone k' (by omega) ((isString_add hmapped hnz).mp hstr)
          · rw [hloop, hok, hwrite]

section Fetchstr

theorem strlenFrom_eq (buf : Buffer) (hn : n ≤ k) (hk : k < n + size) (hb : ∀ i, n ≤ i → i < k → buf i ≠ 0#8)
    (h0 : buf k = 0#8) : strlenFrom buf size n = some k := by
  induction size generalizing n with
  | zero => omega
  | succ size ih =>
    rw [strlenFrom]
    by_cases heq : n = k
    · rw [heq, if_pos h0]
    · rw [if_neg (hb n (Nat.le_refl n) (by omega))]
      exact ih (by omega) (by omega) fun i hi => hb i (by omega)

theorem strlen_eq (buf : Buffer) (hk : k < size) (hb : ∀ i, i < k → buf i ≠ 0#8) (h0 : buf k = 0#8) :
    strlen buf size = some k :=
  strlenFrom_eq buf (Nat.zero_le k) (by omega) (fun i _ hi => hb i hi) h0

theorem fetchstr_fails (p : Self) (h : copyinstr p.pagetable buf va max s = .ok (-1, buf')) (hmax : max < 2 ^ 31) :
    fetchstr p va buf max s = .ok (-1, buf') := by
  have hcast : toU64 (max : Int) = max := by
    simp only [toU64]
    omega
  simp only [fetchstr, hcast, h, ok_bind, if_pos (show (-1 : Int) < 0 by decide), pure_eq_ok]

theorem IsString.fetchstr_eq (h : IsString s.mem p.pagetable va k) (hk : k < max) (hmax : max < 2 ^ 31)
    (hok : copyinstr p.pagetable buf va max s = .ok (0, buf'))
    (hcopy : ∀ i, i ≤ k → buf' i = viewByte s.mem p.pagetable (va + i)) :
    fetchstr p va buf max s = .ok (k, buf') := by
  have hcast : toU64 (max : Int) = max := by
    simp only [toU64]
    omega
  have hlen : strlen buf' max = some k := by
    refine strlen_eq buf' hk (fun i hi => ?_) ?_
    · rw [hcopy i (Nat.le_of_lt hi)]
      exact h.before i hi
    · rw [hcopy k (Nat.le_refl k)]
      exact h.nul
  have hint : wrap32 (k : Int) = k := wrap32_eq (by omega) (by omega)
  simp only [fetchstr, hcast, hok, ok_bind, if_neg (show ¬(0 : Int) < 0 by decide), hlen, hint, pure_eq_ok]

end Fetchstr

-- They succeed exactly for a string of which the NUL is among the first max bytes.
theorem copyinstr_exact (p : Self) (s : Phys) (hpa : NoNullPage s.mem p.pagetable) (srcva max : Nat) (dst : Buffer) :
    ∃ res dst', copyinstr p.pagetable dst srcva max s = .ok (res, dst') ∧ (res = 0 ∨ res = -1) ∧
      (res = 0 ↔ ∃ k, k < max ∧ IsString s.mem p.pagetable srcva k) ∧
      (∀ j, max ≤ j → dst' j = dst j) ∧
      (∀ k, k < max → IsString s.mem p.pagetable srcva k →
        (∀ i, i ≤ k → dst' i = viewByte s.mem p.pagetable (srcva + i)) ∧
        (max < 2 ^ 31 → fetchstr p srcva dst max s = .ok (k, dst'))) ∧
      (res = -1 → max < 2 ^ 31 → fetchstr p srcva dst max s = .ok (-1, dst')) := by
  rcases copyinstrLoop_spec hpa (Nat.le_refl max) srcva 0 dst with ⟨k, hk, hstr, hok⟩ | ⟨hnone, n, hn, hok⟩
  · have hcopy : ∀ i, i ≤ k → writeAt dst 0 (readAt (viewByte s.mem p.pagetable) srcva (k + 1)) i =
        viewByte s.mem p.pagetable (srcva + i) := fun i hi => writeAt_readAt dst _ srcva (by omega)
    refine ⟨0, _, hok, .inl rfl, ⟨fun _ => ⟨k, hk, hstr⟩, fun _ => rfl⟩, fun j hj => ?_, fun k' hk' hstr' => ?_,
      fun h => absurd h (by decide)⟩
    · exact writeAt_outside _ _ (.inl (by rw [readAt_length]; omega))
    · obtain rfl := hstr.unique hstr'
      exact ⟨hcopy, fun hmax => hstr.fetchstr_eq hk hmax hok hcopy⟩
  · refine ⟨-1, _, hok, .inr rfl, ⟨fun h => absurd h (by decide), fun ⟨k, hk, hstr⟩ => absurd hstr (hnone k hk)⟩,
      fun j hj => ?_, fun k hk hstr => absurd hstr (hnone k hk), fun _ hmax => fetchstr_fails p hok hmax⟩
    exact writeAt_outside _ _ (.inl (by rw [readAt_length]; omega))

-- A page table that maps one page, with "hi" at its start.
def greeting : Phys where
  mem := fun b i =>
    if i ≠ 0 then 0#64
    else if b = 0x80001000 then PA2PTE 0x80002000 ||| PTE_V
    else if b = 0x80002000 then PA2PTE 0x80003000 ||| PTE_V
    else if b = 0x80003000 then PA2PTE 0x80004000 ||| (PTE_R ||| PTE_U) ||| PTE_V
    else if b = 0x80004000 then 0x6968#64
    else 0#64
  freelist := 0
  refcount := fun _ => 0

theorem greeting_entry (hv : hasFlag (greeting.mem b i) PTE_V) (hb : b ≠ 0x80004000) :
    PTE2PA (greeting.mem b i) ≠ 0 := by
  simp only [greeting] at hv ⊢
  split_ifs at hv ⊢
  · exact absurd hv (by simp)
  · decide
  · decide
  · decide
  · exact absurd hv (by simp)

theorem greeting_noNullPage : NoNullPage greeting.mem 0x80001000 := by
  intro va e _ he _
  obtain ⟨c, i, hl, hv, rfl⟩ := leafPte_eq_some.mp he
  have htwo : greeting.mem 0x80001000 (PX 2 va) = 0#64 ∨
      PTE2PA (greeting.mem 0x80001000 (PX 2 va)) = 0x80002000 := by
    simp only [greeting]
    split_ifs
    · exact .inl rfl
    · exact .inr (by decide)
  have hone : greeting.mem 0x80002000 (PX 1 va) = 0#64 ∨
      PTE2PA (greeting.mem 0x80002000 (PX 1 va)) = 0x80003000 := by
    simp only [greeting]
    split_ifs
    · exact .inl rfl
    · contradiction
    · exact .inr (by decide)
  refine greeting_entry hv ?_
  simp only [lookup] at hl
  split_ifs at hl with h2 h1
  rcases htwo with h0 | htwo
  · simp [h0] at h2
  rw [htwo] at hl h1
  rcases hone with h0 | hone
  · simp [h0] at h1
  rw [hone] at hl
  simp only [Option.some.injEq, Prod.mk.injEq] at hl
  rw [← hl.1]
  decide

theorem copyinstr_exact_hi : ∃ dst', copyinstr 0x80001000 (fun _ => 1#8) 0 3 greeting = .ok (0, dst') ∧
    fetchstr ⟨4096, 0x80001000⟩ 0 (fun _ => 1#8) 3 greeting = .ok (2, dst') ∧ dst' 0 = 0x68#8 ∧ dst' 7 = 1#8 := by
  obtain ⟨res, dst', hok, -, hiff, hrest, hstring, -⟩ :=
    copyinstr_exact ⟨4096, 0x80001000⟩ greeting greeting_noNullPage 0 3 fun _ => 1#8
  have hpte : ∀ i, i < 3 → leafPte greeting.mem 2 0x80001000 (0 + i) =
      some (PA2PTE 0x80004000 ||| (PTE_R ||| PTE_U) ||| PTE_V) := by decide +kernel
  have hhi : IsString greeting.mem 0x80001000 0 2 := by
    refine ⟨fun i hi => ⟨?_, _, hpte i (by omega), by decide⟩, ?_, by decide +kernel⟩
    · rw [MAXVA_eq]
      omega
    · decide +kernel
  obtain rfl := hiff.mpr ⟨2, by omega, hhi⟩
  obtain ⟨hcopy, hfetch⟩ := hstring 2 (by omega) hhi
  refine ⟨dst', hok, hfetch (by omega), ?_, hrest 7 (by omega)⟩
  rw [hcopy 0 (by omega)]
  decide +kernel

end Xv6
