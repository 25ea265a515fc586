import Xv6.Disk.Content

namespace Xv6.Fs

open Lib Function List

def BPB : Nat := BSIZE * 8
def IPB : Nat := BSIZE / 64

-- A block of the buffer cache, by what it holds.
inductive Cached where
  | bitmap (n : Nat)
  | inodes (n : Nat)
  | data (b : Nat)
  deriving DecidableEq

-- The blocks as the cache has them, and those that have been passed to log_write().
structure Buffers where
  disk : Disk
  logged : List Cached

def Buffers.fill (C : Buffers) (b : Nat) (block : Block) : Buffers := { C with disk := C.disk.fill b block }

def Buffers.logWrite (C : Buffers) (c : Cached) : Buffers := { C with logged := c :: C.logged }

-- writei() and what it calls, as above, with the calls of log_write().
def ballocLogged (sb : Super) (C : Buffers) : Nat × Buffers :=
  match (List.range sb.size).find? fun b => !C.disk.bitmap b with
  | some b =>
    let C := { C with disk := { C.disk with bitmap := update C.disk.bitmap b true } }.logWrite (.bitmap (b / BPB))
    (b, (C.fill b zeroBlock).logWrite (.data b))
  | none => (0, C)

def bmapEntryLogged (sb : Super) (addr bn : Nat) (C : Buffers) : Nat × Buffers :=
  if getUint (C.disk.data addr) bn = 0 then
    let (a, C) := ballocLogged sb C
    if a = 0 then (0, C) else (a, (C.fill addr (setUint (C.disk.data addr) bn a)).logWrite (.data addr))
  else (getUint (C.disk.data addr) bn, C)

def bmapLogged (sb : Super) (ip : Dinode) (bn : Nat) (C : Buffers) : Except FsPanic (Nat × Dinode × Buffers) :=
  if bn < NDIRECT then
    if ip.addrs bn = 0 then
      let (addr, C) := ballocLogged sb C
      if addr = 0 then .ok (0, ip, C) else .ok (addr, ip.setAddr bn addr, C)
    else .ok (ip.addrs bn, ip, C)
  else if bn - NDIRECT < NINDIRECT then
    if ip.addrs NDIRECT = 0 then
      let (addr, C) := ballocLogged sb C
      if addr = 0 then .ok (0, ip, C)
      else
        let (a, C) := bmapEntryLogged sb addr (bn - NDIRECT) C
        .ok (a, ip.setAddr NDIRECT addr, C)
    else
      let (a, C) := bmapEntryLogged sb (ip.addrs NDIRECT) (bn - NDIRECT) C
      .ok (a, ip, C)
  else .error .bmap

-- A copy that fails leaves the loop after brelse() alone.
def writeiLoopLogged (sb : Super) :
    Nat → Dinode → List Byte → Nat → Nat → Nat → Buffers → Except FsPanic (Nat × Nat × Dinode × Buffers)
  | 0, ip, _, off, _, tot, C => .ok (tot, off, ip, C)
  | turns + 1, ip, src, off, n, tot, C =>
    if tot < n then do
      let (addr, ip, C) ← bmapLogged sb ip (off / BSIZE) C
      if addr = 0 then return (tot, off, ip, C)
      let m := min (n - tot) (BSIZE - off % BSIZE)
      let C := C.fill addr (writeAt (C.disk.data addr) (off % BSIZE) (src.take m))
      if src.length < m then return (tot, off, ip, C)
      writeiLoopLogged sb turns ip (src.drop m) (off + m) n (tot + m) (C.logWrite (.data addr))
    else .ok (tot, off, ip, C)

def writeiLogged (sb : Super) (inum : Nat) (ip : Dinode) (src : List Byte) (off n : Nat) (C : Buffers) :
    Except FsPanic (Int × Dinode × Buffers) :=
  if off > ip.size ∨ wrapU32 (off + n) < off then .ok (-1, ip, C)
  else if wrapU32 (off + n) > MAXFILE * BSIZE then .ok (-1, ip, C)
  else do
    let (tot, off, ip, C) ← writeiLoopLogged sb n ip src off n 0 C
    let ip := if off > ip.size then { ip with size := off } else ip
    return ((tot : Int), ip, { C with disk := iupdate inum ip C.disk }.logWrite (.inodes (inum / IPB)))

variable {sb : Super} {D : Disk} {C C' C₁ : Buffers} {ip ip' ip₁ : Dinode} {inum bn b addr : Nat} {loose : Nat → Prop}

-- Without the calls of log_write() these are the functions from before.
section Erasure

theorem ballocLogged_fst (sb : Super) (C : Buffers) : (ballocLogged sb C).1 = (balloc sb C.disk).1 := by
  rw [ballocLogged, balloc]
  cases (List.range sb.size).find? fun b => !C.disk.bitmap b <;> rfl

theorem ballocLogged_disk (sb : Super) (C : Buffers) : (ballocLogged sb C).2.disk = (balloc sb C.disk).2 := by
  rw [ballocLogged, balloc]
  cases (List.range sb.size).find? fun b => !C.disk.bitmap b <;> rfl

theorem bmapEntryLogged_erase (sb : Super) (addr bn : Nat) (C : Buffers) :
    ((bmapEntryLogged sb addr bn C).1, (bmapEntryLogged sb addr bn C).2.disk) = bmapEntry sb addr bn C.disk := by
  rw [bmapEntryLogged, bmapEntry]
  split_ifs
  · simp only [← ballocLogged_fst, ← ballocLogged_disk]
    split_ifs <;> rfl
  · rfl

theorem bmapLogged_erase (sb : Super) (ip : Dinode) (bn : Nat) (C : Buffers) :
    (bmapLogged sb ip bn C).map (fun r => (r.1, r.2.1, r.2.2.disk)) = bmap sb ip bn C.disk := by
  rw [bmapLogged, bmap]
  split_ifs
  · simp only [← ballocLogged_fst, ← ballocLogged_disk]
    split_ifs <;> rfl
  · rfl
  · simp only [← ballocLogged_fst, ← ballocLogged_disk, ← bmapEntryLogged_erase]
    split_ifs <;> rfl
  · simp only [← bmapEntryLogged_erase]
    rfl
  · rfl

theorem writeiLoopLogged_erase (sb : Super) : ∀ turns ip src off n tot C,
    (writeiLoopLogged sb turns ip src off n tot C).map (fun r => (r.1, r.2.1, r.2.2.1, r.2.2.2.disk)) =
      writeiLoop sb turns ip src off n tot C.disk := by
  intro turns
  induction turns with
  | zero => exact fun _ _ _ _ _ _ => rfl
  | succ turns ih =>
    intro ip src off n tot C
    rw [writeiLoopLogged, writeiLoop]
    split_ifs with hlt
    · rw [← bmapLogged_erase]
      cases bmapLogged sb ip (off / BSIZE) C with
      | error e => rfl
      | ok r =>
        simp only [Except.map, ok_bind]
        split_ifs
        · rfl
        · rfl
        · exact ih ..
    · rfl

theorem writeiLogged_erase (sb : Super) (inum : Nat) (ip : Dinode) (src : List Byte) (off n : Nat) (C : Buffers) :
    (writeiLogged sb inum ip src off n C).map (fun r => (r.1, r.2.1, r.2.2.disk)) =
      writei sb inum ip src off n C.disk := by
  rw [writeiLogged, writei]
  split_ifs
  · rfl
  · rfl
  · rw [← writeiLoopLogged_erase]
    cases writeiLoopLogged sb n ip src off n 0 C <;> rfl

end Erasure

structure Logs (C C' : Buffers) : Prop where
  mono : ∀ c ∈ C.logged, c ∈ C'.logged
  data : ∀ b, .data b ∉ C'.logged → C'.disk.data b = C.disk.data b
  bits : ∀ b, .bitmap (b / BPB) ∉ C'.logged → C'.disk.bitmap b = C.disk.bitmap b

theorem Logs.refl (C : Buffers) : Logs C C := ⟨fun _ h => h, fun _ _ => rfl, fun _ _ => rfl⟩

theorem Logs.trans (h : Logs C C₁) (h' : Logs C₁ C') : Logs C C' where
  mono := fun c hc => h'.mono c (h.mono c hc)
  data := fun b hb => (h'.data b hb).trans (h.data b fun hc => hb (h'.mono _ hc))
  bits := fun b hb => (h'.bits b hb).trans (h.bits b fun hc => hb (h'.mono _ hc))

theorem Logs.fill (C : Buffers) (b : Nat) (block : Block) : Logs C ((C.fill b block).logWrite (.data b)) where
  mono := fun _ hc => mem_cons_of_mem _ hc
  data := by
    intro c hc
    refine update_of_ne (fun heq : c = b => hc ?_) ..
    rw [heq]
    exact mem_cons_self
  bits := fun _ _ => rfl

section Bmap

theorem ballocLogged_cases (sb : Super) (C : Buffers) :
    (∃ b, b < sb.size ∧ C.disk.bitmap b = false ∧
      ballocLogged sb C = (b, ⟨C.disk.take b, .data b :: .bitmap (b / BPB) :: C.logged⟩)) ∨
    ballocLogged sb C = (0, C) := by
  rw [ballocLogged]
  cases hfind : (List.range sb.size).find? fun b => !C.disk.bitmap b with
  | some b =>
    have hfree := find?_some hfind
    have hlt := mem_range.mp (mem_of_find?_eq_some hfind)
    exact .inl ⟨b, hlt, by simpa using hfree, rfl⟩
  | none => exact .inr rfl

theorem logs_take (C : Buffers) (b : Nat) : Logs C ⟨C.disk.take b, .data b :: .bitmap (b / BPB) :: C.logged⟩ where
  mono := fun _ hc => mem_cons_of_mem _ (mem_cons_of_mem _ hc)
  data := by
    intro c hc
    refine update_of_ne (fun heq : c = b => hc ?_) ..
    rw [heq]
    exact mem_cons_self
  bits := by
    intro c hc
    refine update_of_ne (fun heq : c = b => hc ?_) ..
    rw [heq]
    exact mem_cons_of_mem _ mem_cons_self

theorem ballocLogged_spec (sb : Super) (C : Buffers) :
    Logs C (ballocLogged sb C).2 ∧
    (∀ c, C.disk.bitmap c = true → (ballocLogged sb C).2.disk.bitmap c = true) ∧
    ((ballocLogged sb C).1 ≠ 0 → .data (ballocLogged sb C).1 ∈ (ballocLogged sb C).2.logged ∧
      C.disk.bitmap (ballocLogged sb C).1 = false ∧ (ballocLogged sb C).2.disk.data (ballocLogged sb C).1 = zeroBlock) ∧
    ∀ c, C.disk.bitmap c = true → .data c ∈ (ballocLogged sb C).2.logged → .data c ∈ C.logged := by
  rcases ballocLogged_cases sb C with ⟨b, -, hfree, heq⟩ | heq <;> rw [heq]
  · refine ⟨logs_take C b, fun c hc => take_marked hc,
      fun _ => ⟨mem_cons_self, hfree, update_self ..⟩, fun c hc hmem => ?_⟩
    have hne : c ≠ b := fun h => by simp [h, hfree] at hc
    simpa [hne] using hmem
  · exact ⟨.refl C, fun _ hc => hc, fun h => absurd rfl h, fun _ _ hmem => hmem⟩

theorem bmapEntryLogged_spec (sb : Super) (addr bn : Nat) (C : Buffers) :
    Logs C (bmapEntryLogged sb addr bn C).2 ∧
    (getUint (C.disk.data addr) bn = 0 → (bmapEntryLogged sb addr bn C).1 ≠ 0 →
      .data (bmapEntryLogged sb addr bn C).1 ∈ (bmapEntryLogged sb addr bn C).2.logged) ∧
    ∀ c, C.disk.bitmap c = true → c ≠ addr → .data c ∈ (bmapEntryLogged sb addr bn C).2.logged → .data c ∈ C.logged := by
  rw [bmapEntryLogged]
  by_cases hzero : getUint (C.disk.data addr) bn = 0
  · rw [if_pos hzero]
    obtain ⟨hlogs, -, hnew, hold⟩ := ballocLogged_spec sb C
    generalize ballocLogged sb C = r at hlogs hnew hold ⊢
    simp only
    by_cases ha : r.1 = 0
    · rw [if_pos ha]
      exact ⟨hlogs, fun _ h => absurd rfl h, fun c hc _ hmem => hold c hc hmem⟩
    · rw [if_neg ha]
      refine ⟨hlogs.trans (.fill ..), fun _ _ => mem_cons_of_mem _ (hnew ha).1, fun c hc hne hmem => ?_⟩
      exact hold c hc (by simpa [Buffers.logWrite, Buffers.fill, hne] using hmem)
  · rw [if_neg hzero]
    exact ⟨.refl C, fun h => absurd h hzero, fun _ _ _ hmem => hmem⟩

-- The calls of log_write() in bmap(): new blocks, and the indirect block.
structure LogMapped (bn : Nat) (ip : Dinode) (C : Buffers) (addr : Nat) (C' : Buffers) : Prop extends Logs C C' where
  fresh : blockOf C.disk ip bn = 0 → addr ≠ 0 → .data addr ∈ C'.logged
  old : ∀ c, C.disk.bitmap c = true → c ≠ ip.addrs NDIRECT → .data c ∈ C'.logged → .data c ∈ C.logged

theorem bmapLogged_spec (hok : bmapLogged sb ip bn C = .ok (addr, ip', C')) : LogMapped bn ip C addr C' := by
  rw [bmapLogged] at hok
  by_cases hdirect : bn < NDIRECT
  · rw [if_pos hdirect] at hok
    have hblock : blockOf C.disk ip bn = ip.addrs bn := if_pos hdirect
    by_cases hzero : ip.addrs bn = 0
    · rw [if_pos hzero] at hok
      obtain ⟨hlogs, -, hnew, hold⟩ := ballocLogged_spec sb C
      generalize ballocLogged sb C = r at hlogs hnew hold hok
      simp only at hok
      split_ifs at hok with ha
      · obtain ⟨rfl, -, rfl⟩ : _ ∧ _ ∧ _ := by simpa using hok
        exact ⟨hlogs, fun _ h => absurd rfl h, fun c hc _ => hold c hc⟩
      · obtain ⟨rfl, -, rfl⟩ : _ ∧ _ ∧ _ := by simpa using hok
        exact ⟨hlogs, fun _ h => (hnew h).1, fun c hc _ => hold c hc⟩
    · rw [if_neg hzero] at hok
      obtain ⟨rfl, -, rfl⟩ : _ ∧ _ ∧ _ := by simpa using hok
      exact ⟨.refl C, fun h => absurd (hblock.symm.trans h) hzero, fun _ _ _ hmem => hmem⟩
  · rw [if_neg hdirect] at hok
    by_cases hrange : bn - NDIRECT < NINDIRECT
    · rw [if_pos hrange] at hok
      by_cases hind : ip.addrs NDIRECT = 0
      · rw [if_pos hind] at hok
        obtain ⟨hlogs, hmarked, hnew, hold⟩ := ballocLogged_spec sb C
        generalize ballocLogged sb C = r at hlogs hmarked hnew hold hok
        simp only at hok
        split_ifs at hok with ha
        · obtain ⟨rfl, -, rfl⟩ : _ ∧ _ ∧ _ := by simpa using hok
          exact ⟨hlogs, fun _ h => absurd rfl h, fun c hc _ => hold c hc⟩
        · obtain ⟨hlogs', hnew', hold'⟩ := bmapEntryLogged_spec sb r.1 (bn - NDIRECT) r.2
          obtain ⟨rfl, -, rfl⟩ : _ ∧ _ ∧ _ := by simpa using hok
          refine ⟨hlogs.trans hlogs', fun _ h => hnew' ?_ h, fun c hc _ hmem => ?_⟩
          · rw [(hnew ha).2.2, getUint_zeroBlock]
          · have hne : c ≠ r.1 := fun h => by simp [h, (hnew ha).2.1] at hc
            exact hold c hc (hold' c (hmarked c hc) hne hmem)
      · rw [if_neg hind] at hok
        obtain ⟨hlogs, hnew, hold⟩ := bmapEntryLogged_spec sb (ip.addrs NDIRECT) (bn - NDIRECT) C
        obtain ⟨rfl, -, rfl⟩ : _ ∧ _ ∧ _ := by simpa using hok
        have hblock : blockOf C.disk ip bn = getUint (C.disk.data (ip.addrs NDIRECT)) (bn - NDIRECT) := by
          rw [blockOf, if_neg hdirect, if_pos ⟨hrange, hind⟩]
        exact ⟨hlogs, fun h => hnew (hblock.symm.trans h), hold⟩
    · rw [if_neg hrange] at hok
      simp at hok

end Bmap

section Writei

variable {src : List Byte} {off len off' : Nat}

-- The bytes of the source that a copy which then failed has moved into the block at off'.
def Spilled (src : List Byte) (off len off' : Nat) (ip' : Dinode) (D' : Disk) (o : Nat) : Prop :=
  o < off + src.length ∧ o / BSIZE = off' / BSIZE ∧ o < off + len ∧ blockOf D' ip' (off' / BSIZE) ≠ 0

instance : Decidable (Spilled src off len off' ip' D o) := inferInstanceAs (Decidable (_ ∧ _))

-- What the loop of writei() does with any source, from offset off to off'.
structure LogWrote (sb : Super) (inum : Nat) (ip : Dinode) (C : Buffers) (src : List Byte) (off len off' : Nat)
    (ip' : Dinode) (C' : Buffers) (loose : Nat → Prop) : Prop where
  wrote : Wrote sb inum ip C.disk src off len off' ip' C'.disk loose
  boundary : off' < off + len → off' = off ∨ off' % BSIZE = 0
  bytes : ∀ o, byteAt C'.disk ip' o =
    if off ≤ o ∧ (o < off' ∨ Spilled src off len off' ip' C'.disk o) then src.getD (o - off) 0 else byteAt C.disk ip o
  mono : ∀ c ∈ C.logged, c ∈ C'.logged
  bits : ∀ b, .bitmap (b / BPB) ∉ C'.logged → C'.disk.bitmap b = C.disk.bitmap b
  -- the block at off' may have changed without having been logged
  data : ∀ b, .data b ∉ C'.logged → blockOf C.disk ip (off' / BSIZE) = 0 ∨ b ≠ blockOf C.disk ip (off' / BSIZE) →
    C'.disk.data b = C.disk.data b
  touched : ∀ k, off / BSIZE ≤ k → k * BSIZE < off' → off < off' → .data (blockOf C'.disk ip' k) ∈ C'.logged
  old : ∀ k, blockOf C.disk ip k ≠ 0 → k < off / BSIZE ∨ off' ≤ k * BSIZE ∨ off' = off →
    .data (blockOf C.disk ip k) ∈ C'.logged → .data (blockOf C.disk ip k) ∈ C.logged

theorem LogWrote.refl (hacc : Accounted sb (iupdate inum ip C.disk) loose) (off : Nat) (src : List Byte) :
    LogWrote sb inum ip C src off 0 off ip C loose where
  wrote := .none (.refl hacc) (fun _ => rfl) fun _ h => absurd h (Nat.lt_irrefl _)
  boundary := fun h => absurd h (Nat.lt_irrefl _)
  bytes := by
    intro o
    rw [if_neg]
    rintro ⟨hle, hlt | hspill⟩
    · omega
    · exact absurd hspill.2.2.1 (Nat.not_lt.mpr hle)
  mono := fun _ h => h
  bits := fun _ _ => rfl
  data := fun _ _ _ => rfl
  touched := fun _ _ _ h => absurd h (Nat.lt_irrefl _)
  old := fun _ _ _ h => h

theorem LogMapped.old_block (hlog : LogMapped bn ip C addr C₁) (hacc : Accounted sb (iupdate inum ip C.disk) loose)
    (hinum : inum < sb.ninodes) (htype : ip.type ≠ .free) (hk : blockOf C.disk ip k ≠ 0)
    (hmem : .data (blockOf C.disk ip k) ∈ C₁.logged) : .data (blockOf C.disk ip k) ∈ C.logged := by
  have hslot : (iupdate inum ip C.disk).slot sb (inum, .block k) = blockOf C.disk ip k := slot_self hinum htype _
  have hind : (iupdate inum ip C.disk).slot sb (inum, .indirect) = ip.addrs NDIRECT := slot_self hinum htype _
  refine hlog.old _ ?_ (fun heq => ?_) hmem
  · rw [← hslot] at hk ⊢
    exact hacc.bit_of_slot hk
  · rw [← hslot, ← hind] at heq
    rw [← hslot] at hk
    have := hacc.inj _ _ hk heq.symm
    simp at this

theorem LogWrote.full (hmap : Mapped sb inum (off / BSIZE) ip C.disk 0 ip₁ C₁.disk loose)
    (hlog : LogMapped (off / BSIZE) ip C 0 C₁) (hacc : Accounted sb (iupdate inum ip C.disk) loose)
    (hinum : inum < sb.ninodes) (htype : ip.type ≠ .free) : LogWrote sb inum ip C src off len off ip₁ C₁ loose where
  wrote := by
    have hzero : blockOf C.disk ip (off / BSIZE) = 0 := by_contra fun hne => hne (hmap.kept hne).1.symm
    exact .none (hmap.extends hacc hinum htype) (fun _ => hmap.byteAt hacc hinum htype) fun _ _ => ⟨hzero, hmap.full rfl⟩
  boundary := fun _ => .inl rfl
  bytes := by
    intro o
    rw [if_neg, hmap.byteAt hacc hinum htype]
    rintro ⟨hle, hlt | hspill⟩
    · omega
    · exact hspill.2.2.2 hmap.block
  mono := hlog.mono
  bits := hlog.bits
  data := fun b hb _ => hlog.data b hb
  touched := fun _ _ _ h => absurd h (Nat.lt_irrefl _)
  old := fun _ hk _ => hlog.old_block hacc hinum htype hk

theorem LogWrote.fault (hmap : Mapped sb inum (off / BSIZE) ip C.disk addr ip₁ C₁.disk loose)
    (hlog : LogMapped (off / BSIZE) ip C addr C₁) (hacc : Accounted sb (iupdate inum ip C.disk) loose)
    (hinum : inum < sb.ninodes) (htype : ip.type ≠ .free) (haddr : addr ≠ 0) (hm : m ≤ len)
    (hroom : m ≤ BSIZE - off % BSIZE) (hsrc : src.length < m) :
    LogWrote sb inum ip C src off len off ip₁
      (C₁.fill addr (writeAt (C₁.disk.data addr) (off % BSIZE) (src.take m))) loose := by
  have htype₁ : ip₁.type ≠ .free := by rw [hmap.fields]; exact htype
  have hthis := hmap.block
  have htake : src.take m = src := take_of_length_le (Nat.le_of_lt hsrc)
  rw [htake]
  obtain ⟨hext, hblock, hbyte⟩ := fill_spec (off / BSIZE) (writeAt (C₁.disk.data addr) (off % BSIZE) src)
    hmap.accounted hinum htype₁ (hthis ▸ haddr)
  rw [hthis] at hext hblock hbyte
  refine ⟨.none ((hmap.extends hacc hinum htype).trans hext) (by omega) (by omega), fun _ => .inl rfl, fun o => ?_,
    hlog.mono, hlog.bits, fun b hb hcase => ?_, fun _ _ _ h => absurd h (Nat.lt_irrefl _),
    fun _ hk _ => hlog.old_block hacc hinum htype hk⟩
  · have hdisk : (C₁.fill addr (writeAt (C₁.disk.data addr) (off % BSIZE) src)).disk =
        C₁.disk.fill addr (writeAt (C₁.disk.data addr) (off % BSIZE) src) := rfl
    rw [hdisk, hbyte]
    by_cases hin : off ≤ o ∧ o < off + src.length
    · obtain ⟨hdiv, hmod⟩ := same_block hin.1 (show o < off + m by omega) hroom
      have hspill : Spilled src off len off ip₁ (C₁.disk.fill addr (writeAt (C₁.disk.data addr) (off % BSIZE) src)) o :=
        ⟨hin.2, hdiv, by omega, by rw [hblock, hthis]; exact haddr⟩
      rw [if_pos hdiv, if_pos ⟨hin.1, .inr hspill⟩, hmod, writeAt_inside _ _ (by omega),
        getD_eq_getElem?_getD, getElem?_eq_getElem (by omega)]
      rfl
    · have hout : ¬(off ≤ o ∧ (o < off ∨
          Spilled src off len off ip₁ (C₁.disk.fill addr (writeAt (C₁.disk.data addr) (off % BSIZE) src)) o)) :=
        fun h => hin ⟨h.1, h.2.elim (by omega) And.left⟩
      rw [if_neg hout, ← congrFun (hmap.byteAt hacc hinum htype) o]
      split_ifs with ho
      · rw [byteAt, ho, hthis, if_neg haddr, writeAt_outside]
        rw [BSIZE_eq] at *
        omega
      · rfl
  · -- a new block has been logged by bmap()
    have hne : b ≠ addr := by
      rintro rfl
      rcases hcase with hzero | hne
      · exact hb (hlog.fresh hzero haddr)
      · by_cases hzero : blockOf C.disk ip (off / BSIZE) = 0
        · exact hb (hlog.fresh hzero haddr)
        · exact hne (hmap.kept hzero).1
    exact (update_of_ne hne ..).trans (hlog.data b hb)

theorem blockOf_inj (hacc : Accounted sb (iupdate inum ip D) loose) (hinum : inum < sb.ninodes) (htype : ip.type ≠ .free) (hk : blockOf D ip k ≠ 0) (heq : blockOf D ip j = blockOf D ip k) : j = k := by
  have hself : ∀ k, (iupdate inum ip D).slot sb (inum, .block k) = blockOf D ip k := fun k => slot_self hinum htype _
  rw [← hself, ← hself k] at heq
  rw [← hself] at hk
  simpa using hacc.inj _ _ hk heq

theorem LogWrote.cons (hmap : Mapped sb inum (off / BSIZE) ip C.disk addr ip₁ C₁.disk loose)
    (hlog : LogMapped (off / BSIZE) ip C addr C₁) (hacc : Accounted sb (iupdate inum ip C.disk) loose)
    (hinum : inum < sb.ninodes) (htype : ip.type ≠ .free) (haddr : addr ≠ 0) (hpos : 0 < m)
    (hroom : m ≤ BSIZE - off % BSIZE) (hsrc : m ≤ src.length) (hend : 0 < len' → (off + m) % BSIZE = 0)
    (h : LogWrote sb inum ip₁ ((C₁.fill addr (writeAt (C₁.disk.data addr) (off % BSIZE) (src.take m))).logWrite (.data addr))
      (src.drop m) (off + m) len' off' ip' C' loose) :
    LogWrote sb inum ip C src off (m + len') off' ip' C' loose := by
  have hfirst := Wrote.piece hmap hacc hinum htype haddr hroom hsrc
  have htype₁ : ip₁.type ≠ .free := by rw [hmap.fields]; exact htype
  obtain ⟨-, hblock, -⟩ := fill_spec (off / BSIZE) (writeAt (C₁.disk.data addr) (off % BSIZE) (src.take m))
    hmap.accounted hinum htype₁ (hmap.block ▸ haddr)
  rw [hmap.block] at hblock
  have hlogs : Logs C ((C₁.fill addr (writeAt (C₁.disk.data addr) (off % BSIZE) (src.take m))).logWrite (.data addr)) :=
    hlog.toLogs.trans (.fill ..)
  generalize hC₂ : (C₁.fill addr (writeAt (C₁.disk.data addr) (off % BSIZE) (src.take m))).logWrite (.data addr) = C₂ at h hlogs
  have hdisk : C₂.disk = C₁.disk.fill addr (writeAt (C₁.disk.data addr) (off % BSIZE) (src.take m)) := by rw [← hC₂]; rfl
  have hlogged : C₂.logged = .data addr :: C₁.logged := by rw [← hC₂]; rfl
  rw [← hdisk] at hfirst hblock
  have haddr₂ : blockOf C₂.disk ip₁ (off / BSIZE) = addr := (hblock _).trans hmap.block
  have hmod : off % BSIZE < BSIZE := Nat.mod_lt _ (by decide)
  have hle := h.wrote.le
  refine ⟨hfirst.trans h.wrote hpos hsrc hend, fun hlt => .inr ?_, fun o => ?_, fun c hc => h.mono c (hlogs.mono c hc),
    fun b hb => (h.bits b hb).trans (hlogs.bits b fun hc => hb (h.mono _ hc)), fun b hb hcase => ?_,
    fun k hk hlt _ => ?_, fun k hk hcase hmem => ?_⟩
  · rcases h.boundary (by omega) with heq | hzero
    · exact heq ▸ hend (by omega)
    · exact hzero
  · have hspill : Spilled (src.drop m) (off + m) len' off' ip' C'.disk o ↔ Spilled src off (m + len') off' ip' C'.disk o := by
      rw [Spilled, Spilled, length_drop, show off + m + (src.length - m) = off + src.length by omega, Nat.add_assoc]
    rw [h.bytes, hfirst.bytes hsrc]
    simp only [hspill]
    by_cases hnew : off + m ≤ o ∧ (o < off' ∨ Spilled src off (m + len') off' ip' C'.disk o)
    · rw [if_pos hnew, if_pos ⟨by omega, hnew.2⟩, getD_eq_getElem?_getD, getD_eq_getElem?_getD, getElem?_drop,
        show m + (o - (off + m)) = o - off by omega]
    · rw [if_neg hnew]
      by_cases hin : off ≤ o ∧ o < off + m
      · rw [if_pos hin, if_pos ⟨hin.1, .inl (by omega)⟩]
      · rw [if_neg hin, if_neg fun hall => hnew ⟨by omega, hall.2⟩]
  · have hb₂ : .data b ∉ C₂.logged := fun hc => hb (h.mono _ hc)
    rw [h.data b hb ?_, hlogs.data b hb₂]
    by_cases hzero : blockOf C.disk ip (off' / BSIZE) = 0
    · by_cases hk : off' / BSIZE = off / BSIZE
      · refine .inr fun heq => hb₂ ?_
        rw [heq, hk, haddr₂, hlogged]
        exact mem_cons_self
      · exact .inl (by rw [hblock, hmap.rest _ hk, hzero])
    · rw [hfirst.blocks _ hzero]
      exact .inr (hcase.resolve_left hzero)
  · by_cases hkoff : k = off / BSIZE
    · have hkept : blockOf C'.disk ip' k = addr := by
        rw [hkoff, h.wrote.blocks _ (by rw [haddr₂]; exact haddr), haddr₂]
      rw [hkept]
      exact h.mono _ (by rw [hlogged]; exact mem_cons_self)
    · have hnext : off + m ≤ k * BSIZE := by
        rw [BSIZE_eq] at *
        omega
      refine h.touched k ?_ hlt (by omega)
      rw [BSIZE_eq] at *
      omega
  · have hsame : blockOf C₂.disk ip₁ k = blockOf C.disk ip k := hfirst.blocks k hk
    have hother : k ≠ off / BSIZE := by
      rw [BSIZE_eq] at *
      omega
    have hmem₂ := h.old k (by rw [hsame]; exact hk) (by rw [BSIZE_eq] at *; omega) (by rw [hsame]; exact hmem)
    rw [hsame, hlogged] at hmem₂
    rcases mem_cons.mp hmem₂ with heq | hmem₁
    · have heq' : blockOf C₁.disk ip₁ k = blockOf C₁.disk ip₁ (off / BSIZE) := by
        rw [hmap.block, ← hblock, hsame]
        simpa using heq
      exact absurd (blockOf_inj hmap.accounted hinum htype₁ (by rw [hmap.block]; exact haddr) heq') hother
    · exact hlog.old_block hacc hinum htype hk hmem₁

theorem writeiLoopLogged_spec (hinum : inum < sb.ninodes) : ∀ turns ip src off n tot C,
    Accounted sb (iupdate inum ip C.disk) loose → ip.type ≠ .free → tot ≤ n → n - tot ≤ turns →
    off + (n - tot) ≤ MAXFILE * BSIZE →
    ∃ off' ip' C', writeiLoopLogged sb turns ip src off n tot C = .ok (tot + (off' - off), off', ip', C') ∧
      LogWrote sb inum ip C src off (n - tot) off' ip' C' loose := by
  intro turns
  induction turns with
  | zero =>
    intro ip src off n tot C hacc htype htot hturns hmax
    refine ⟨off, ip, C, by simp [writeiLoopLogged], ?_⟩
    rw [show n - tot = 0 by omega]
    exact .refl hacc off src
  | succ turns ih =>
    intro ip src off n tot C hacc htype htot hturns hmax
    rw [writeiLoopLogged]
    by_cases hlt : tot < n
    · have hbn : off / BSIZE < MAXFILE := by
        rw [MAXFILE_eq, BSIZE_eq] at *
        omega
      obtain ⟨addr, ip₁, D₁, hbmap, hmap⟩ := bmap_spec hacc hinum htype hbn
      rw [← bmapLogged_erase] at hbmap
      obtain ⟨⟨addr, ip₁, C₁⟩, hlogged, htriple⟩ := map_eq_ok.mp hbmap
      obtain ⟨rfl, rfl, rfl⟩ : _ ∧ _ ∧ _ := by simpa using htriple
      have hlog := bmapLogged_spec hlogged
      rw [if_pos hlt, hlogged, ok_bind]
      simp only
      by_cases haddr : addr = 0
      · subst haddr
        exact ⟨off, ip₁, C₁, by simp, .full hmap hlog hacc hinum htype⟩
      · rw [if_neg haddr]
        generalize hpiece : min (n - tot) (BSIZE - off % BSIZE) = m
        have hmod : off % BSIZE < BSIZE := Nat.mod_lt _ (by decide)
        have hm : 0 < m ∧ m ≤ n - tot ∧ m ≤ BSIZE - off % BSIZE := by omega
        by_cases hsrc : src.length < m
        · rw [if_pos hsrc]
          exact ⟨off, ip₁, _, by simp, .fault hmap hlog hacc hinum htype haddr hm.2.1 hm.2.2 hsrc⟩
        · rw [if_neg hsrc]
          have htype₁ : ip₁.type ≠ .free := by rw [hmap.fields]; exact htype
          have hfirst := Wrote.piece hmap hacc hinum htype haddr hm.2.2 (Nat.le_of_not_lt hsrc)
          obtain ⟨off', ip', C', hloop, hrest⟩ := ih ip₁ (src.drop m) (off + m) n (tot + m)
            ((C₁.fill addr (writeAt (C₁.disk.data addr) (off % BSIZE) (src.take m))).logWrite (.data addr))
            hfirst.accounted htype₁ (by omega) (by omega) (by omega)
          have hwrote := LogWrote.cons hmap hlog hacc hinum htype haddr hm.1 hm.2.2 (Nat.le_of_not_lt hsrc)
            (fun hlen => by rw [BSIZE_eq] at *; omega) hrest
          rw [show m + (n - (tot + m)) = n - tot by omega] at hwrote
          refine ⟨off', ip', C', ?_, hwrote⟩
          have hle := hrest.wrote.le
          rw [hloop, show tot + m + (off' - (off + m)) = tot + (off' - off) by omega]
    · rw [if_neg hlt]
      refine ⟨off, ip, C, by simp, ?_⟩
      rw [show n - tot = 0 by omega]
      exact .refl hacc off src

theorem writeiLogged_spec (hacc : Accounted sb (iupdate inum ip C.disk) loose) (hinum : inum < sb.ninodes)
    (htype : ip.type ≠ .free) (src : List Byte) (hoff : off ≤ ip.size) (hmax : off + n ≤ MAXFILE * BSIZE) :
    ∃ off' ip' C', writeiLogged sb inum ip src off n C =
        .ok (((off' - off : Nat) : Int), { ip' with size := max ip.size off' },
          { C' with disk := iupdate inum { ip' with size := max ip.size off' } C'.disk }.logWrite (.inodes (inum / IPB))) ∧
      LogWrote sb inum ip C src off n off' ip' C' loose := by
  have hwrap : wrapU32 (off + n) = off + n := by
    rw [MAXFILE_eq, BSIZE_eq] at hmax
    exact Nat.mod_eq_of_lt (by omega)
  obtain ⟨off', ip', C', hloop, hwrote⟩ :=
    writeiLoopLogged_spec hinum n ip src off n 0 C hacc htype (Nat.zero_le _) (by omega) (by omega)
  rw [Nat.zero_add] at hloop
  refine ⟨off', ip', C', ?_, hwrote⟩
  rw [writeiLogged, hwrap, if_neg (by omega), if_neg (by omega), hloop, ok_bind]
  have hsize : ip'.size = ip.size := by rw [hwrote.wrote.fields]
  have hip : (if off' > ip'.size then { ip' with size := off' } else ip') = { ip' with size := max ip.size off' } := by
    rw [hsize]
    split_ifs with h
    · rw [Nat.max_eq_right (by omega)]
    · rw [Nat.max_eq_left (by omega), ← hsize]
  simp only [hip]
  rfl

theorem writeiLogged_refused (h : ¬(off ≤ ip.size ∧ off ≤ wrapU32 (off + n) ∧ wrapU32 (off + n) ≤ MAXFILE * BSIZE)) :
    writeiLogged sb inum ip src off n C = .ok (-1, ip, C) := by
  rw [writeiLogged]
  split_ifs with h1 h2
  · rfl
  · rfl
  · omega

theorem writei_spec (hacc : Accounted sb (iupdate inum ip D) loose) (hinum : inum < sb.ninodes)
    (htype : ip.type ≠ .free) (src : List Byte) (hoff : off ≤ ip.size) (hmax : off + n ≤ MAXFILE * BSIZE) :
    ∃ off' ip' D', writei sb inum ip src off n D =
        .ok (((off' - off : Nat) : Int), { ip' with size := max ip.size off' },
          iupdate inum { ip' with size := max ip.size off' } D') ∧
      Wrote sb inum ip D src off n off' ip' D' loose := by
  obtain ⟨off', ip', C', hok, hw⟩ := writeiLogged_spec (C := ⟨D, []⟩) hacc hinum htype src hoff hmax
  refine ⟨off', ip', C'.disk, ?_, hw.wrote⟩
  rw [← writeiLogged_erase sb inum ip src off n ⟨D, []⟩, hok]
  rfl

theorem writei_refused (h : ¬(off ≤ ip.size ∧ off ≤ wrapU32 (off + n) ∧ wrapU32 (off + n) ≤ MAXFILE * BSIZE)) :
    writei sb inum ip src off n D = .ok (-1, ip, D) := by
  rw [← writeiLogged_erase sb inum ip src off n ⟨D, []⟩, writeiLogged_refused h]
  rfl

end Writei

end Xv6.Fs
