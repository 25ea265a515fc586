import Mathlib.Data.Finset.Card
import Xv6.Disk.Confined

namespace Xv6.Fs

open Lib List

variable {sb : Super} {D : Disk} {C C' : Buffers} {ip ip' : Dinode} {inum : Nat} {l : List Cached}

-- The blocks of l are all that has been logged, and the indirect block is one of them.
structure Covers (l : List Cached) (ip : Dinode) (C : Buffers) : Prop where
  logged : C.logged ⊆ l
  indirect : ip.addrs NDIRECT ≠ 0 → .data (ip.addrs NDIRECT) ∈ l

-- What is still to be reserved for an indirect block: the block and its bit.
def spare (ip : Dinode) : Nat := if ip.addrs NDIRECT = 0 then 2 else 0

theorem Covers.of_logWrite (h : Covers l ip (C.logWrite c)) : Covers l ip C :=
  ⟨fun _ hc => h.logged (mem_cons_of_mem _ hc), h.indirect⟩

theorem Covers.cons (h : Covers l ip C) (c : Cached) : Covers (c :: l) ip (C.logWrite c) :=
  ⟨cons_subset_cons c h.logged, fun hne => mem_cons_of_mem _ (h.indirect hne)⟩

theorem ballocLogged_covered (sb : Super) (hl : C.logged ⊆ l) :
    ∃ y, ((ballocLogged sb C).2.logWrite (.data (ballocLogged sb C).1)).logged ⊆ .data (ballocLogged sb C).1 :: y :: l := by
  rcases ballocLogged_cases sb C with ⟨b, -, -, heq⟩ | heq <;> rw [heq]
  · exact ⟨.bitmap (b / BPB), by simp [Buffers.logWrite, subset_cons_of_subset, hl]⟩
  · exact ⟨.data 0, by simp [Buffers.logWrite, subset_cons_of_subset, hl]⟩

theorem bmapEntryLogged_covered (sb : Super) (bn : Nat) (hl : C.logged ⊆ l) (hind : .data ind ∈ l) :
    ∃ x y, ((bmapEntryLogged sb ind bn C).2.logWrite (.data (bmapEntryLogged sb ind bn C).1)).logged ⊆ x :: y :: l := by
  rw [bmapEntryLogged]
  split_ifs with hzero
  · obtain ⟨y, hy⟩ := ballocLogged_covered sb hl
    generalize ballocLogged sb C = r at hy ⊢
    refine ⟨.data r.1, y, ?_⟩
    simp only [Buffers.logWrite, cons_subset] at hy
    by_cases ha : r.1 = 0
    · simpa [Buffers.logWrite, ha] using hy.2
    · simpa [Buffers.logWrite, Buffers.fill, ha, hind] using hy.2
  · exact ⟨.data (getUint (C.disk.data ind) bn), .data 0, by simp [Buffers.logWrite, subset_cons_of_subset, hl]⟩

theorem Covers.bmap (h : Covers l ip C) (hok : bmapLogged sb ip bn C = .ok (addr, ip', C')) :
    ∃ l', Covers l' ip' (C'.logWrite (.data addr)) ∧ l'.length + spare ip' ≤ l.length + spare ip + 2 := by
  have hnone : ∀ c, ∃ l', Covers l' ip (C.logWrite c) ∧ l'.length + spare ip ≤ l.length + spare ip + 2 :=
    fun c => ⟨c :: l, h.cons c, by rw [length_cons]; omega⟩
  rw [bmapLogged] at hok
  split_ifs at hok with hdirect hzero hrange hind
  · obtain ⟨y, hy⟩ := ballocLogged_covered sb h.logged
    generalize ballocLogged sb C = r at hok hy
    simp only at hok
    have hcover : ∀ jp : Dinode, jp.addrs NDIRECT = ip.addrs NDIRECT →
        ∃ l', Covers l' jp (r.2.logWrite (.data r.1)) ∧ l'.length + spare jp ≤ l.length + spare ip + 2 := by
      intro jp hjp
      refine ⟨_, ⟨hy, fun hne => ?_⟩, ?_⟩
      · rw [hjp] at hne ⊢
        simp [h.indirect hne]
      · rw [spare, hjp, spare]
        simp only [length_cons]
        omega
    split_ifs at hok with ha <;> cases hok
    · exact ha ▸ hcover ip rfl
    · exact hcover _ (Function.update_of_ne (by omega) ..)
  · cases hok
    exact hnone _
  · obtain ⟨y, hy⟩ := ballocLogged_covered sb h.logged
    generalize ballocLogged sb C = r at hok hy
    simp only at hok
    have hzero : spare ip = 2 := if_pos hind
    split_ifs at hok with ha
    · cases hok
      refine ⟨_, ⟨ha ▸ hy, fun hne => absurd hind hne⟩, ?_⟩
      simp only [length_cons]
      omega
    · obtain ⟨x, z, hxz⟩ := bmapEntryLogged_covered sb (bn - NDIRECT)
        (fun _ hc => hy (mem_cons_of_mem _ hc)) (mem_cons_self (a := Cached.data r.1))
      cases hok
      have hself : (ip.setAddr NDIRECT r.1).addrs NDIRECT = r.1 := by
        simp [Dinode.setAddr]
      refine ⟨_, ⟨hxz, fun _ => by simp [hself]⟩, ?_⟩
      rw [hzero, spare, hself, if_neg ha]
      simp only [length_cons]
      omega
  · obtain ⟨x, y, hxy⟩ := bmapEntryLogged_covered sb (bn - NDIRECT) h.logged (h.indirect hind)
    cases hok
    refine ⟨_, ⟨hxy, fun hne => ?_⟩, ?_⟩
    · simp [h.indirect hne]
    · simp only [length_cons]
      omega

-- The loop of writei() from the beginning of a block on: each turn makes at most one new block.
theorem Covers.writeiLoop (h : Covers l ip C) (hoff : off % BSIZE = 0 ∨ n ≤ tot)
    (hok : writeiLoopLogged sb turns ip src off n tot C = .ok (tot', off', ip', C')) :
    ∃ l', C'.logged ⊆ l' ∧ l'.length ≤ l.length + spare ip + 2 * ((n - tot + 1023) / 1024) := by
  induction turns generalizing ip src off tot C l with
  | zero =>
    cases hok
    exact ⟨l, h.logged, by omega⟩
  | succ turns ih =>
    rw [writeiLoopLogged] at hok
    split_ifs at hok with hlt
    · obtain ⟨⟨addr, ip₁, C₁⟩, hbmap, hok⟩ := bind_eq_ok.mp hok
      obtain ⟨l₁, h₁, hle⟩ := h.bmap hbmap
      simp only at hok
      split_ifs at hok with hz hcopy
      · cases hok
        exact ⟨l₁, h₁.of_logWrite.logged, by omega⟩
      · cases hok
        exact ⟨l₁, h₁.of_logWrite.logged, by omega⟩
      · have hnext : (off + min (n - tot) (BSIZE - off % BSIZE)) % BSIZE = 0 ∨
            n ≤ tot + min (n - tot) (BSIZE - off % BSIZE) := by
          rw [BSIZE_eq] at hoff ⊢
          omega
        obtain ⟨l', hsub, hle'⟩ := ih (C := (C₁.fill addr _).logWrite (.data addr)) ⟨h₁.logged, h₁.indirect⟩ hnext hok
        refine ⟨l', hsub, ?_⟩
        rw [BSIZE_eq] at hoff hle'
        omega
    · cases hok
      exact ⟨l, h.logged, by omega⟩

theorem bmapLogged_of_ne_zero (h : blockOf C.disk ip bn ≠ 0) :
    bmapLogged sb ip bn C = .ok (blockOf C.disk ip bn, ip, C) := by
  rw [bmapLogged]
  rcases blockOf_cases h with ⟨hdirect, haddr⟩ | ⟨hdirect, hrange, hind, hentry⟩
  · rw [if_pos hdirect, haddr, if_neg h]
  · rw [if_neg hdirect, if_pos hrange, if_neg hind, bmapEntryLogged, hentry, if_neg h]

-- A write that begins in the middle of a block finds that block in the file.
theorem writeiLoopLogged_covered (hholes : NoHoles C.disk ip) (hlog : C.logged = []) (hoff : off ≤ ip.size)
    (hn : n ≤ 3 * BSIZE) (hok : writeiLoopLogged sb n ip src off n 0 C = .ok (tot', off', ip', C')) :
    ∃ l', C'.logged ⊆ l' ∧ l'.length ≤ 9 := by
  obtain ⟨l, hl, hlen⟩ : ∃ l, Covers l ip C ∧ l.length + spare ip ≤ 2 := by
    by_cases hind : ip.addrs NDIRECT = 0
    · exact ⟨[], ⟨by simp [hlog], fun h => absurd hind h⟩, by simp [spare, hind]⟩
    · exact ⟨[.data (ip.addrs NDIRECT)], ⟨by simp [hlog], fun _ => mem_cons_self⟩, by simp [spare, hind]⟩
  rw [BSIZE_eq] at hn
  by_cases hstart : off % BSIZE = 0
  · obtain ⟨l', hsub, hle⟩ := hl.writeiLoop (.inl hstart) hok
    exact ⟨l', hsub, by omega⟩
  · cases n with
    | zero =>
      cases hok
      exact ⟨[], by simp [hlog], by simp⟩
    | succ n =>
      rw [BSIZE_eq] at hstart
      have hne : blockOf C.disk ip (off / BSIZE) ≠ 0 := hholes _ (by rw [BSIZE_eq]; omega)
      rw [writeiLoopLogged, if_pos (Nat.succ_pos n), bmapLogged_of_ne_zero hne, ok_bind] at hok
      simp only [if_neg hne] at hok
      split_ifs at hok with hcopy
      · cases hok
        exact ⟨[], by simp [Buffers.fill, hlog], by simp⟩
      · have hnext : (off + min (n + 1 - 0) (BSIZE - off % BSIZE)) % BSIZE = 0 ∨
            n + 1 ≤ 0 + min (n + 1 - 0) (BSIZE - off % BSIZE) := by
          rw [BSIZE_eq]
          omega
        have h₁ := hl.cons (.data (blockOf C.disk ip (off / BSIZE)))
        obtain ⟨l', hsub, hle⟩ := Covers.writeiLoop (C := (C.fill _ _).logWrite _) ⟨h₁.logged, h₁.indirect⟩ hnext hok
        refine ⟨l', hsub, ?_⟩
        rw [length_cons, BSIZE_eq] at hle
        omega

-- A chunk of filewrite(): at most four blocks of data, of which the first is there if there are four, three bits,
-- the indirect block with its bit, and the inode.
theorem chunk_fits_reservation (h : WellFormed sb D) (hlive : D.live sb inum) (src : List Byte)
    (hoff : off ≤ (D.dinodes inum).size) (hn : n ≤ (MAXOPBLOCKS - 1 - 1 - 2) / 2 * BSIZE) :
    ∃ r ip' C', writeiLogged sb inum (D.dinodes inum) src off n ⟨D, []⟩ = .ok (r, ip', C') ∧
      C'.logged.toFinset.card ≤ MAXOPBLOCKS := by
  have hholes := h.holes inum hlive
  obtain ⟨r, ip', C', heq⟩ :
      ∃ r ip' C', writeiLogged sb inum (D.dinodes inum) src off n ⟨D, []⟩ = .ok (r, ip', C') := by
    by_cases hmax : off + n ≤ MAXFILE * BSIZE
    · obtain ⟨loose, hacc⟩ := h.accounted
      rw [← iupdate_self D inum] at hacc
      obtain ⟨off', ip', C', heq, -⟩ := writeiLogged_spec (C := ⟨D, []⟩) hacc hlive.1 hlive.2 src hoff hmax
      exact ⟨_, _, _, heq⟩
    · refine ⟨_, _, _, writeiLogged_refused fun haccept => hmax ?_⟩
      have hsize := hholes.size_le
      rw [MAXFILE_eq, BSIZE_eq, MAXOPBLOCKS, wrapU32] at *
      omega
  refine ⟨r, ip', C', heq, ?_⟩
  rw [writeiLogged] at heq
  split_ifs at heq
  · cases heq
    exact Nat.zero_le _
  · cases heq
    exact Nat.zero_le _
  · obtain ⟨⟨tot, off₁, ip₁, C₁⟩, hloop, heq⟩ := bind_eq_ok.mp heq
    obtain ⟨l, hsub, hlen⟩ := writeiLoopLogged_covered hholes rfl hoff hn hloop
    cases heq
    refine (Finset.card_le_card fun c hc => ?_).trans ((toFinset_card_le (.inodes (inum / IPB) :: l)).trans
      (Nat.succ_le_succ hlen))
    exact mem_toFinset.mpr (cons_subset_cons _ hsub (mem_toFinset.mp hc))

-- Two bytes in the middle of the block of a file.
theorem chunk_fits_reservation_inside :
    ∃ r ip' C', writeiLogged sampleSuper 1 (sampleFile.dinodes 1) [1, 2] 4 2 ⟨sampleFile, []⟩ = .ok (r, ip', C') ∧
      C'.logged.toFinset.card ≤ MAXOPBLOCKS :=
  chunk_fits_reservation wellFormed_sampleFile ⟨by decide, by decide⟩ [1, 2] (by decide) (by decide)

end Xv6.Fs
