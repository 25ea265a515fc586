import Xv6.Disk.Blocks

namespace Xv6.Fs

open Lib List

-- The byte of a file at an offset. A block that the file does not have reads as zeros.
def byteAt (D : Disk) (ip : Dinode) (o : Nat) : Byte :=
  if blockOf D ip (o / BSIZE) = 0 then 0 else D.data (blockOf D ip (o / BSIZE)) (o % BSIZE)

variable {sb : Super} {D D' D₁ D₂ : Disk} {ip ip' ip₁ ip₂ : Dinode} {inum bn b : Nat} {loose : Nat → Prop}

theorem byteAt_congr (hblock : ∀ k, blockOf D' ip' k = blockOf D ip k)
    (hdata : ∀ k, blockOf D ip k ≠ 0 → D'.data (blockOf D ip k) = D.data (blockOf D ip k)) :
    byteAt D' ip' = byteAt D ip := by
  funext o
  rw [byteAt, byteAt, hblock]
  split_ifs with hzero
  · rfl
  · rw [hdata _ hzero]

-- Work on the blocks of one file, which changes no other one.
structure Extends (sb : Super) (inum : Nat) (ip : Dinode) (D : Disk) (ip' : Dinode) (D' : Disk)
    (loose : Nat → Prop) : Prop where
  accounted : Accounted sb (iupdate inum ip' D') loose
  fields : ip' = { ip with addrs := ip'.addrs }
  dinodes : D'.dinodes = D.dinodes
  blocks : ∀ k, blockOf D ip k ≠ 0 → blockOf D' ip' k = blockOf D ip k
  marked : ∀ c, D.bitmap c = true → D'.bitmap c = true
  others : ∀ i, i ≠ inum → D.live sb i →
    (∀ k, blockOf D' (D.dinodes i) k = blockOf D (D.dinodes i) k) ∧ byteAt D' (D.dinodes i) = byteAt D (D.dinodes i)

theorem Extends.refl (hacc : Accounted sb (iupdate inum ip D) loose) : Extends sb inum ip D ip D loose :=
  ⟨hacc, rfl, rfl, fun _ _ => rfl, fun _ h => h, fun _ _ _ => ⟨fun _ => rfl, rfl⟩⟩

theorem Extends.trans (h : Extends sb inum ip D ip₁ D₁ loose) (h' : Extends sb inum ip₁ D₁ ip₂ D₂ loose) :
    Extends sb inum ip D ip₂ D₂ loose where
  accounted := h'.accounted
  fields := by
    rw [h'.fields, h.fields]
  dinodes := h'.dinodes.trans h.dinodes
  blocks := fun k hk => (h'.blocks k (by rwa [h.blocks k hk])).trans (h.blocks k hk)
  marked := fun c hc => h'.marked c (h.marked c hc)
  others := by
    intro i hi hlive
    have hlive₁ : D₁.live sb i := by rwa [Disk.live, h.dinodes]
    obtain ⟨hblock, hbyte⟩ := h.others i hi hlive
    obtain ⟨hblock', hbyte'⟩ := h'.others i hi hlive₁
    rw [h.dinodes] at hblock' hbyte'
    exact ⟨fun k => (hblock' k).trans (hblock k), hbyte'.trans hbyte⟩

section Mapped

variable {addr : Nat}

theorem Mapped.data_slot (h : Mapped sb inum bn ip D addr ip' D' loose) (hacc : Accounted sb (iupdate inum ip D) loose)
    (hinum : inum < sb.ninodes) (htype : ip.type ≠ .free) (hne : s ≠ (inum, .indirect))
    (hs : (iupdate inum ip D).slot sb s ≠ 0) :
    D'.data ((iupdate inum ip D).slot sb s) = D.data ((iupdate inum ip D).slot sb s) := by
  refine h.data _ (hacc.bit_of_slot hs) fun heq => hne ?_
  rw [← show (iupdate inum ip D).slot sb (inum, .indirect) = ip.addrs NDIRECT from slot_self hinum htype _] at heq
  exact (hacc.inj _ _ hs heq.symm).symm

theorem slot_live (hi : i ≠ inum) (hlive : D.live sb i) (p : Place) :
    (iupdate inum ip D).slot sb (i, p) = place D (D.dinodes i) p := by
  rw [slot_other hi, Disk.slot, if_pos hlive]

section

variable (h : Mapped sb inum bn ip D addr ip' D' loose) (hacc : Accounted sb (iupdate inum ip D) loose)
  (hinum : inum < sb.ninodes) (htype : ip.type ≠ .free)
include h hacc hinum htype

theorem Mapped.data_self (hk : blockOf D ip k ≠ 0) :
    D'.data (blockOf D ip k) = D.data (blockOf D ip k) := by
  have hslot : (iupdate inum ip D).slot sb (inum, .block k) = blockOf D ip k := slot_self hinum htype _
  rw [← hslot] at hk ⊢
  exact h.data_slot hacc hinum htype (by simp) hk

theorem Mapped.byteAt : byteAt D' ip' = byteAt D ip := by
  by_cases hkept : blockOf D ip bn = 0
  · funext o
    simp only [Fs.byteAt]
    by_cases ho : o / BSIZE = bn
    · rw [ho, h.block, if_pos hkept]
      split_ifs with hzero
      · rfl
      · rw [(h.fresh hkept hzero).1]
        rfl
    · rw [h.rest _ ho]
      split_ifs with hzero
      · rfl
      · rw [h.data_self hacc hinum htype hzero]
  · obtain ⟨-, rfl, rfl⟩ := h.kept hkept
    rfl

theorem Mapped.extends : Extends sb inum ip D ip' D' loose where
  accounted := h.accounted
  fields := h.fields
  dinodes := h.dinodes
  blocks := by
    intro k hk
    by_cases hkb : k = bn
    · subst hkb
      obtain ⟨-, rfl, rfl⟩ := h.kept hk
      rfl
    · exact h.rest k hkb
  marked := h.marked
  others := by
    intro i hi hlive
    have hdata : ∀ p, place D (D.dinodes i) p ≠ 0 →
        D'.data (place D (D.dinodes i) p) = D.data (place D (D.dinodes i) p) := by
      intro p hp
      rw [← slot_live hi hlive] at hp ⊢
      exact h.data_slot hacc hinum htype (by simp [hi]) hp
    have hblock : ∀ k, blockOf D' (D.dinodes i) k = blockOf D (D.dinodes i) k := by
      intro k
      simp only [blockOf]
      split_ifs with hlt hind
      · rfl
      · exact congrArg (getUint · _) (hdata .indirect hind.2)
      · rfl
    exact ⟨hblock, byteAt_congr hblock fun k hk => hdata (.block k) hk⟩

end

end Mapped

theorem fill_spec (bn : Nat) (block : Block) (hacc : Accounted sb (iupdate inum ip D) loose) (hinum : inum < sb.ninodes)
    (htype : ip.type ≠ .free) (hb : blockOf D ip bn ≠ 0) :
    Extends sb inum ip D ip (D.fill (blockOf D ip bn) block) loose ∧
    (∀ k, blockOf (D.fill (blockOf D ip bn) block) ip k = blockOf D ip k) ∧
    ∀ o, byteAt (D.fill (blockOf D ip bn) block) ip o = if o / BSIZE = bn then block (o % BSIZE) else byteAt D ip o := by
  have hself : ∀ p, (iupdate inum ip D).slot sb (inum, p) = place D ip p := slot_self hinum htype
  have hthis : (iupdate inum ip D).slot sb (inum, .block bn) = blockOf D ip bn := hself _
  have hb' : (iupdate inum ip D).slot sb (inum, .block bn) ≠ 0 := by rwa [hthis]
  have hother : ∀ s, (iupdate inum ip D).slot sb s = blockOf D ip bn → s = (inum, .block bn) :=
    fun s hs => hacc.inj _ _ hb' (hs.trans hthis.symm)
  have hslot : (iupdate inum ip (D.fill (blockOf D ip bn) block)).slot sb = (iupdate inum ip D).slot sb :=
    slot_fill (D := iupdate inum ip D) fun i hi => by simpa using hother _ hi
  have hacc' : Accounted sb (iupdate inum ip (D.fill (blockOf D ip bn) block)) loose :=
    hacc.congr (fun s => congrFun hslot s) fun _ => Iff.rfl
  have hblock : ∀ k, blockOf (D.fill (blockOf D ip bn) block) ip k = blockOf D ip k := by
    intro k
    have := congrFun hslot (inum, .block k)
    rwa [slot_self hinum htype, hself] at this
  refine ⟨⟨hacc', rfl, rfl, fun k _ => hblock k, fun _ h => h, ?_⟩, hblock, ?_⟩
  · intro i hi hlive
    have hblock' : ∀ k, blockOf (D.fill (blockOf D ip bn) block) (D.dinodes i) k = blockOf D (D.dinodes i) k := by
      intro k
      have := congrFun hslot (i, .block k)
      rwa [slot_live (D := D.fill (blockOf D ip bn) block) hi hlive, slot_live hi hlive] at this
    refine ⟨hblock', byteAt_congr hblock' fun k hk => Function.update_of_ne (fun heq => ?_) ..⟩
    have := hother (i, .block k) ((slot_live hi hlive (.block k)).trans heq)
    simp only [Prod.mk.injEq] at this
    exact hi this.1
  · intro o
    rw [byteAt, hblock]
    split_ifs with hzero ho ho
    · rw [ho] at hzero
      exact absurd hzero hb
    · rw [byteAt, if_pos hzero]
    · rw [ho]
      exact congrFun (Function.update_self ..) _
    · rw [byteAt, if_neg hzero]
      refine congrFun (Function.update_of_ne (fun heq => ho ?_) ..) _
      have := hother (inum, .block (o / BSIZE)) ((hself _).trans heq)
      simpa using this

section Writei

theorem same_block (hle : off ≤ o) (hlt : o < off + m) (hm : m ≤ BSIZE - off % BSIZE) :
    o / BSIZE = off / BSIZE ∧ o % BSIZE = off % BSIZE + (o - off) := by
  rw [BSIZE_eq] at *
  omega

-- What the loop of writei() does to a file, from offset off to off'.
structure Wrote (sb : Super) (inum : Nat) (ip : Dinode) (D : Disk) (src : List Byte) (off len off' : Nat)
    (ip' : Dinode) (D' : Disk) (loose : Nat → Prop) : Prop extends Extends sb inum ip D ip' D' loose where
  le : off ≤ off'
  bound : off' ≤ off + len
  mapped : off < off' → ∀ k, off / BSIZE ≤ k → k * BSIZE < off' → blockOf D' ip' k ≠ 0
  bytes : len ≤ src.length → ∀ o, byteAt D' ip' o = if off ≤ o ∧ o < off' then src.getD (o - off) 0 else byteAt D ip o
  full : len ≤ src.length → off' < off + len → ∀ c < sb.size, D'.bitmap c = true
  stop : len ≤ src.length → off' < off + len →
    blockOf D ip (off' / BSIZE) = 0 ∧ (off' = off ∨ off' % BSIZE = 0)

variable {src : List Byte} {off len off' m : Nat}

theorem Wrote.none (h : Extends sb inum ip D ip' D' loose) (hbytes : len ≤ src.length → byteAt D' ip' = byteAt D ip)
    (hfull : len ≤ src.length → 0 < len → blockOf D ip (off / BSIZE) = 0 ∧ ∀ c < sb.size, D'.bitmap c = true) :
    Wrote sb inum ip D src off len off ip' D' loose where
  toExtends := h
  le := Nat.le_refl _
  bound := Nat.le_add_right ..
  mapped := fun hlt => absurd hlt (Nat.lt_irrefl _)
  bytes := by
    intro hlen o
    rw [hbytes hlen, if_neg (by omega)]
  full := fun hlen hlt => (hfull hlen (by omega)).2
  stop := fun hlen hlt => ⟨(hfull hlen (by omega)).1, .inl rfl⟩

theorem Wrote.piece (hmap : Mapped sb inum (off / BSIZE) ip D addr ip₁ D₁ loose)
    (hacc : Accounted sb (iupdate inum ip D) loose) (hinum : inum < sb.ninodes) (htype : ip.type ≠ .free)
    (haddr : addr ≠ 0) (hm : m ≤ BSIZE - off % BSIZE) (hsrc : m ≤ src.length) :
    Wrote sb inum ip D src off m (off + m) ip₁
      (D₁.fill addr (writeAt (D₁.data addr) (off % BSIZE) (src.take m))) loose := by
  have htype₁ : ip₁.type ≠ .free := by rw [hmap.fields]; exact htype
  have hlen : (src.take m).length = m := by rw [length_take, Nat.min_eq_left hsrc]
  have hthis := hmap.block
  obtain ⟨hext, hblock, hbyte⟩ := fill_spec (off / BSIZE)
    (writeAt (D₁.data addr) (off % BSIZE) (src.take m)) hmap.accounted hinum htype₁ (hthis ▸ haddr)
  rw [hthis] at hext hblock hbyte
  refine ⟨(hmap.extends hacc hinum htype).trans hext, by omega, Nat.le_refl _, ?_, ?_, by omega, by omega⟩
  · intro hlt k hk hlt'
    obtain rfl : k = off / BSIZE := by
      rw [BSIZE_eq] at *
      omega
    rw [hblock, hthis]
    exact haddr
  · intro _ o
    rw [hbyte]
    by_cases hin : off ≤ o ∧ o < off + m
    · obtain ⟨hdiv, hmod⟩ := same_block hin.1 hin.2 hm
      rw [if_pos hdiv, if_pos hin, hmod, writeAt_inside _ _ (by omega), getElem_take,
        getD_eq_getElem?_getD, getElem?_eq_getElem (by omega)]
      rfl
    · rw [if_neg hin, ← congrFun (hmap.byteAt hacc hinum htype) o]
      split_ifs with ho
      · rw [byteAt, ho, hthis, if_neg haddr, writeAt_outside]
        rw [hlen]
        rw [BSIZE_eq] at *
        omega
      · rfl

theorem Wrote.trans (h : Wrote sb inum ip D src off m (off + m) ip₁ D₁ loose)
    (h' : Wrote sb inum ip₁ D₁ (src.drop m) (off + m) len' off' ip₂ D₂ loose) (hm : 0 < m)
    (hsrc : m ≤ src.length) (hend : 0 < len' → (off + m) % BSIZE = 0) :
    Wrote sb inum ip D src off (m + len') off' ip₂ D₂ loose where
  toExtends := h.toExtends.trans h'.toExtends
  le := Nat.le_trans (Nat.le_add_right ..) h'.le
  bound := by
    have := h'.bound
    omega
  mapped := by
    intro _ k hk hlt
    by_cases hnew : off + m < off' ∧ (off + m) / BSIZE ≤ k
    · exact h'.mapped hnew.1 k hnew.2 hlt
    · have hle := h'.le
      have hin : k * BSIZE < off + m := by
        rw [BSIZE_eq] at *
        omega
      have hne := h.mapped (by omega) k hk hin
      rw [h'.blocks k hne]
      exact hne
  bytes := by
    intro hlen o
    have hdrop : len' ≤ (src.drop m).length := by rw [length_drop]; omega
    rw [h'.bytes hdrop, h.bytes hsrc]
    have hle := h'.le
    by_cases h1 : off + m ≤ o ∧ o < off'
    · rw [if_pos h1, if_pos (by omega), getD_eq_getElem?_getD, getD_eq_getElem?_getD, getElem?_drop,
        show m + (o - (off + m)) = o - off by omega]
    · rw [if_neg h1]
      by_cases h2 : off ≤ o ∧ o < off + m
      · rw [if_pos h2, if_pos (by omega)]
      · rw [if_neg h2, if_neg (by omega)]
  full := fun hlen hlt => h'.full (by rw [length_drop]; omega) (by omega)
  stop := by
    intro hlen hlt
    obtain ⟨hzero, hat⟩ := h'.stop (by rw [length_drop]; omega) (by omega)
    refine ⟨by_contra fun hne => hne ((h.blocks _ hne).symm.trans hzero), .inr ?_⟩
    rcases hat with heq | hmod
    · exact heq ▸ hend (by omega)
    · exact hmod

end Writei

section Readi

-- Every block up to the size of the file is there.
def NoHoles (D : Disk) (ip : Dinode) : Prop := ∀ bn, bn * BSIZE < ip.size → blockOf D ip bn ≠ 0

theorem blockOf_lt (h : blockOf D ip bn ≠ 0) : bn < MAXFILE := by
  rw [blockOf] at h
  rw [MAXFILE_eq]
  rw [NDIRECT_eq, NINDIRECT_eq] at h
  split_ifs at h with h1 h2 <;> omega

theorem NoHoles.size_le (h : NoHoles D ip) : ip.size ≤ MAXFILE * BSIZE := by
  by_contra hgt
  exact absurd (blockOf_lt (h MAXFILE (by omega))) (Nat.lt_irrefl _)

theorem blockOf_cases (h : blockOf D ip bn ≠ 0) : (bn < NDIRECT ∧ ip.addrs bn = blockOf D ip bn) ∨
    (¬bn < NDIRECT ∧ bn - NDIRECT < NINDIRECT ∧ ip.addrs NDIRECT ≠ 0 ∧
      getUint (D.data (ip.addrs NDIRECT)) (bn - NDIRECT) = blockOf D ip bn) := by
  by_cases hdirect : bn < NDIRECT
  · exact .inl ⟨hdirect, (if_pos hdirect).symm⟩
  · have hind : bn - NDIRECT < NINDIRECT ∧ ip.addrs NDIRECT ≠ 0 := by
      by_contra hnot
      rw [blockOf, if_neg hdirect, if_neg hnot] at h
      exact h rfl
    exact .inr ⟨hdirect, hind.1, hind.2, by rw [blockOf, if_neg hdirect, if_pos hind]⟩

theorem bmap_of_ne_zero (h : blockOf D ip bn ≠ 0) : bmap sb ip bn D = .ok (blockOf D ip bn, ip, D) := by
  rw [bmap]
  rcases blockOf_cases h with ⟨hdirect, haddr⟩ | ⟨hdirect, hrange, hind, hentry⟩
  · rw [if_pos hdirect, haddr, if_neg h]
  · rw [if_neg hdirect, if_pos hrange, if_neg hind, bmapEntry, hentry, if_neg h]

variable {off n room : Nat}

theorem readiLoop_spec (sb : Super) (hholes : NoHoles D ip) : ∀ turns room off n tot out, tot ≤ n → n - tot ≤ turns →
    off + (n - tot) ≤ ip.size → ∃ r bytes, readiLoop sb turns ip room off n tot out D = .ok (r, out ++ bytes, ip, D) ∧
      (n - tot ≤ room → r = (n : Int) ∧ bytes = readAt (byteAt D ip) off (n - tot)) := by
  intro turns
  induction turns with
  | zero =>
    intro room off n tot out htot hturns hsize
    obtain rfl : tot = n := by omega
    exact ⟨tot, [], by simp [readiLoop], fun _ => ⟨rfl, by simp [readAt]⟩⟩
  | succ turns ih =>
    intro room off n tot out htot hturns hsize
    rw [readiLoop]
    by_cases hlt : tot < n
    · have hne : blockOf D ip (off / BSIZE) ≠ 0 := hholes _ (by rw [BSIZE_eq]; omega)
      rw [if_pos hlt, bmap_of_ne_zero hne, ok_bind]
      simp only
      rw [if_neg hne]
      generalize hpiece : min (n - tot) (BSIZE - off % BSIZE) = m
      have hmod : off % BSIZE < BSIZE := Nat.mod_lt _ (by decide)
      have hm : 0 < m ∧ m ≤ n - tot ∧ m ≤ BSIZE - off % BSIZE := by omega
      by_cases hroom : room < m
      · rw [if_pos hroom]
        exact ⟨-1, _, rfl, by omega⟩
      · rw [if_neg hroom]
        obtain ⟨r, bytes, hloop, hrest⟩ := ih (room - m) (off + m) n (tot + m)
          (out ++ readAt (D.data (blockOf D ip (off / BSIZE))) (off % BSIZE) m) (by omega) (by omega) (by omega)
        have hpart : readAt (D.data (blockOf D ip (off / BSIZE))) (off % BSIZE) m = readAt (byteAt D ip) off m := by
          refine readAt_congr fun i hi => ?_
          obtain ⟨hdiv, hrem⟩ := same_block (Nat.le_add_right off i) (by omega) hm.2.2
          rw [byteAt, hdiv, if_neg hne, hrem, Nat.add_sub_cancel_left]
        refine ⟨r, _, by rw [hloop, append_assoc], fun hle => ?_⟩
        obtain ⟨hr, hbytes⟩ := hrest (by omega)
        refine ⟨hr, ?_⟩
        rw [hpart, hbytes, ← readAt_add, show m + (n - (tot + m)) = n - tot by omega]
    · rw [if_neg hlt]
      obtain rfl : tot = n := by omega
      exact ⟨tot, [], by simp, fun _ => ⟨rfl, by simp [readAt]⟩⟩

theorem readi_keeps (hholes : NoHoles D ip) (hn : n < 2 ^ 32) :
    ∃ r out, readi sb ip room off n D = .ok (r, out, ip, D) := by
  have hmax := hholes.size_le
  rw [MAXFILE_eq, BSIZE_eq] at hmax
  rw [readi]
  by_cases hout : off > ip.size ∨ wrapU32 (off + n) < off
  · exact ⟨0, [], if_pos hout⟩
  · rw [if_neg hout]
    have hwrap : wrapU32 (off + n) = off + n := by
      rw [wrapU32] at hout ⊢
      omega
    generalize hlen : (if wrapU32 (off + n) > ip.size then ip.size - off else n) = len
    have hle : off + len ≤ ip.size := by
      rw [hwrap] at hlen
      split_ifs at hlen <;> omega
    obtain ⟨r, bytes, hloop, -⟩ :=
      readiLoop_spec sb hholes len room off len 0 [] (by omega) (by omega) (by omega)
    exact ⟨r, bytes, hloop⟩

theorem readi_spec (hholes : NoHoles D ip) (h : off + n ≤ ip.size) (hroom : n ≤ room) :
    readi sb ip room off n D = .ok (n, readAt (byteAt D ip) off n, ip, D) := by
  have hmax := hholes.size_le
  have hwrap : wrapU32 (off + n) = off + n := by
    rw [MAXFILE_eq, BSIZE_eq] at hmax
    exact Nat.mod_eq_of_lt (by omega)
  obtain ⟨r, bytes, hloop, hrest⟩ := readiLoop_spec sb hholes n room off n 0 [] (by omega) (by omega) (by omega)
  obtain ⟨rfl, rfl⟩ := hrest hroom
  rw [readi, hwrap, if_neg (by omega)]
  simp only [gt_iff_lt, Nat.not_lt.mpr h, if_false]
  simpa using hloop

end Readi

section Synced

variable {src : List Byte} {off len off' : Nat}

theorem Accounted.congr_fields (h : Accounted sb (iupdate inum ip D) loose) (haddrs : ip'.addrs = ip.addrs)
    (htype : ip'.type = ip.type) : Accounted sb (iupdate inum ip' D) loose := by
  refine Ledger.congr h (fun ⟨i, p⟩ => ?_) fun _ => Iff.rfl
  by_cases hi : i = inum
  · subst hi
    simp only [Disk.slot, Disk.live, iupdate_dinodes_self, htype]
    cases p with
    | indirect => simp only [place, haddrs]
    | block bn =>
      simp only [place, blockOf, haddrs]
      rfl
  · rw [slot_other hi, slot_other hi]

theorem Wrote.noHoles (h : Wrote sb inum ip D src off len off' ip' D' loose) (hholes : NoHoles D ip)
    (hoff : off ≤ ip.size) : NoHoles D' { ip' with size := max ip.size off' } := by
  intro bn hlt
  by_cases hold : bn * BSIZE < ip.size
  · have hne := hholes bn hold
    have hkept : blockOf D' ip' bn ≠ 0 := by rwa [h.blocks bn hne]
    exact hkept
  · have hnew : bn * BSIZE < off' := by
      simp only at hlt
      omega
    refine h.mapped ?_ bn ?_ hnew
    · omega
    · rw [BSIZE_eq] at *
      omega

end Synced

end Xv6.Fs
