import Xv6.Disk
import Xv6.Lib.Ledger

namespace Xv6.Fs

open Lib Function List

section Uint

theorem leBytes_length (n v : Nat) : (leBytes n v).length = n := by simp [leBytes]

theorem leBytes_succ (n v : Nat) : leBytes (n + 1) v = BitVec.ofNat 8 v :: leBytes n (v / 256) := by
  simp only [leBytes, range_succ_eq_map, map_cons, map_map, Nat.pow_zero, Nat.div_one]
  refine congrArg (_ :: ·) (map_congr_left fun k _ => ?_)
  rw [Function.comp_apply, Nat.div_div_eq_div_mul, Nat.pow_succ, Nat.mul_comm]

theorem field_leBytes_mod (n v : Nat) : field (leBytes n v) 0 n = v % 256 ^ n := by
  rw [field, drop_zero, take_of_length_le (Nat.le_of_eq (leBytes_length n v))]
  induction n generalizing v with
  | zero => simp [leBytes, Nat.mod_one]
  | succ n ih =>
    rw [leBytes_succ, foldr_cons, ih, BitVec.toNat_ofNat, Nat.pow_succ 256, Nat.mul_comm (256 ^ n) 256, Nat.mod_mul]

theorem field_leBytes (h : v < 256 ^ n) : field (leBytes n v) 0 n = v := by
  rw [field_leBytes_mod, Nat.mod_eq_of_lt h]

theorem getUint_congr (h : ∀ i < 4, a (4 * j + i) = b (4 * j + i)) :
    getUint a j = getUint b j := by
  rw [getUint, getUint, readAt_congr h]

theorem getUint_setUint (h : v < 2 ^ 32) : getUint (setUint a j v) j = v := by
  have hread : readAt (setUint a j v) (4 * j) 4 = leBytes 4 v := by
    have := readAt_writeAt a (leBytes 4 v) (4 * j)
    rwa [leBytes_length] at this
  rw [getUint, hread, field_leBytes (by omega)]

theorem getUint_setUint_of_ne (h : k ≠ j) : getUint (setUint a j v) k = getUint a k := by
  refine getUint_congr fun i hi => ?_
  rw [setUint, writeAt_outside]
  rw [leBytes_length]
  omega

theorem getUint_zeroBlock (j : Nat) : getUint zeroBlock j = 0 := by
  have hread : readAt zeroBlock (4 * j) 4 = [0, 0, 0, 0] := rfl
  rw [getUint, hread]
  rfl

end Uint

-- The block of a file that has number bn, or 0.
def blockOf (D : Disk) (ip : Dinode) (bn : Nat) : Nat :=
  if bn < NDIRECT then ip.addrs bn
  else if bn - NDIRECT < NINDIRECT ∧ ip.addrs NDIRECT ≠ 0 then getUint (D.data (ip.addrs NDIRECT)) (bn - NDIRECT)
  else 0

inductive Place where
  | block (bn : Nat)
  | indirect
  deriving DecidableEq

def place (D : Disk) (ip : Dinode) : Place → Nat
  | .block bn => blockOf D ip bn
  | .indirect => ip.addrs NDIRECT

def Disk.live (sb : Super) (D : Disk) (inum : Nat) : Prop := inum < sb.ninodes ∧ (D.dinodes inum).type ≠ .free

instance Disk.decidableLive (sb : Super) (D : Disk) (inum : Nat) : Decidable (D.live sb inum) :=
  inferInstanceAs (Decidable (_ ∧ _))

def Disk.slot (sb : Super) (D : Disk) (s : Nat × Place) : Nat :=
  if D.live sb s.1 then place D (D.dinodes s.1) s.2 else 0

-- The bitmap marks the metadata blocks and the blocks of the files, and no block is in two
-- places. `loose` are blocks that are marked and in no file.
abbrev Accounted (sb : Super) (D : Disk) (loose : Nat → Prop) : Prop :=
  Ledger sb.nmeta sb.size (D.slot sb) D.bitmap loose

variable {sb : Super} {D : Disk} {ip : Dinode} {inum bn b : Nat} {loose : Nat → Prop}

theorem iupdate_self (D : Disk) (inum : Nat) : iupdate inum (D.dinodes inum) D = D := by
  rw [iupdate, update_eq_self]

@[simp] theorem iupdate_dinodes_self : (iupdate inum ip D).dinodes inum = ip := update_self ..

theorem iupdate_dinodes_ne (h : i ≠ inum) : (iupdate inum ip D).dinodes i = D.dinodes i :=
  update_of_ne h ..

section Slots

theorem slot_self (hinum : inum < sb.ninodes) (htype : ip.type ≠ .free) (p : Place) :
    (iupdate inum ip D).slot sb (inum, p) = place D ip p := by
  have hlive : (iupdate inum ip D).live sb inum := ⟨hinum, by rwa [iupdate_dinodes_self]⟩
  rw [Disk.slot, if_pos hlive, iupdate_dinodes_self]
  cases p <;> rfl

theorem slot_other (h : i ≠ inum) (p : Place) : (iupdate inum ip D).slot sb (i, p) = D.slot sb (i, p) := by
  simp only [Disk.slot, Disk.live, iupdate_dinodes_ne h]
  cases p <;> rfl

theorem slot_fill (hb : ∀ i, D.slot sb (i, .indirect) ≠ b) :
    (D.fill b block).slot sb = D.slot sb := by
  funext ⟨i, p⟩
  by_cases hlive : D.live sb i
  · have hlive' : (D.fill b block).live sb i := hlive
    rw [Disk.slot, if_pos hlive', Disk.slot, if_pos hlive]
    have hne : (D.dinodes i).addrs NDIRECT ≠ b := by
      have := hb i
      rwa [Disk.slot, if_pos hlive] at this
    cases p with
    | indirect => rfl
    | block bn => simp only [place, blockOf, Disk.fill, update_of_ne hne]
  · have hlive' : ¬(D.fill b block).live sb i := hlive
    rw [Disk.slot, if_neg hlive', Disk.slot, if_neg hlive]

section

variable (hinum : inum < sb.ninodes) (htype : ip.type ≠ .free)
include hinum htype

theorem slot_setAddr (hbn : bn < NDIRECT) :
    (iupdate inum (ip.setAddr bn b) D).slot sb = update ((iupdate inum ip D).slot sb) (inum, .block bn) b := by
  have hne : NDIRECT ≠ bn := by omega
  funext ⟨i, p⟩
  by_cases hi : i = inum
  · subst hi
    rw [slot_self hinum (show (ip.setAddr bn b).type ≠ .free from htype)]
    cases p with
    | indirect =>
      rw [update_of_ne (by simp), slot_self hinum htype]
      simp only [place, Dinode.setAddr, update_of_ne hne]
    | block k =>
      by_cases hk : k = bn
      · subst hk
        simp only [update_self, place, blockOf, if_pos hbn, Dinode.setAddr]
      · rw [update_of_ne (by simp [hk]), slot_self hinum htype]
        simp only [place, blockOf, Dinode.setAddr, update_of_ne hk, update_of_ne hne]
  · rw [slot_other hi, update_of_ne (by simp [hi]), slot_other hi]

theorem slot_setIndirect (hzero : ip.addrs NDIRECT = 0) (hdata : D.data b = zeroBlock) :
    (iupdate inum (ip.setAddr NDIRECT b) D).slot sb =
      update ((iupdate inum ip D).slot sb) (inum, .indirect) b := by
  funext ⟨i, p⟩
  by_cases hi : i = inum
  · subst hi
    rw [slot_self hinum (show (ip.setAddr NDIRECT b).type ≠ .free from htype)]
    cases p with
    | indirect => simp only [update_self, place, Dinode.setAddr]
    | block k =>
      rw [update_of_ne (by simp), slot_self hinum htype]
      by_cases hk : k < NDIRECT
      · have hne : k ≠ NDIRECT := by omega
        simp only [place, blockOf, if_pos hk, Dinode.setAddr, update_of_ne hne]
      · simp only [place, blockOf, if_neg hk, Dinode.setAddr, update_self, hdata, getUint_zeroBlock, hzero,
          ne_eq, not_true_eq_false, and_false, if_false, ite_self]
  · rw [slot_other hi, update_of_ne (by simp [hi]), slot_other hi]

theorem slot_setEntry (hind : ip.addrs NDIRECT ≠ 0) (hj : j < NINDIRECT) (hv : v < 2 ^ 32)
    (hacc : Accounted sb (iupdate inum ip D) loose) :
    (iupdate inum ip (D.fill (ip.addrs NDIRECT) (setUint (D.data (ip.addrs NDIRECT)) j v))).slot sb =
      update ((iupdate inum ip D).slot sb) (inum, .block (NDIRECT + j)) v := by
  have hself : (iupdate inum ip D).slot sb (inum, .indirect) = ip.addrs NDIRECT := slot_self hinum htype _
  funext ⟨i, p⟩
  by_cases hi : i = inum
  · subst hi
    rw [slot_self hinum htype]
    cases p with
    | indirect => rw [update_of_ne (by simp), slot_self hinum htype]; rfl
    | block k =>
      by_cases hk : k = NDIRECT + j
      · subst hk
        rw [update_self]
        simp only [place, blockOf, Disk.fill, update_self, Nat.add_sub_cancel_left]
        rw [if_neg (by omega), if_pos ⟨hj, hind⟩, getUint_setUint hv]
      · rw [update_of_ne (by simp [hk]), slot_self hinum htype]
        simp only [place, blockOf, Disk.fill, update_self]
        split_ifs with hlt hent
        · rfl
        · rw [getUint_setUint_of_ne (by omega)]
        · rfl
  · -- the indirect block of another file is another block
    rw [slot_other hi, update_of_ne (by simp [hi]), slot_other hi]
    have hne : D.slot sb (i, .indirect) ≠ ip.addrs NDIRECT := by
      intro heq
      rw [← slot_other hi, ← hself] at heq
      exact hi (congrArg Prod.fst (hacc.inj _ _ (hself ▸ hind) heq))
    by_cases hlive : D.live sb i
    · have hlive' : (D.fill (ip.addrs NDIRECT) (setUint (D.data (ip.addrs NDIRECT)) j v)).live sb i := hlive
      rw [Disk.slot, if_pos hlive] at hne
      rw [Disk.slot, if_pos hlive', Disk.slot, if_pos hlive]
      cases p with
      | indirect => rfl
      | block k =>
        simp only [place] at hne
        simp only [place, blockOf, Disk.fill, update_of_ne hne]
    · have hlive' : ¬(D.fill (ip.addrs NDIRECT) (setUint (D.data (ip.addrs NDIRECT)) j v)).live sb i := hlive
      rw [Disk.slot, if_neg hlive', Disk.slot, if_neg hlive]

end

end Slots

section Bmap

def Disk.take (D : Disk) (b : Nat) : Disk := { D with bitmap := update D.bitmap b true }.fill b zeroBlock

theorem balloc_cases (sb : Super) (D : Disk) :
    (∃ b, b < sb.size ∧ D.bitmap b = false ∧ balloc sb D = (b, D.take b)) ∨
    (balloc sb D = (0, D) ∧ ∀ b < sb.size, D.bitmap b = true) := by
  rw [balloc]
  cases hfind : (List.range sb.size).find? fun b => !D.bitmap b with
  | some b =>
    have hfree := find?_some hfind
    have hlt := mem_range.mp (mem_of_find?_eq_some hfind)
    exact .inl ⟨b, hlt, by simpa using hfree, rfl⟩
  | none =>
    have hall := find?_eq_none.mp hfind
    exact .inr ⟨rfl, fun b hb => by simpa using hall b (mem_range.mpr hb)⟩

-- What a call of bmap() does to the file and to the disk.
structure Mapped (sb : Super) (inum bn : Nat) (ip : Dinode) (D : Disk) (addr : Nat) (ip' : Dinode) (D' : Disk)
    (loose : Nat → Prop) : Prop where
  accounted : Accounted sb (iupdate inum ip' D') loose
  block : blockOf D' ip' bn = addr
  rest : ∀ k, k ≠ bn → blockOf D' ip' k = blockOf D ip k
  fields : ip' = { ip with addrs := ip'.addrs }
  dinodes : D'.dinodes = D.dinodes
  kept : blockOf D ip bn ≠ 0 → addr = blockOf D ip bn ∧ ip' = ip ∧ D' = D
  fresh : blockOf D ip bn = 0 → addr ≠ 0 → D'.data addr = zeroBlock ∧ D.bitmap addr = false
  data : ∀ c, D.bitmap c = true → c ≠ ip.addrs NDIRECT → D'.data c = D.data c
  marked : ∀ c, D.bitmap c = true → D'.bitmap c = true
  full : addr = 0 → ∀ c < sb.size, D'.bitmap c = true

theorem Accounted.ne_zero (hacc : Accounted sb D loose) (hb : b < sb.size) (hfree : D.bitmap b = false) : b ≠ 0 := by
  rintro rfl
  have := (hacc.used 0 hb).mpr (.inl hacc.pos)
  simp [hfree] at this

theorem Accounted.slot_ne (hacc : Accounted sb D loose) (hb : b < sb.size) (hfree : D.bitmap b = false)
    (s : Nat × Place) : D.slot sb s ≠ b := by
  intro hs
  have := (hacc.used b hb).mpr (.inr (.inl ⟨s, hs⟩))
  simp [hfree] at this

theorem Accounted.slot_take (hacc : Accounted sb (iupdate inum ip D) loose) (hb : b < sb.size)
    (hfree : D.bitmap b = false) : (iupdate inum ip (D.take b)).slot sb = (iupdate inum ip D).slot sb :=
  slot_fill (D := iupdate inum ip { D with bitmap := update D.bitmap b true }) fun i =>
    hacc.slot_ne hb hfree (i, .indirect)

theorem take_data_of_marked (hfree : D.bitmap b = false) (hc : D.bitmap c = true) :
    (D.take b).data c = D.data c := by
  refine update_of_ne (fun heq : c = b => ?_) ..
  rw [heq, hfree] at hc
  simp at hc

theorem take_marked (hc : D.bitmap c = true) : (D.take b).bitmap c = true := by
  by_cases heq : c = b
  · rw [heq]
    exact update_self ..
  · exact (update_of_ne heq ..).trans hc

theorem blockOf_of_slot (hinum : inum < sb.ninodes) (htype : ip.type ≠ .free) (htype' : ip'.type ≠ .free)
    (hslot : (iupdate inum ip' D').slot sb = update ((iupdate inum ip D).slot sb) (inum, .block bn) addr) :
    blockOf D' ip' bn = addr ∧ ∀ k, k ≠ bn → blockOf D' ip' k = blockOf D ip k := by
  have hself : ∀ k, blockOf D' ip' k =
      update ((iupdate inum ip D).slot sb) (inum, .block bn) addr (inum, .block k) := fun k => by
    rw [← hslot, slot_self hinum htype']
    rfl
  refine ⟨by rw [hself, update_self], fun k hk => ?_⟩
  rw [hself, update_of_ne (by simp [hk]), slot_self hinum htype]
  rfl

theorem Mapped.of_kept (hacc : Accounted sb (iupdate inum ip D) loose) (h : blockOf D ip bn ≠ 0) :
    Mapped sb inum bn ip D (blockOf D ip bn) ip D loose where
  accounted := hacc
  block := rfl
  rest := fun _ _ => rfl
  fields := rfl
  dinodes := rfl
  kept := fun _ => ⟨rfl, rfl, rfl⟩
  fresh := fun hzero => absurd hzero h
  data := fun _ _ _ => rfl
  marked := fun _ hc => hc
  full := fun hzero => absurd hzero h

theorem Mapped.of_full (hacc : Accounted sb (iupdate inum ip D) loose) (h : blockOf D ip bn = 0)
    (hfull : ∀ b < sb.size, D.bitmap b = true) : Mapped sb inum bn ip D 0 ip D loose where
  accounted := hacc
  block := h
  rest := fun _ _ => rfl
  fields := rfl
  dinodes := rfl
  kept := fun hne => absurd h hne
  fresh := fun _ hne => absurd rfl hne
  data := fun _ _ _ => rfl
  marked := fun _ hc => hc
  full := fun _ => hfull

section

variable (hacc : Accounted sb (iupdate inum ip D) loose) (hinum : inum < sb.ninodes) (htype : ip.type ≠ .free)
include hacc hinum htype

theorem bmapEntry_spec (hind : ip.addrs NDIRECT ≠ 0) (hj : j < NINDIRECT) :
    Mapped sb inum (NDIRECT + j) ip D (bmapEntry sb (ip.addrs NDIRECT) j D).1 ip
      (bmapEntry sb (ip.addrs NDIRECT) j D).2 loose := by
  have hblock : blockOf D ip (NDIRECT + j) = getUint (D.data (ip.addrs NDIRECT)) j := by
    rw [blockOf, if_neg (by omega), Nat.add_sub_cancel_left, if_pos ⟨hj, hind⟩]
  have hmark : D.bitmap (ip.addrs NDIRECT) = true := by
    have hself : (iupdate inum ip D).slot sb (inum, .indirect) = ip.addrs NDIRECT := slot_self hinum htype _
    rw [← hself] at hind ⊢
    exact hacc.bit_of_slot hind
  rw [bmapEntry]
  by_cases hzero : getUint (D.data (ip.addrs NDIRECT)) j = 0
  · rw [if_pos hzero]
    rcases balloc_cases sb D with ⟨b, hlt, hfree, heq⟩ | ⟨heq, hfull⟩ <;> rw [heq]
    · have hb0 := hacc.ne_zero hlt hfree
      have hne : ip.addrs NDIRECT ≠ b := fun h => by simp [← h, hmark] at hfree
      have hsize := sb.size_lt
      have htake := hacc.slot_take hlt hfree
      have hslot := slot_setEntry (D := D.take b) hinum htype hind hj (show b < 2 ^ 32 by omega)
        ((hacc.take hlt hfree).congr (fun s => congrFun htake s) fun _ => Iff.rfl)
      rw [htake] at hslot
      obtain ⟨hthis, hrest⟩ := blockOf_of_slot hinum htype htype hslot
      simp only [if_neg hb0]
      exact {
        accounted := by
          have hput := hacc.put (s := (inum, .block (NDIRECT + j))) hlt hfree
            ((slot_self hinum htype (.block (NDIRECT + j))).trans (hblock.trans hzero))
          rw [← hslot] at hput
          exact hput
        block := hthis
        rest := hrest
        fields := rfl
        dinodes := rfl
        kept := fun h => absurd (hblock.trans hzero) h
        fresh := fun _ _ => ⟨(update_of_ne (Ne.symm hne) ..).trans (update_self ..), hfree⟩
        data := fun c hc hcne => (update_of_ne hcne ..).trans (take_data_of_marked hfree hc)
        marked := fun c hc => take_marked hc
        full := fun h => absurd h hb0 }
    · exact Mapped.of_full hacc (hblock.trans hzero) hfull
  · rw [if_neg hzero, ← hblock]
    exact Mapped.of_kept hacc (hblock ▸ hzero)

theorem indirect_spec (hind : ip.addrs NDIRECT = 0) (hlt : b < sb.size) (hfree : D.bitmap b = false) :
    Accounted sb (iupdate inum (ip.setAddr NDIRECT b) (D.take b)) loose ∧
    ∀ k, blockOf (D.take b) (ip.setAddr NDIRECT b) k = blockOf D ip k := by
  have htake := hacc.slot_take hlt hfree
  have hslot := slot_setIndirect (D := D.take b) (b := b) hinum htype hind (update_self ..)
  rw [htake] at hslot
  have hput := hacc.put (s := (inum, .indirect)) hlt hfree ((slot_self hinum htype .indirect).trans hind)
  rw [← hslot] at hput
  refine ⟨hput, fun k => ?_⟩
  have hself : (iupdate inum (ip.setAddr NDIRECT b) (D.take b)).slot sb (inum, .block k) = _ :=
    slot_self hinum (show (ip.setAddr NDIRECT b).type ≠ .free from htype) _
  rw [hslot, update_of_ne (by simp), slot_self hinum htype] at hself
  exact hself.symm

theorem bmap_spec (hbn : bn < MAXFILE) :
    ∃ addr ip' D', bmap sb ip bn D = .ok (addr, ip', D') ∧ Mapped sb inum bn ip D addr ip' D' loose := by
  rw [bmap]
  by_cases hdirect : bn < NDIRECT
  · have hblock : blockOf D ip bn = ip.addrs bn := if_pos hdirect
    rw [if_pos hdirect]
    by_cases hzero : ip.addrs bn = 0
    · rw [if_pos hzero]
      rcases balloc_cases sb D with ⟨b, hlt, hfree, heq⟩ | ⟨heq, hfull⟩ <;> rw [heq]
      · have hb0 := hacc.ne_zero hlt hfree
        have htake := hacc.slot_take hlt hfree
        have hslot := slot_setAddr (D := D.take b) (b := b) hinum htype hdirect
        rw [htake] at hslot
        obtain ⟨hthis, hrest⟩ := blockOf_of_slot hinum htype (show (ip.setAddr bn b).type ≠ .free from htype) hslot
        have hput := hacc.put (s := (inum, .block bn)) hlt hfree
          ((slot_self hinum htype (.block bn)).trans (hblock.trans hzero))
        rw [← hslot] at hput
        simp only [if_neg hb0]
        exact ⟨b, _, _, rfl, {
          accounted := hput
          block := hthis
          rest := hrest
          fields := rfl
          dinodes := rfl
          kept := fun h => absurd (hblock.trans hzero) h
          fresh := fun _ _ => ⟨update_self .., hfree⟩
          data := fun c hc _ => take_data_of_marked hfree hc
          marked := fun c hc => take_marked hc
          full := fun h => absurd h hb0 }⟩
      · exact ⟨0, ip, D, rfl, .of_full hacc (hblock.trans hzero) hfull⟩
    · rw [if_neg hzero, ← hblock]
      exact ⟨_, ip, D, rfl, .of_kept hacc (hblock ▸ hzero)⟩
  · have hj : bn - NDIRECT < NINDIRECT := by
      rw [MAXFILE_eq] at hbn
      rw [NDIRECT_eq, NINDIRECT_eq]
      omega
    obtain ⟨j, rfl⟩ : ∃ j, bn = NDIRECT + j := ⟨bn - NDIRECT, by omega⟩
    rw [Nat.add_sub_cancel_left] at hj ⊢
    rw [if_neg hdirect, if_pos hj]
    by_cases hind : ip.addrs NDIRECT = 0
    · have hblock : blockOf D ip (NDIRECT + j) = 0 := by
        rw [blockOf, if_neg hdirect, if_neg fun h => h.2 hind]
      rw [if_pos hind]
      rcases balloc_cases sb D with ⟨b, hlt, hfree, heq⟩ | ⟨heq, hfull⟩ <;> rw [heq]
      · have hb0 := hacc.ne_zero hlt hfree
        obtain ⟨hacc₁, hsame⟩ := indirect_spec hacc hinum htype hind hlt hfree
        have hset : (ip.setAddr NDIRECT b).addrs NDIRECT = b := by simp only [Dinode.setAddr, update_self]
        have hentry := bmapEntry_spec hacc₁ hinum htype (by rwa [hset]) hj
        rw [hset] at hentry
        simp only [if_neg hb0]
        have hzero := (hsame (NDIRECT + j)).trans hblock
        refine ⟨_, _, _, rfl, {
          accounted := hentry.accounted
          block := hentry.block
          rest := fun k hk => (hentry.rest k hk).trans (hsame k)
          fields := rfl
          dinodes := hentry.dinodes
          kept := fun h => absurd hblock h
          fresh := fun _ hne => ⟨(hentry.fresh hzero hne).1, ?_⟩
          data := fun c hc hne => ?_
          marked := fun c hc => hentry.marked c (take_marked hc)
          full := hentry.full }⟩
        · have hunmarked := (hentry.fresh hzero hne).2
          by_contra hmarked
          rw [take_marked (by simpa using hmarked)] at hunmarked
          simp at hunmarked
        · rw [hentry.data c (take_marked hc), take_data_of_marked hfree hc]
          rw [hset]
          rintro rfl
          rw [hfree] at hc
          simp at hc
      · exact ⟨0, ip, D, rfl, .of_full hacc hblock hfull⟩
    · rw [if_neg hind]
      exact ⟨_, _, _, rfl, bmapEntry_spec hacc hinum htype hind hj⟩

end

end Bmap

end Xv6.Fs
