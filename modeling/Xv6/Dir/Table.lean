import Xv6.Dir
import Xv6.Disk.Logged
import Xv6.Lib.SlotTable

namespace Xv6.Fs

open Lib List

def cut (name : Chars) : List Byte := (readAt name 0 DIRSIZ).takeWhile (· ≠ 0)

section Names

theorem takeWhile_cons (b : Byte) (s : List Byte) :
    (b :: s).takeWhile (· ≠ 0) = if b = 0 then [] else b :: s.takeWhile (· ≠ 0) := by
  split_ifs with h
  · rw [takeWhile_cons_of_neg (by simpa using h)]
  · rw [takeWhile_cons_of_pos (by simpa using h)]

theorem strncmp_eq_zero (p q : Chars) (n i : Nat) :
    strncmp p q n i = 0 ↔ (readAt p i n).takeWhile (· ≠ 0) = (readAt q i n).takeWhile (· ≠ 0) := by
  induction n generalizing i with
  | zero => simp [strncmp, readAt]
  | succ n ih =>
    rw [strncmp, readAt_succ, readAt_succ, takeWhile_cons, takeWhile_cons]
    by_cases heq : p i = q i
    · by_cases hzero : p i = 0
      · simp [← heq, hzero]
      · rw [if_pos ⟨hzero, heq⟩, ih, ← heq, if_neg hzero, if_neg hzero, List.cons.injEq, eq_self, true_and]
    · rw [if_neg fun h => heq h.2]
      have hne : (p i).toNat ≠ (q i).toNat := fun h => heq (BitVec.eq_of_toNat_eq h)
      refine iff_of_false (by omega) fun h => ?_
      split_ifs at h with hp hq hq
      · exact heq (hp.trans hq.symm)
      · exact heq (List.cons.inj h).1

theorem namecmp_eq_zero (s t : Chars) : namecmp s t = 0 ↔ cut s = cut t := strncmp_eq_zero s t DIRSIZ 0

theorem strncpy_length (t : Chars) (n i : Nat) : (strncpy t n i).length = n := by
  induction n generalizing i with
  | zero => rfl
  | succ n ih =>
    rw [strncpy]
    split_ifs
    · rw [length_cons, ih]
    · rw [length_replicate]

theorem strncpy_takeWhile (t : Chars) (n i : Nat) :
    (strncpy t n i).takeWhile (· ≠ 0) = (readAt t i n).takeWhile (· ≠ 0) := by
  induction n generalizing i with
  | zero => rfl
  | succ n ih =>
    rw [strncpy, readAt_succ]
    by_cases hzero : t i = 0
    · rw [if_neg (not_not.mpr hzero), replicate_succ, takeWhile_cons, takeWhile_cons, if_pos rfl, if_pos hzero]
    · rw [if_pos hzero, takeWhile_cons, takeWhile_cons, ih]

theorem readAt_chars (s : List Byte) : readAt (chars s) 0 s.length = s := by
  refine ext_getElem (readAt_length ..) fun i hi hi' => ?_
  simp [readAt, chars, hi']

end Names

-- The entry that the bytes of a struct dirent give, if it is in use.
def decode (de : List Byte) : Option (List Byte × Nat) :=
  if direntInum de = 0 then none else some (cut (direntName de), direntInum de)

def table (D : Disk) (dp : Dinode) : List (Option (List Byte × Nat)) :=
  (List.range (dp.size / sizeofDirent)).map fun n => decode (readAt (byteAt D dp) (sizeofDirent * n) sizeofDirent)

section Entries

theorem field_append (h : a.length = n) : field (a ++ b) 0 n = field a 0 n := by
  rw [field, field, drop_zero, drop_zero, take_append_of_le_length (Nat.le_of_eq h.symm)]

theorem decode_dirent (h : inum < 2 ^ 16) (name : Chars) :
    decode (dirent inum (strncpy name DIRSIZ 0)) = if inum = 0 then none else some (cut name, inum) := by
  have hinum : direntInum (dirent inum (strncpy name DIRSIZ 0)) = inum := by
    rw [direntInum, dirent, field_append (leBytes_length 2 inum), field_leBytes (by omega)]
  have hname : cut (direntName (dirent inum (strncpy name DIRSIZ 0))) = cut name := by
    have hdrop : (dirent inum (strncpy name DIRSIZ 0)).drop 2 = strncpy name DIRSIZ 0 := by
      rw [dirent, drop_left' (leBytes_length 2 inum)]
    have hread := readAt_chars (strncpy name DIRSIZ 0)
    rw [strncpy_length] at hread
    rw [direntName, hdrop, cut, hread, strncpy_takeWhile, cut]
  rw [decode, hinum, hname]

theorem decode_zero : decode (List.replicate sizeofDirent 0) = none := by decide

theorem dirent_length (inum : Nat) (name : Chars) : (dirent inum (strncpy name DIRSIZ 0)).length = sizeofDirent := by
  rw [dirent, length_append, leBytes_length, strncpy_length]
  rfl

variable {D : Disk} {dp : Dinode} {n : Nat}

theorem table_length (D : Disk) (dp : Dinode) : (table D dp).length = dp.size / sizeofDirent := by simp [table]

theorem table_getElem? (h : n < dp.size / sizeofDirent) :
    (table D dp)[n]? = some (decode (readAt (byteAt D dp) (sizeofDirent * n) sizeofDirent)) := by
  rw [table, getElem?_map, getElem?_range h]
  rfl

theorem table_drop (h : n < dp.size / sizeofDirent) :
    (table D dp).drop n =
      decode (readAt (byteAt D dp) (sizeofDirent * n) sizeofDirent) :: (table D dp).drop (n + 1) := by
  rw [drop_eq_getElem_cons (by rwa [table_length])]
  congr 1
  simp [table]

theorem table_congr (hsize : dp'.size = dp.size) (h : ∀ o, byteAt D' dp' o = byteAt D dp o) :
    table D' dp' = table D dp := by
  rw [table, table, hsize, funext h]

theorem table_store (haligned : sizeofDirent ∣ dp.size)
    (hde : de.length = sizeofDirent) (hn : n ≤ dp.size / sizeofDirent)
    (hsize : dp'.size = max dp.size (sizeofDirent * n + sizeofDirent))
    (h : ∀ o, byteAt D' dp' o = if sizeofDirent * n ≤ o ∧ o < sizeofDirent * n + sizeofDirent
      then de.getD (o - sizeofDirent * n) 0 else byteAt D dp o) :
    table D' dp' = SlotTable.store (table D dp) n (decode de) := by
  have hlen : dp'.size / sizeofDirent = max (dp.size / sizeofDirent) (n + 1) := by
    rw [hsize]
    rw [sizeofDirent_eq] at *
    omega
  refine ext_getElem? fun m => ?_
  rw [SlotTable.getElem?_store (by rwa [table_length])]
  by_cases hm : m < dp'.size / sizeofDirent
  · rw [table_getElem? hm]
    split_ifs with heq
    · have hread : readAt (byteAt D' dp') (sizeofDirent * m) sizeofDirent = de := by
        have := readAt_chars de
        rw [hde] at this
        refine (readAt_congr fun i hi => ?_).trans this
        rw [h, heq, if_pos (by omega), Nat.add_sub_cancel_left, chars, Nat.zero_add]
      rw [hread]
    · have hread : readAt (byteAt D' dp') (sizeofDirent * m) sizeofDirent =
          readAt (byteAt D dp) (sizeofDirent * m) sizeofDirent := by
        refine readAt_congr fun i hi => ?_
        rw [h, if_neg]
        rw [sizeofDirent_eq] at *
        omega
      rw [hread, table_getElem? (by omega)]
  · rw [getElem?_eq_none (by rw [table_length]; omega), if_neg (by omega),
      getElem?_eq_none (by rw [table_length]; omega)]

end Entries

section Loops

variable {sb : Super} {D : Disk} {dp : Dinode} {n : Nat}

theorem entry_le (haligned : sizeofDirent ∣ dp.size) (h : n < dp.size / sizeofDirent) :
    sizeofDirent * n + sizeofDirent ≤ dp.size := by
  obtain ⟨q, hq⟩ := haligned
  rw [hq, Nat.mul_div_cancel_left _ (by decide)] at h
  rw [hq, sizeofDirent_eq]
  omega

theorem entry_lt_iff (haligned : sizeofDirent ∣ dp.size) : sizeofDirent * n < dp.size ↔ n < dp.size / sizeofDirent := by
  obtain ⟨q, hq⟩ := haligned
  rw [hq, Nat.mul_div_cancel_left _ (by decide), sizeofDirent_eq]
  omega

theorem readi_entry (hholes : NoHoles D dp) (haligned : sizeofDirent ∣ dp.size) (h : n < dp.size / sizeofDirent) :
    readi sb dp sizeofDirent (sizeofDirent * n) sizeofDirent D =
      .ok (sizeofDirent, readAt (byteAt D dp) (sizeofDirent * n) sizeofDirent, dp, D) :=
  readi_spec hholes (entry_le haligned h) (Nat.le_refl _)

theorem decode_none (h : decode de = none) : direntInum de = 0 := by
  by_contra hne
  rw [decode, if_neg hne] at h
  simp at h

theorem decode_some (h : decode de = some (k, v)) :
    direntInum de = v ∧ v ≠ 0 ∧ cut (direntName de) = k := by
  rw [decode] at h
  split_ifs at h with hzero
  obtain ⟨rfl, rfl⟩ := Prod.mk.inj (Option.some.inj h)
  exact ⟨rfl, hzero, rfl⟩

section

variable (hholes : NoHoles D dp) (haligned : sizeofDirent ∣ dp.size)
include hholes haligned

theorem dirlookupLoop_spec (name : Chars) (turns n : Nat) (hturns : dp.size / sizeofDirent - n ≤ turns) :
    dirlookupLoop sb name turns dp (sizeofDirent * n) D =
      .ok ((SlotTable.find (cut name) ((table D dp).drop n)).map (fun r => (r.1, sizeofDirent * (n + r.2))), dp, D) := by
  induction turns generalizing n with
  | zero =>
    rw [drop_eq_nil_of_le (by rw [table_length]; omega)]
    rfl
  | succ turns ih =>
    rw [dirlookupLoop]
    by_cases hlt : n < dp.size / sizeofDirent
    · have hnext : dirlookupLoop sb name turns dp (sizeofDirent * n + sizeofDirent) D = .ok
          (((SlotTable.find (cut name) ((table D dp).drop (n + 1))).map fun (v, m) => (v, m + 1)).map
            (fun r => (r.1, sizeofDirent * (n + r.2))), dp, D) := by
        rw [show sizeofDirent * n + sizeofDirent = sizeofDirent * (n + 1) from rfl, ih (n + 1) (by omega),
          Option.map_map]
        refine congrArg (fun r => Except.ok (r, dp, D)) (congrFun (congrArg Option.map (funext fun r => ?_)) _)
        simp only [Function.comp_apply, Nat.add_comm 1, Nat.add_assoc]
      rw [if_pos ((entry_lt_iff haligned).mpr hlt), readi_entry hholes haligned hlt, ok_bind, table_drop hlt]
      simp only [ne_eq, not_true_eq_false, if_false]
      generalize readAt (byteAt D dp) (sizeofDirent * n) sizeofDirent = de
      cases hde : decode de with
      | none =>
        rw [if_pos (decode_none hde), SlotTable.find]
        exact hnext
      | some e =>
        obtain ⟨hinum, hne, hcut⟩ := decode_some hde
        have hcmp : namecmp name (direntName de) = 0 ↔ e.1 = cut name := by
          rw [namecmp_eq_zero, hcut, eq_comm]
        rw [if_neg (by rwa [hinum]), SlotTable.find]
        by_cases hname : e.1 = cut name
        · rw [if_pos (hcmp.mpr hname), if_pos hname, hinum]
          rfl
        · rw [if_neg (mt hcmp.mp hname), if_neg hname]
          exact hnext
    · rw [if_neg (mt (entry_lt_iff haligned).mp hlt), drop_eq_nil_of_le (by rw [table_length]; omega)]
      rfl

theorem dirlookup_spec (htype : dp.type = .T_DIR) (name : Chars) : dirlookup sb dp name D =
      .ok ((SlotTable.find (cut name) (table D dp)).map (fun r => (r.1, sizeofDirent * r.2)), dp, D) := by
  have hloop : dirlookupLoop sb name dp.size dp (sizeofDirent * 0) D = _ :=
    dirlookupLoop_spec hholes haligned name dp.size 0 (Nat.le_trans (Nat.sub_le ..) (Nat.div_le_self ..))
  rw [dirlookup, if_neg (not_not.mpr htype)]
  simpa using hloop

theorem dirlinkLoop_spec (turns n : Nat) (hn : n ≤ dp.size / sizeofDirent)
    (hturns : dp.size / sizeofDirent - n ≤ turns) :
    dirlinkLoop sb turns dp (sizeofDirent * n) D =
      .ok (sizeofDirent * (n + SlotTable.room ((table D dp).drop n)), dp, D) := by
  induction turns generalizing n with
  | zero =>
    rw [drop_eq_nil_of_le (by rw [table_length]; omega)]
    rfl
  | succ turns ih =>
    rw [dirlinkLoop]
    by_cases hlt : n < dp.size / sizeofDirent
    · rw [if_pos ((entry_lt_iff haligned).mpr hlt), readi_entry hholes haligned hlt, ok_bind, table_drop hlt,
        SlotTable.room, findIdx_cons]
      simp only [ne_eq, not_true_eq_false, if_false]
      generalize readAt (byteAt D dp) (sizeofDirent * n) sizeofDirent = de
      cases hde : decode de with
      | none =>
        rw [if_pos (decode_none hde)]
        rfl
      | some e =>
        obtain ⟨hinum, hne, -⟩ := decode_some hde
        rw [if_neg (by rwa [hinum]), show sizeofDirent * n + sizeofDirent = sizeofDirent * (n + 1) from rfl,
          ih (n + 1) hlt (by omega), SlotTable.room]
        simp only [Option.isNone_some, cond_false, Nat.add_assoc, Nat.add_comm 1]
    · rw [if_neg (mt (entry_lt_iff haligned).mp hlt), drop_eq_nil_of_le (by rw [table_length]; omega)]
      rfl

end

end Loops

section Write

variable {sb : Super} {D : Disk} {dnum n : Nat} {loose : Nat → Prop}

-- A directory on a disk whose blocks are accounted for. Its inode is the one on the disk.
structure DirOk (sb : Super) (dnum : Nat) (D : Disk) (loose : Nat → Prop) : Prop where
  accounted : Accounted sb D loose
  inum : dnum < sb.ninodes
  type : (D.dinodes dnum).type = .T_DIR
  holes : NoHoles D (D.dinodes dnum)
  aligned : sizeofDirent ∣ (D.dinodes dnum).size

theorem DirOk.type_ne (h : DirOk sb dnum D loose) : (D.dinodes dnum).type ≠ .free := by
  rw [h.type]
  simp

-- writei() of one entry: all of it, or nothing when the disk or the file is full.
theorem writei_entry (h : DirOk sb dnum D loose) (hde : de.length = sizeofDirent)
    (hn : n ≤ (D.dinodes dnum).size / sizeofDirent) :
    ∃ r dp' D', writei sb dnum (D.dinodes dnum) de (sizeofDirent * n) sizeofDirent D = .ok (r, dp', D') ∧
      D'.dinodes dnum = dp' ∧ DirOk sb dnum D' loose ∧
      (r = sizeofDirent ∧ table D' dp' = SlotTable.store (table D (D.dinodes dnum)) n (decode de) ∨
        r ≠ sizeofDirent ∧ (D.dinodes dnum).size / sizeofDirent = n ∧ table D' dp' = table D (D.dinodes dnum)) := by
  have haligned := h.aligned
  have hle : sizeofDirent * n ≤ (D.dinodes dnum).size := by
    rw [Nat.mul_comm]
    exact Nat.mul_le_of_le_div _ _ _ hn
  have hmax := h.holes.size_le
  by_cases hfits : sizeofDirent * n + sizeofDirent ≤ MAXFILE * BSIZE
  · have hacc : Accounted sb (iupdate dnum (D.dinodes dnum) D) loose := by
      rw [iupdate_self]
      exact h.accounted
    obtain ⟨off', ip', D', heq, hw⟩ := writei_spec hacc h.inum h.type_ne de hle hfits
    have hend : off' = sizeofDirent * n ∧ blockOf D (D.dinodes dnum) (sizeofDirent * n / BSIZE) = 0 ∨
        off' = sizeofDirent * n + sizeofDirent := by
      have hlo := hw.le
      have hhi := hw.bound
      by_cases hlt : off' < sizeofDirent * n + sizeofDirent
      · obtain ⟨hzero, hat⟩ := hw.stop (Nat.le_of_eq hde.symm) hlt
        have hoff : off' = sizeofDirent * n := by
          rw [BSIZE_eq, sizeofDirent_eq] at *
          omega
        exact .inl ⟨hoff, hoff ▸ hzero⟩
      · exact .inr (by omega)
    have hsize : sizeofDirent ∣ max (D.dinodes dnum).size off' := by
      rw [sizeofDirent_eq] at *
      omega
    have hok : DirOk sb dnum (iupdate dnum { ip' with size := max (D.dinodes dnum).size off' } D') loose := {
      accounted := hw.accounted.congr_fields rfl rfl
      inum := h.inum
      type := by rw [iupdate_dinodes_self, hw.fields]; exact h.type
      holes := by rw [iupdate_dinodes_self]; exact hw.noHoles h.holes hle
      aligned := by rw [iupdate_dinodes_self]; exact hsize }
    refine ⟨_, _, _, heq, iupdate_dinodes_self, hok, ?_⟩
    have hbytes := hw.bytes (Nat.le_of_eq hde.symm)
    rcases hend with ⟨rfl, hzero⟩ | rfl
    · refine .inr ⟨by rw [Nat.sub_self]; decide, ?_, table_congr (Nat.max_eq_left hle) fun o => ?_⟩
      · by_contra hne
        have hlt := (entry_lt_iff haligned).mpr (Nat.lt_of_le_of_ne hn (Ne.symm hne))
        exact h.holes _ (Nat.lt_of_le_of_lt (Nat.div_mul_le_self ..) hlt) hzero
      · exact (hbytes o).trans (if_neg (by omega))
    · exact .inl ⟨by rw [Nat.add_sub_cancel_left], table_store haligned hde hn rfl hbytes⟩
  · have hlast : (D.dinodes dnum).size / sizeofDirent = n := by
      rw [sizeofDirent_eq] at *
      omega
    refine ⟨-1, _, D, writei_refused ?_, rfl, h, .inr ⟨by decide, hlast, rfl⟩⟩
    rw [wrapU32, Nat.mod_eq_of_lt (by rw [MAXFILE_eq, BSIZE_eq] at hmax; rw [sizeofDirent_eq] at *; omega)]
    exact fun hnot => hfits hnot.2.2

end Write

end Xv6.Fs
