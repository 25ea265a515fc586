import Xv6.Files
import Xv6.Disk.Trunc
import Xv6.Dir.Theorems

namespace Xv6.Fs

open Lib

variable {sb : Super} {D D' : Disk} {inum dnum : Nat} {loose : Nat → Prop}

-- A directory ends with an entry, and its entries name inodes of the disk.
structure WellDir (sb : Super) (D : Disk) (dp : Dinode) : Prop where
  aligned : sizeofDirent ∣ dp.size
  named : ∀ name v, some (name, v) ∈ table D dp → v < sb.ninodes

structure Sound (sb : Super) (D : Disk) : Prop where
  accounted : ∃ loose, Accounted sb D loose
  holes : ∀ i, D.live sb i → NoHoles D (D.dinodes i)
  dirs : ∀ i, D.live sb i → (D.dinodes i).type = .T_DIR → WellDir sb D (D.dinodes i)

structure Change (sb : Super) (inum : Nat) (D D' : Disk) (loose : Nat → Prop) : Prop where
  accounted : Accounted sb D' loose
  dinodes : ∀ i, i ≠ inum → D'.dinodes i = D.dinodes i
  others : ∀ i, i ≠ inum → D.live sb i →
    (∀ k, blockOf D' (D.dinodes i) k = blockOf D (D.dinodes i) k) ∧ byteAt D' (D.dinodes i) = byteAt D (D.dinodes i)
  holes : D'.live sb inum → NoHoles D' (D'.dinodes inum)

theorem Sound.change (h : Sound sb D) (hc : Change sb inum D D' loose)
    (hdir : D'.live sb inum → (D'.dinodes inum).type = .T_DIR → WellDir sb D' (D'.dinodes inum)) : Sound sb D' := by
  refine ⟨⟨loose, hc.accounted⟩, fun i hlive => ?_, fun i hlive htype => ?_⟩
  · by_cases hi : i = inum
    · subst hi
      exact hc.holes hlive
    · rw [Disk.live, hc.dinodes i hi] at hlive
      rw [hc.dinodes i hi]
      intro bn hlt
      rw [(hc.others i hi hlive).1]
      exact h.holes i hlive bn hlt
  · by_cases hi : i = inum
    · subst hi
      exact hdir hlive htype
    · rw [Disk.live, hc.dinodes i hi] at hlive
      rw [hc.dinodes i hi] at htype ⊢
      have hsame : table D' (D.dinodes i) = table D (D.dinodes i) :=
        table_congr rfl fun o => congrFun (hc.others i hi hlive).2 o
      obtain ⟨haligned, hnamed⟩ := h.dirs i hlive htype
      exact ⟨haligned, hsame ▸ hnamed⟩

theorem Sound.dirOk (h : Sound sb D) (hacc : Accounted sb D loose) (hlive : D.live sb dnum)
    (htype : (D.dinodes dnum).type = .T_DIR) : DirOk sb dnum D loose :=
  ⟨hacc, hlive.1, htype, h.holes dnum hlive, (h.dirs dnum hlive htype).aligned⟩

theorem mem_store (h : e' ∈ SlotTable.store t n e) : e' = e ∨ e' ∈ t := by
  rw [SlotTable.store] at h
  split_ifs at h
  · exact (List.mem_or_eq_of_mem_set h).symm
  · simpa [or_comm] using h

theorem decode_dirent_le (h : decode (dirent inum (strncpy s DIRSIZ 0)) = some (name, v)) : v ≤ inum := by
  rw [decode] at h
  split_ifs at h
  obtain ⟨-, rfl⟩ : _ ∧ _ := by simpa using h
  rw [direntInum, dirent, field_append (leBytes_length 2 inum), field_leBytes_mod]
  exact Nat.mod_le _ _

section Inodes

theorem writei_change (hacc : Accounted sb D loose) (hlive : D.live sb inum) (hholes : NoHoles D (D.dinodes inum))
    (src : List Byte) (off : Nat) (hn : n < 2 ^ 32) :
    ∃ r D', writei sb inum (D.dinodes inum) src off n D = .ok (r, D'.dinodes inum, D') ∧ Change sb inum D D' loose ∧
      (D'.dinodes inum).type = (D.dinodes inum).type := by
  by_cases haccept : off ≤ (D.dinodes inum).size ∧ off ≤ wrapU32 (off + n) ∧ wrapU32 (off + n) ≤ MAXFILE * BSIZE
  · have hsize := hholes.size_le
    have hmax : off + n ≤ MAXFILE * BSIZE := by
      obtain ⟨hoff, hwrap, hle⟩ := haccept
      rw [MAXFILE_eq, BSIZE_eq] at *
      rw [wrapU32] at *
      omega
    have hacc' : Accounted sb (iupdate inum (D.dinodes inum) D) loose := by rwa [iupdate_self]
    obtain ⟨off', ip', D', heq, hw⟩ := writei_spec hacc' hlive.1 hlive.2 src haccept.1 hmax
    refine ⟨(off' - off : Nat), iupdate inum { ip' with size := max (D.dinodes inum).size off' } D', ?_,
      ⟨?_, ?_, ?_, ?_⟩, ?_⟩
    · rw [iupdate_dinodes_self]
      exact heq
    · exact hw.accounted.congr_fields rfl rfl
    · intro i hi
      rw [iupdate_dinodes_ne hi, hw.dinodes]
    · exact hw.others
    · intro _
      rw [iupdate_dinodes_self]
      exact hw.noHoles hholes haccept.1
    · rw [iupdate_dinodes_self, hw.fields]
  · exact ⟨-1, D, writei_refused haccept, ⟨hacc, fun _ _ => rfl, fun _ _ _ => ⟨fun _ => rfl, rfl⟩, fun _ => hholes⟩, rfl⟩

theorem Sound.writei (h : Sound sb D) (hlive : D.live sb inum) (htype : (D.dinodes inum).type ≠ .T_DIR)
    (src : List Byte) (off : Nat) (hn : n < 2 ^ 32) :
    ∃ r D', writei sb inum (D.dinodes inum) src off n D = .ok (r, D'.dinodes inum, D') ∧ Sound sb D' := by
  obtain ⟨loose, hacc⟩ := h.accounted
  obtain ⟨r, D', heq, hc, htype'⟩ := writei_change hacc hlive (h.holes inum hlive) src off hn
  exact ⟨r, D', heq, h.change hc fun _ hdir => absurd (htype'.symm.trans hdir) htype⟩

theorem Sound.iupdate (h : Sound sb D) (haddrs : ip.addrs = (D.dinodes inum).addrs)
    (hsize : ip.size = (D.dinodes inum).size) (htype : ip.type = (D.dinodes inum).type) :
    Sound sb (iupdate inum ip D) := by
  obtain ⟨loose, hacc⟩ := h.accounted
  rw [← iupdate_self D inum] at hacc
  have hacc' : Accounted sb (Fs.iupdate inum ip D) loose := hacc.congr_fields haddrs htype
  have hlive : (Fs.iupdate inum ip D).live sb inum → D.live sb inum := fun hl => by
    rwa [Disk.live, iupdate_dinodes_self, htype] at hl
  have hblock : ∀ bn, blockOf (Fs.iupdate inum ip D) ip bn = blockOf D (D.dinodes inum) bn := fun bn => by
    simp only [blockOf, haddrs]
    rfl
  have hbytes : ∀ o, byteAt (Fs.iupdate inum ip D) ip o = byteAt D (D.dinodes inum) o := fun o => by
    rw [byteAt, byteAt, hblock]
    rfl
  refine h.change ⟨hacc', fun i hi => iupdate_dinodes_ne hi, fun _ _ _ => ⟨fun _ => rfl, rfl⟩, fun hl => ?_⟩
    fun hl hdir => ?_
  · rw [iupdate_dinodes_self]
    intro bn hlt
    rw [hblock]
    exact h.holes inum (hlive hl) bn (hsize ▸ hlt)
  · rw [iupdate_dinodes_self] at hdir ⊢
    obtain ⟨haligned, hnamed⟩ := h.dirs inum (hlive hl) (htype ▸ hdir)
    exact ⟨hsize ▸ haligned, by rwa [table_congr hsize hbytes]⟩

theorem noHoles_of_size_zero (h : ip.size = 0) : NoHoles D ip := by
  intro bn hlt
  rw [h] at hlt
  omega

theorem wellDir_of_size_zero (h : dp.size = 0) : WellDir sb D dp := by
  refine ⟨by rw [h]; exact Nat.dvd_zero _, fun name v hmem => ?_⟩
  have hempty : table D dp = [] := List.eq_nil_of_length_eq_zero (by rw [table_length, h, Nat.zero_div])
  rw [hempty] at hmem
  simp at hmem

theorem Sound.itrunc (h : Sound sb D) (hlive : D.live sb inum) :
    ∃ D', itrunc inum (D.dinodes inum) D = .ok (D'.dinodes inum, D') ∧ Sound sb D' ∧
      D'.dinodes inum = (D.dinodes inum).truncated ∧ ∀ i, i ≠ inum → D'.dinodes i = D.dinodes i := by
  obtain ⟨loose, hacc⟩ := h.accounted
  rw [← iupdate_self D inum] at hacc
  obtain ⟨bits, heq, hacc'⟩ := itrunc_spec hacc hlive.1 hlive.2
  have hc : Change sb inum D (Fs.iupdate inum (D.dinodes inum).truncated { D with bitmap := bits }) loose := by
    refine ⟨hacc', fun i hi => iupdate_dinodes_ne hi, fun _ _ _ => ⟨fun _ => rfl, rfl⟩, fun _ => ?_⟩
    rw [iupdate_dinodes_self]
    exact noHoles_of_size_zero rfl
  refine ⟨_, ?_, h.change hc fun _ _ => ?_, iupdate_dinodes_self, fun i hi => iupdate_dinodes_ne hi⟩
  · rw [iupdate_dinodes_self]
    exact heq
  · rw [iupdate_dinodes_self]
    exact wellDir_of_size_zero rfl

theorem Sound.retype (h : Sound sb D) (hsize : ip.size = 0) (hnone : ∀ k, ip.addrs k = 0 ∨ NDIRECT < k)
    (hold : ∀ p, D.slot sb (inum, p) = 0) : Sound sb (Fs.iupdate inum ip D) := by
  obtain ⟨loose, hacc⟩ := h.accounted
  have hzero : ∀ k, k ≤ NDIRECT → ip.addrs k = 0 := fun k hk => (hnone k).resolve_right (by omega)
  have hslot : (Fs.iupdate inum ip D).slot sb = D.slot sb := by
    funext ⟨i, p⟩
    by_cases hi : i = inum
    · subst hi
      rw [hold, Disk.slot]
      split_ifs
      · rw [iupdate_dinodes_self]
        cases p with
        | indirect => exact hzero NDIRECT (Nat.le_refl _)
        | block bn =>
          simp only [place, blockOf, hzero NDIRECT (Nat.le_refl _), ne_eq, not_true_eq_false, and_false, if_false]
          split_ifs with hlt
          · exact hzero bn (by omega)
          · rfl
      · rfl
    · rw [slot_other hi]
  have hacc' : Accounted sb (Fs.iupdate inum ip D) loose := hacc.congr (fun s => congrFun hslot s) fun _ => Iff.rfl
  refine h.change ⟨hacc', fun i hi => iupdate_dinodes_ne hi, fun _ _ _ => ⟨fun _ => rfl, rfl⟩, fun _ => ?_⟩
    fun _ _ => ?_
  · rw [iupdate_dinodes_self]
    exact noHoles_of_size_zero hsize
  · rw [iupdate_dinodes_self]
    exact wellDir_of_size_zero hsize

theorem Sound.ifree (h : Sound sb D) (hlive : D.live sb inum) : ∃ D', ifree inum D = .ok D' ∧ Sound sb D' := by
  obtain ⟨D', heq, hsound, htrunc, -⟩ := h.itrunc hlive
  refine ⟨Fs.iupdate inum { D'.dinodes inum with type := .free } D', by rw [Fs.ifree, heq]; rfl, ?_⟩
  have hzero : ∀ k, (D'.dinodes inum).addrs k = 0 ∨ NDIRECT < k := fun k => by
    rw [htrunc, Dinode.truncated]
    by_cases hk : k ≤ NDIRECT
    · exact .inl (if_pos hk)
    · exact .inr (by omega)
  refine hsound.retype (by rw [htrunc]; rfl) hzero fun p => ?_
  rw [Disk.slot]
  split_ifs
  · rw [htrunc]
    exact place_truncated _ _ p
  · rfl

theorem ialloc_cases (sb : Super) (type : FileType) (D : Disk) :
    ialloc sb type D = none ∨ ∃ inum, inum < sb.ninodes ∧ (D.dinodes inum).type = .free ∧
      ialloc sb type D = some (inum, Fs.iupdate inum { Dinode.zero with type := type } D) := by
  rw [ialloc]
  cases hfind : (List.range' 1 (sb.ninodes - 1)).find? fun inum => (D.dinodes inum).type = .free with
  | none => exact .inl rfl
  | some inum =>
    have hfree := List.find?_some hfind
    have hmem := List.mem_range'_1.mp (List.mem_of_find?_eq_some hfind)
    exact .inr ⟨inum, by omega, by simpa using hfree, rfl⟩

theorem Sound.ialloc (h : Sound sb D) (hfree : (D.dinodes inum).type = .free) :
    Sound sb (Fs.iupdate inum { Dinode.zero with type := type } D) := by
  refine h.retype rfl (fun _ => .inl rfl) fun p => ?_
  rw [Disk.slot, if_neg fun hlive => hlive.2 hfree]

end Inodes

section Calls

section

variable (h : Sound sb D) (hlive : D.live sb dnum) (htype : (D.dinodes dnum).type = .T_DIR)
include h hlive htype

theorem Sound.dirlink (name : Chars) (hinum : inum < sb.ninodes) :
    ∃ r D', dirlink sb dnum (D.dinodes dnum) name inum D = .ok (r, D'.dinodes dnum, D') ∧ Sound sb D' ∧
      (D'.dinodes dnum).type = .T_DIR ∧ ∀ i, i ≠ dnum → D'.dinodes i = D.dinodes i := by
  obtain ⟨loose, hacc⟩ := h.accounted
  have hok := h.dirOk hacc hlive htype
  rcases dirlink_cases hok name inum with ⟨-, heq⟩ | ⟨-, r, D', hwrite, hok', hcase⟩
  · exact ⟨-1, D, heq, h, htype, fun _ _ => rfl⟩
  · obtain ⟨r₁, D₁, hwrite₁, hc, -⟩ := writei_change hacc hlive hok.holes (dirent inum (strncpy name DIRSIZ 0))
      (sizeofDirent * SlotTable.room (table D (D.dinodes dnum))) (show sizeofDirent < 2 ^ 32 by decide)
    rw [hwrite] at hwrite₁
    obtain ⟨-, -, rfl⟩ : _ ∧ _ ∧ _ := by simpa using hwrite₁
    have hnamed := (h.dirs dnum hlive htype).named
    rcases hcase with ⟨-, heq, htable⟩ | ⟨-, heq, htable⟩
    · exact ⟨-1, D', heq, h.change hc fun _ _ => ⟨hok'.aligned, htable ▸ hnamed⟩, hok'.type, hc.dinodes⟩
    · refine ⟨0, D', heq, h.change hc fun _ _ => ⟨hok'.aligned, fun nm v hmem => ?_⟩, hok'.type, hc.dinodes⟩
      rw [htable] at hmem
      rcases mem_store hmem with hnew | hold
      · exact Nat.lt_of_le_of_lt (decode_dirent_le hnew.symm) hinum
      · exact hnamed nm v hold

theorem Sound.unlinkEntry (hfound : lookup sb dnum D name = some (inum, off)) :
    ∃ D', unlinkEntry sb dnum (D.dinodes dnum) off D = .ok (D'.dinodes dnum, D') ∧ Sound sb D' ∧
      (D'.dinodes dnum).type = .T_DIR ∧ ∀ i, i ≠ dnum → D'.dinodes i = D.dinodes i := by
  obtain ⟨loose, hacc⟩ := h.accounted
  have hok := h.dirOk hacc hlive htype
  obtain ⟨n, D', -, -, hwrite, heq, hok', htable⟩ := unlinkEntry_spec hok hfound
  obtain ⟨r₁, D₁, hwrite₁, hc, -⟩ := writei_change hacc hlive hok.holes (List.replicate sizeofDirent 0) off
    (show sizeofDirent < 2 ^ 32 by decide)
  rw [hwrite] at hwrite₁
  obtain ⟨-, -, rfl⟩ : _ ∧ _ ∧ _ := by simpa using hwrite₁
  refine ⟨D', heq, h.change hc fun _ _ => ⟨hok'.aligned, fun nm v hmem => ?_⟩, hok'.type, hc.dinodes⟩
  rw [htable] at hmem
  exact (h.dirs dnum hlive htype).named nm v ((mem_store hmem).resolve_left (by simp))

theorem Sound.lookup (name : Chars) :
    dirlookup sb (D.dinodes dnum) name D = .ok (lookup sb dnum D name, D.dinodes dnum, D) := by
  obtain ⟨loose, hacc⟩ := h.accounted
  exact (h.dirOk hacc hlive htype).dirlookup_eq name

theorem Sound.lookup_lt (hfound : Fs.lookup sb dnum D name = some (inum, off)) :
    inum < sb.ninodes := by
  obtain ⟨loose, hacc⟩ := h.accounted
  rw [(h.dirOk hacc hlive htype).lookup_eq] at hfound
  obtain ⟨r, hfind, heq⟩ := Option.map_eq_some_iff.mp hfound
  obtain ⟨rfl, -⟩ := Prod.mk.inj heq
  exact (h.dirs dnum hlive htype).named _ _ (List.mem_of_getElem? (SlotTable.find_some hfind))

end

theorem isdiremptyLoop_keeps (sb : Super) (hholes : NoHoles D dp) (haligned : sizeofDirent ∣ dp.size) (turns n : Nat) :
    ∃ empty, isdiremptyLoop sb turns dp (sizeofDirent * n) D = .ok (empty, dp, D) := by
  induction turns generalizing n with
  | zero => exact ⟨true, rfl⟩
  | succ turns ih =>
    rw [isdiremptyLoop]
    by_cases hlt : n < dp.size / sizeofDirent
    · rw [if_pos ((entry_lt_iff haligned).mpr hlt), readi_entry hholes haligned hlt, ok_bind]
      simp only [ne_eq, not_true_eq_false, if_false]
      by_cases hzero : direntInum (readAt (byteAt D dp) (sizeofDirent * n) sizeofDirent) = 0
      · rw [if_neg (not_not.mpr hzero)]
        exact ih (n + 1)
      · rw [if_pos hzero]
        exact ⟨false, rfl⟩
    · rw [if_neg (mt (entry_lt_iff haligned).mp hlt)]
      exact ⟨true, rfl⟩

theorem Sound.isdirempty (h : Sound sb D) (hlive : D.live sb inum) (htype : (D.dinodes inum).type = .T_DIR) :
    ∃ empty, isdirempty sb (D.dinodes inum) D = .ok (empty, D.dinodes inum, D) := by
  have hloop := isdiremptyLoop_keeps sb (h.holes inum hlive) (h.dirs inum hlive htype).aligned (D.dinodes inum).size 2
  rwa [Nat.mul_comm] at hloop

theorem live_of_dinodes (hlive : D.live sb i) (h : D'.dinodes i = D.dinodes i) : D'.live sb i := by
  rwa [Disk.live, h]

theorem Sound.createDots (h : Sound sb D) (hlive : D.live sb inum) (htype : (D.dinodes inum).type = .T_DIR)
    (hdnum : dnum < sb.ninodes) :
    ∃ dots D', createDots sb dnum inum (D.dinodes inum) D = .ok (dots, D'.dinodes inum, D') ∧ Sound sb D' ∧
      D'.live sb inum ∧ ∀ i, i ≠ inum → D'.dinodes i = D.dinodes i := by
  obtain ⟨r, D₁, heq, hsound, htype₁, hrest⟩ := h.dirlink hlive htype dot hlive.1
  have hlive₁ : D₁.live sb inum := ⟨hlive.1, by rw [htype₁]; simp⟩
  rw [Fs.createDots, heq, ok_bind]
  by_cases hr : r < 0
  · exact ⟨false, D₁, by simp [hr], hsound, hlive₁, hrest⟩
  · obtain ⟨r₂, D₂, heq₂, hsound₂, htype₂, hrest₂⟩ := hsound.dirlink hlive₁ htype₁ dotdot hdnum
    refine ⟨!decide (r₂ < 0), D₂, ?_, hsound₂, ⟨hlive.1, by rw [htype₂]; simp⟩, fun i hi => (hrest₂ i hi).trans (hrest i hi)⟩
    simp only [if_neg hr, heq₂, ok_bind]
    rfl

theorem Sound.createFail (h : Sound sb D) (hlive : D.live sb inum) :
    ∃ D', createFail inum (D.dinodes inum) D = .ok (none, D') ∧ Sound sb D' := by
  have hsound : Sound sb (Fs.iupdate inum { D.dinodes inum with nlink := 0 } D) := h.iupdate rfl rfl rfl
  obtain ⟨D', heq, hsound'⟩ := hsound.ifree ⟨hlive.1, by rw [iupdate_dinodes_self]; exact hlive.2⟩
  exact ⟨D', by rw [Fs.createFail, heq]; rfl, hsound'⟩

section

variable (h : Sound sb D) (hlive : D.live sb dnum)
include h hlive

theorem Sound.createNew (hdir : (D.dinodes dnum).type = .T_DIR) (hnew : D.live sb inum) (hne : dnum ≠ inum)
    (name : Chars) (htype : (D.dinodes inum).type = type) (major minor : Int) :
    ∃ r D', createNew sb dnum inum (D.dinodes dnum) name type major minor D = .ok (r, D') ∧ Sound sb D' := by
  rw [Fs.createNew]
  simp only
  generalize hip : { D.dinodes inum with major := major, minor := minor, nlink := 1 } = ip
  have hsound : Sound sb (Fs.iupdate inum ip D) := h.iupdate (by rw [← hip]) (by rw [← hip]) (by rw [← hip])
  generalize hD₁ : Fs.iupdate inum ip D = D₁ at hsound
  have hself : D₁.dinodes inum = ip := by rw [← hD₁, iupdate_dinodes_self]
  have hother : ∀ i, i ≠ inum → D₁.dinodes i = D.dinodes i := fun i hi => by rw [← hD₁, iupdate_dinodes_ne hi]
  have hnew₁ : D₁.live sb inum := ⟨hnew.1, by rw [hself, ← hip]; exact hnew.2⟩
  -- the entries of a new directory are in it alone
  have hdots : ∃ dots D₂, (if type = .T_DIR then Fs.createDots sb dnum inum ip D₁ else pure (true, ip, D₁)) =
      .ok (dots, D₂.dinodes inum, D₂) ∧ Sound sb D₂ ∧ D₂.live sb inum ∧
      ∀ i, i ≠ inum → D₂.dinodes i = D.dinodes i := by
    split_ifs with hT
    · obtain ⟨dots, D₂, heq, hsound₂, hlive₂, hrest⟩ :=
        hsound.createDots hnew₁ (by rw [hself, ← hip]; exact htype.trans hT) hlive.1
      rw [hself] at heq
      exact ⟨dots, D₂, heq, hsound₂, hlive₂, fun i hi => (hrest i hi).trans (hother i hi)⟩
    · exact ⟨true, D₁, by rw [hself]; rfl, hsound, hnew₁, hother⟩
  obtain ⟨dots, D₂, heq, hsound₂, hnew₂, hrest⟩ := hdots
  rw [heq, ok_bind]
  simp only
  by_cases hdone : dots = false
  · rw [if_pos hdone]
    obtain ⟨D', hfail, hsound'⟩ := hsound₂.createFail hnew₂
    exact ⟨none, D', hfail, hsound'⟩
  · rw [if_neg hdone, ← hrest dnum hne]
    have hlive₂ : D₂.live sb dnum := live_of_dinodes hlive (hrest dnum hne)
    obtain ⟨r, D₃, hlink, hsound₃, htype₃, hrest₃⟩ :=
      hsound₂.dirlink hlive₂ (by rw [hrest dnum hne]; exact hdir) name hnew.1
    have hsame : D₃.dinodes inum = D₂.dinodes inum := hrest₃ inum (Ne.symm hne)
    rw [hlink, ok_bind]
    simp only
    by_cases hr : r < 0
    · rw [if_pos hr, ← hsame]
      obtain ⟨D', hfail, hsound'⟩ := hsound₃.createFail (live_of_dinodes hnew₂ hsame)
      exact ⟨none, D', hfail, hsound'⟩
    · rw [if_neg hr]
      split_ifs
      · exact ⟨_, _, rfl, hsound₃.iupdate rfl rfl rfl⟩
      · exact ⟨_, _, rfl, hsound₃⟩

theorem Sound.create (hdir : (D.dinodes dnum).type = .T_DIR) (name : Chars) (htype : type ≠ .free)
    (major minor : Int) :
    create sb dnum name type major minor D = .error .ilockType ∨
      ∃ r D', create sb dnum name type major minor D = .ok (r, D') ∧ Sound sb D' := by
  rw [Fs.create, h.lookup hlive hdir, ok_bind]
  cases hfound : Fs.lookup sb dnum D name with
  | some found =>
    simp only
    by_cases hfree : (D.dinodes found.1).type = .free
    · exact .inl (if_pos hfree)
    · rw [if_neg hfree]
      split_ifs
      · exact .inr ⟨_, D, rfl, h⟩
      · exact .inr ⟨_, D, rfl, h⟩
  | none =>
    refine .inr ?_
    simp only
    rcases ialloc_cases sb type D with hnone | ⟨inum, hlt, hfree, heq⟩
    · rw [hnone]
      exact ⟨none, D, rfl, h⟩
    · rw [heq]
      have hne : dnum ≠ inum := fun heq => hlive.2 (heq ▸ hfree)
      have hsame : (Fs.iupdate inum { Dinode.zero with type := type } D).dinodes dnum = D.dinodes dnum :=
        iupdate_dinodes_ne hne
      rw [← hsame]
      refine (h.ialloc hfree).createNew (live_of_dinodes hlive hsame) (by rw [hsame]; exact hdir) ⟨hlt, ?_⟩ hne name ?_
        major minor
      · rw [iupdate_dinodes_self]
        exact htype
      · rw [iupdate_dinodes_self]

theorem Sound.unlinkFound (hdir : (D.dinodes dnum).type = .T_DIR)
    (hfound : Fs.lookup sb dnum D name = some (inum, off)) (hne : inum ≠ dnum) (last : Bool) :
    (∃ e, unlinkFound sb dnum inum off (D.dinodes dnum) last D = .error e ∧ (e = .ilockType ∨ e = .unlinkNlink)) ∨
      ∃ r D', unlinkFound sb dnum inum off (D.dinodes dnum) last D = .ok (r, D') ∧ Sound sb D' := by
  rw [Fs.unlinkFound]
  simp only
  by_cases hfree : (D.dinodes inum).type = .free
  · exact .inl ⟨_, if_pos hfree, .inl rfl⟩
  rw [if_neg hfree]
  by_cases hlink : (D.dinodes inum).nlink < 1
  · exact .inl ⟨_, if_pos hlink, .inr rfl⟩
  rw [if_neg hlink]
  refine .inr ?_
  have hip : D.live sb inum := ⟨h.lookup_lt hlive hdir hfound, hfree⟩
  have hempty : ∃ empty, (if (D.dinodes inum).type = .T_DIR then Fs.isdirempty sb (D.dinodes inum) D
      else pure (true, D.dinodes inum, D)) = .ok (empty, D.dinodes inum, D) := by
    split_ifs with hT
    · exact h.isdirempty hip hT
    · exact ⟨true, rfl⟩
  obtain ⟨empty, heq⟩ := hempty
  rw [heq, ok_bind]
  simp only
  by_cases hfull : empty = false
  · rw [if_pos hfull]
    exact ⟨_, D, rfl, h⟩
  rw [if_neg hfull]
  obtain ⟨D₁, hremove, hsound₁, -, hrest₁⟩ := h.unlinkEntry hlive hdir hfound
  rw [hremove, ok_bind]
  simp only
  generalize hD₂ : (if (D.dinodes inum).type = .T_DIR then
    Fs.iupdate dnum { D₁.dinodes dnum with nlink := wrap16 ((D₁.dinodes dnum).nlink - 1) } D₁ else D₁) = D₂
  have hsound₂ : Sound sb D₂ := by
    rw [← hD₂]
    split_ifs
    · exact hsound₁.iupdate rfl rfl rfl
    · exact hsound₁
  have hsame : D₂.dinodes inum = D.dinodes inum := by
    rw [← hrest₁ inum hne, ← hD₂]
    split_ifs
    · exact iupdate_dinodes_ne hne
    · rfl
  rw [← hsame]
  generalize hD₃ : Fs.iupdate inum { D₂.dinodes inum with nlink := wrap16 ((D₂.dinodes inum).nlink - 1) } D₂ = D₃
  have hsound₃ : Sound sb D₃ := hD₃ ▸ hsound₂.iupdate rfl rfl rfl
  have hip₃ : D₃.live sb inum := by
    rw [← hD₃, Disk.live, iupdate_dinodes_self]
    exact live_of_dinodes hip hsame
  split_ifs
  · obtain ⟨D', hgone, hsound'⟩ := hsound₃.ifree hip₃
    rw [hgone]
    exact ⟨_, D', rfl, hsound'⟩
  · exact ⟨_, D₃, rfl, hsound₃⟩

theorem Sound.unlink (hdir : (D.dinodes dnum).type = .T_DIR) (name : Chars) (last : Bool) :
    (∃ e, unlink sb dnum name last D = .error e ∧ (e = .ilockType ∨ e = .unlinkNlink)) ∨
      ∃ r D', unlink sb dnum name last D = .ok (r, D') ∧ Sound sb D' := by
  rw [Fs.unlink]
  split_ifs with hdots
  · exact .inr ⟨_, D, rfl, h⟩
  · rw [h.lookup hlive hdir, ok_bind]
    cases hfound : Fs.lookup sb dnum D name with
    | none => exact .inr ⟨_, D, rfl, h⟩
    | some found =>
      simp only
      split_ifs with hself
      · exact .inr ⟨_, D, rfl, h⟩
      · exact h.unlinkFound hlive hdir hfound hself last

end

end Calls

end Xv6.Fs
