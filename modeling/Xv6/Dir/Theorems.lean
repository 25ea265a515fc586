import Xv6.Dir.Table
import Xv6.Disk.Theorems
import Xv6.Lib.Reach

namespace Xv6.Fs

open Lib List

variable {sb : Super} {dnum : Nat} {D D' : Disk} {loose : Nat → Prop}

-- What dirlookup() finds in a directory, and the inode number that it returns: 0 for the null
-- pointer.
def lookup (sb : Super) (dnum : Nat) (D : Disk) (name : Chars) : Option (Nat × Nat) :=
  match dirlookup sb (D.dinodes dnum) name D with
  | .ok (found, _, _) => found
  | .error _ => none

def lookupInum (sb : Super) (dnum : Nat) (D : Disk) (name : Chars) : Nat :=
  ((lookup sb dnum D name).map Prod.fst).getD 0

def entryAt (dnum : Nat) (D : Disk) (n : Nat) : List Byte :=
  readAt (byteAt D (D.dinodes dnum)) (sizeofDirent * n) sizeofDirent

-- dirlink() comes to writei(), which does not write the entry.
def WriteFails (sb : Super) (dnum : Nat) (D : Disk) (name : Chars) (inum : Nat) : Prop :=
  ∃ off dp D₁ r dp' D', dirlinkLoop sb (D.dinodes dnum).size (D.dinodes dnum) 0 D = .ok (off, dp, D₁) ∧
    writei sb dnum dp (dirent inum (strncpy name DIRSIZ 0)) off sizeofDirent D₁ = .ok (r, dp', D') ∧ r ≠ sizeofDirent

-- The changes of a directory: dirlink(), the removal of an entry that was found, and work on other files.
inductive DirStep (sb : Super) (dnum : Nat) : Disk → Disk → Prop
  | link {D D' : Disk} {name : Chars} {inum : Nat} {r : Int} {dp' : Dinode} :
      inum < 2 ^ 16 → dirlink sb dnum (D.dinodes dnum) name inum D = .ok (r, dp', D') → DirStep sb dnum D D'
  | remove {D D₁ D' : Disk} {name : Chars} {inum off : Nat} {dp dp' : Dinode} :
      dirlookup sb (D.dinodes dnum) name D = .ok (some (inum, off), dp, D₁) →
      unlinkEntry sb dnum dp off D₁ = .ok (dp', D') → DirStep sb dnum D D'
  | other {D D' : Disk} {loose : Nat → Prop} :
      Accounted sb D' loose → D'.dinodes dnum = D.dinodes dnum →
      (∀ k, blockOf D' (D.dinodes dnum) k = blockOf D (D.dinodes dnum) k) →
      byteAt D' (D.dinodes dnum) = byteAt D (D.dinodes dnum) → DirStep sb dnum D D'

def FreshDir (sb : Super) (dnum : Nat) (D : Disk) : Prop :=
  (∃ loose, Accounted sb D loose) ∧ dnum < sb.ninodes ∧ (D.dinodes dnum).type = .T_DIR ∧ (D.dinodes dnum).size = 0

section Steps

section

variable (h : DirOk sb dnum D loose)
include h

theorem DirOk.lookup_eq (name : Chars) :
    lookup sb dnum D name =
      (SlotTable.find (cut name) (table D (D.dinodes dnum))).map fun r => (r.1, sizeofDirent * r.2) := by
  rw [lookup, dirlookup_spec h.holes h.aligned h.type]

theorem DirOk.dirlookup_eq (name : Chars) :
    dirlookup sb (D.dinodes dnum) name D = .ok (lookup sb dnum D name, D.dinodes dnum, D) := by
  rw [h.lookup_eq, dirlookup_spec h.holes h.aligned h.type]

theorem DirOk.dirlinkLoop_eq :
    dirlinkLoop sb (D.dinodes dnum).size (D.dinodes dnum) 0 D =
      .ok (sizeofDirent * SlotTable.room (table D (D.dinodes dnum)), D.dinodes dnum, D) := by
  have hloop : dirlinkLoop sb (D.dinodes dnum).size (D.dinodes dnum) (sizeofDirent * 0) D = _ :=
    dirlinkLoop_spec h.holes h.aligned (D.dinodes dnum).size 0 (Nat.zero_le _)
      (Nat.le_trans (Nat.sub_le ..) (Nat.div_le_self ..))
  simpa using hloop

theorem dirlink_cases (name : Chars) (inum : Nat) :
    (SlotTable.find (cut name) (table D (D.dinodes dnum)) ≠ none ∧
      dirlink sb dnum (D.dinodes dnum) name inum D = .ok (-1, D.dinodes dnum, D)) ∨
    (SlotTable.find (cut name) (table D (D.dinodes dnum)) = none ∧
      ∃ r D', writei sb dnum (D.dinodes dnum) (dirent inum (strncpy name DIRSIZ 0))
          (sizeofDirent * SlotTable.room (table D (D.dinodes dnum))) sizeofDirent D = .ok (r, D'.dinodes dnum, D') ∧
        DirOk sb dnum D' loose ∧
        (WriteFails sb dnum D name inum ∧
            dirlink sb dnum (D.dinodes dnum) name inum D = .ok (-1, D'.dinodes dnum, D') ∧
            table D' (D'.dinodes dnum) = table D (D.dinodes dnum) ∨
          ¬WriteFails sb dnum D name inum ∧
            dirlink sb dnum (D.dinodes dnum) name inum D = .ok (0, D'.dinodes dnum, D') ∧
            table D' (D'.dinodes dnum) = SlotTable.store (table D (D.dinodes dnum))
              (SlotTable.room (table D (D.dinodes dnum))) (decode (dirent inum (strncpy name DIRSIZ 0))))) := by
  rw [dirlink, dirlookup_spec h.holes h.aligned h.type, ok_bind]
  cases hfind : SlotTable.find (cut name) (table D (D.dinodes dnum)) with
  | some r => exact .inl ⟨by simp, rfl⟩
  | none =>
    have hroom : SlotTable.room (table D (D.dinodes dnum)) ≤ (D.dinodes dnum).size / sizeofDirent := by
      rw [← table_length D]
      exact SlotTable.room_le _
    obtain ⟨r, dp', D', hwrite, rfl, hok, hcase⟩ := writei_entry h (dirent_length inum name) hroom
    refine .inr ⟨rfl, r, D', hwrite, hok, ?_⟩
    simp only [Option.map_none, Option.isSome_none, Bool.false_eq_true, if_false, h.dirlinkLoop_eq, ok_bind, hwrite]
    rcases hcase with ⟨rfl, htable⟩ | ⟨hr, -, htable⟩
    · refine .inr ⟨?_, by rw [if_neg (not_not.mpr rfl)]; rfl, htable⟩
      rintro ⟨off, dp, D₁, r, dp', D₂, hloop, hwrite', hne⟩
      rw [h.dirlinkLoop_eq] at hloop
      obtain ⟨rfl, rfl, rfl⟩ : _ ∧ _ ∧ _ := by simpa using hloop
      rw [hwrite] at hwrite'
      obtain ⟨rfl, -⟩ := Prod.mk.inj (Except.ok.inj hwrite')
      exact hne rfl
    · exact .inl ⟨⟨_, _, _, r, _, D', h.dirlinkLoop_eq, hwrite, hr⟩, by rw [if_pos hr]; rfl, htable⟩

theorem unlinkEntry_spec (hfound : lookup sb dnum D name = some (inum, off)) :
    ∃ n D', SlotTable.find (cut name) (table D (D.dinodes dnum)) = some (inum, n) ∧ off = sizeofDirent * n ∧
      writei sb dnum (D.dinodes dnum) (List.replicate sizeofDirent 0) off sizeofDirent D =
        .ok (sizeofDirent, D'.dinodes dnum, D') ∧
      unlinkEntry sb dnum (D.dinodes dnum) off D = .ok (D'.dinodes dnum, D') ∧ DirOk sb dnum D' loose ∧
      table D' (D'.dinodes dnum) = SlotTable.store (table D (D.dinodes dnum)) n none := by
  rw [h.lookup_eq] at hfound
  obtain ⟨⟨v, n⟩, hfind, heq⟩ := Option.map_eq_some_iff.mp hfound
  obtain ⟨rfl, rfl⟩ := Prod.mk.inj heq
  have hlt : n < (D.dinodes dnum).size / sizeofDirent := by
    have := (List.getElem?_eq_some_iff.mp (SlotTable.find_some hfind)).1
    rwa [table_length] at this
  have hzeros : (List.replicate sizeofDirent (0 : Byte)).length = sizeofDirent := length_replicate
  obtain ⟨r, dp', D', hwrite, rfl, hok, hcase⟩ := writei_entry h hzeros (Nat.le_of_lt hlt)
  rw [decode_zero] at hcase
  rcases hcase with ⟨rfl, htable⟩ | ⟨-, hlast, -⟩
  · refine ⟨n, D', hfind, rfl, hwrite, ?_, hok, htable⟩
    rw [unlinkEntry, hwrite, ok_bind]
    simp
  · omega

end

end Steps

section Elements

-- The path element that skipelem() copies.
def element (path : List Byte) : List Byte := (path.dropWhile (· = slash)).takeWhile (· ≠ slash)

theorem takeWhile_of_notMem (h : (0 : Byte) ∉ s) (r : List Byte) :
    (s ++ r).takeWhile (· ≠ 0) = s ++ r.takeWhile (· ≠ 0) :=
  takeWhile_append_of_pos fun b hb => by
    simp only [ne_eq, decide_not, Bool.not_eq_true', decide_eq_false_iff_not]
    rintro rfl
    exact h hb

theorem cut_skipelem (h0 : (0 : Byte) ∉ path)
    (h : skipelem path buf = some (rest, name)) : cut name = (element path).take DIRSIZ := by
  have hnot : (0 : Byte) ∉ element path := fun hmem =>
    h0 ((dropWhile_sublist _).mem ((takeWhile_sublist _).mem hmem))
  rw [skipelem] at h
  split_ifs at h with hnil
  obtain ⟨-, rfl⟩ := Prod.mk.inj (Option.some.inj h)
  change cut (if (element path).length ≥ DIRSIZ then writeAt buf 0 ((element path).take DIRSIZ)
    else writeAt buf 0 (element path ++ [0])) = _
  split_ifs with hlong
  · have hlen : ((element path).take DIRSIZ).length = DIRSIZ := by rw [length_take, Nat.min_eq_left hlong]
    have hread := readAt_writeAt buf ((element path).take DIRSIZ) 0
    rw [hlen] at hread
    have hmem : (0 : Byte) ∉ (element path).take DIRSIZ := fun hmem => hnot (mem_of_mem_take hmem)
    rw [cut, hread]
    simpa using takeWhile_of_notMem hmem []
  · have hlen : (element path ++ [0]).length + (DIRSIZ - ((element path).length + 1)) = DIRSIZ := by
      rw [length_append, length_singleton]
      omega
    rw [cut, ← hlen, readAt_add, readAt_writeAt, append_assoc, takeWhile_of_notMem hnot,
      take_of_length_le (by omega)]
    simp

end Elements

-- A directory as a map from names to inode numbers.
structure IsFiniteMap (sb : Super) (dnum : Nat) (D : Disk) : Prop where
  distinct : ∀ m n, m < (D.dinodes dnum).size / sizeofDirent → n < (D.dinodes dnum).size / sizeofDirent →
    direntInum (entryAt dnum D m) ≠ 0 → direntInum (entryAt dnum D n) ≠ 0 →
    namecmp (direntName (entryAt dnum D m)) (direntName (entryAt dnum D n)) = 0 → m = n
  dirlookup : ∀ name, dirlookup sb (D.dinodes dnum) name D = .ok (lookup sb dnum D name, D.dinodes dnum, D)
  found : ∀ name inum off, lookup sb dnum D name = some (inum, off) →
    ∃ n < (D.dinodes dnum).size / sizeofDirent, off = sizeofDirent * n ∧ inum ≠ 0 ∧
      direntInum (entryAt dnum D n) = inum ∧ namecmp name (direntName (entryAt dnum D n)) = 0
  absent : ∀ name, lookup sb dnum D name = none → ∀ n < (D.dinodes dnum).size / sizeofDirent,
    direntInum (entryAt dnum D n) ≠ 0 → namecmp name (direntName (entryAt dnum D n)) ≠ 0
  link : ∀ name inum, inum < 2 ^ 16 →
    ∃ r D', dirlink sb dnum (D.dinodes dnum) name inum D = .ok (r, D'.dinodes dnum, D') ∧ (r = 0 ∨ r = -1) ∧
      (r = -1 ↔ lookup sb dnum D name ≠ none ∨ WriteFails sb dnum D name inum) ∧
      (r = 0 → lookupInum sb dnum D' name = inum ∧
        ∀ other, namecmp other name ≠ 0 → lookup sb dnum D' other = lookup sb dnum D other) ∧
      (r = -1 → ∀ other, lookup sb dnum D' other = lookup sb dnum D other)
  remove : ∀ name inum off, lookup sb dnum D name = some (inum, off) →
    ∃ D', unlinkEntry sb dnum (D.dinodes dnum) off D = .ok (D'.dinodes dnum, D') ∧ lookup sb dnum D' name = none ∧
      ∀ other, namecmp other name ≠ 0 → lookup sb dnum D' other = lookup sb dnum D other
  elements : ∀ path path' rest rest' buf buf' name name', (0 : Byte) ∉ path → (0 : Byte) ∉ path' →
    skipelem path buf = some (rest, name) → skipelem path' buf' = some (rest', name') →
    (element path).take DIRSIZ = (element path').take DIRSIZ → lookup sb dnum D name = lookup sb dnum D name'

section Map

structure DirInv (sb : Super) (dnum : Nat) (D : Disk) : Prop where
  ok : ∃ loose, DirOk sb dnum D loose
  unique : SlotTable.Unique (table D (D.dinodes dnum))

theorem FreshDir.inv (h : FreshDir sb dnum D) : DirInv sb dnum D := by
  obtain ⟨⟨loose, hacc⟩, hinum, htype, hsize⟩ := h
  refine ⟨⟨loose, hacc, hinum, htype, fun bn hlt => ?_, hsize ▸ Nat.dvd_zero _⟩, ?_⟩
  · rw [hsize] at hlt
    omega
  · intro k v w m n hm
    have hlen := (List.getElem?_eq_some_iff.mp hm).1
    rw [table_length, hsize] at hlen
    simp at hlen

theorem DirInv.step (h : DirInv sb dnum D) (hs : DirStep sb dnum D D') : DirInv sb dnum D' := by
  obtain ⟨⟨loose, hok⟩, hu⟩ := h
  cases hs with
  | link hinum hlink =>
    rcases dirlink_cases hok _ _ with ⟨-, heq⟩ | ⟨hfind, -, D₁, -, hok₁, ⟨-, heq, htable⟩ | ⟨-, heq, htable⟩⟩ <;>
      rw [heq] at hlink <;> obtain ⟨-, -, rfl⟩ : _ ∧ _ ∧ _ := by simpa using hlink
    · exact ⟨⟨loose, hok⟩, hu⟩
    · exact ⟨⟨loose, hok₁⟩, htable ▸ hu⟩
    · refine ⟨⟨loose, hok₁⟩, ?_⟩
      rw [htable, decode_dirent hinum]
      split_ifs
      · exact hu.store_none (SlotTable.room_le _)
      · exact hu.store_some hfind (SlotTable.room_le _)
  | remove hfound hremove =>
    rw [hok.dirlookup_eq] at hfound
    obtain ⟨hlookup, rfl, rfl⟩ : _ ∧ _ ∧ _ := by simpa using hfound
    obtain ⟨n, D₂, hfind, -, -, heq, hok₂, htable⟩ := unlinkEntry_spec hok hlookup
    rw [heq] at hremove
    obtain ⟨-, rfl⟩ := Prod.mk.inj (Except.ok.inj hremove)
    refine ⟨⟨loose, hok₂⟩, ?_⟩
    rw [htable]
    exact hu.store_none (Nat.le_of_lt (List.getElem?_eq_some_iff.mp (SlotTable.find_some hfind)).1)
  | other hacc hdp hblock hbyte =>
    refine ⟨⟨_, hacc, hok.inum, hdp ▸ hok.type, ?_, hdp ▸ hok.aligned⟩, ?_⟩
    · rw [hdp]
      intro bn hlt
      rw [hblock]
      exact hok.holes bn hlt
    · rw [hdp, table_congr rfl fun o => congrFun hbyte o]
      exact hu

theorem entry_decode (h : n < (D.dinodes dnum).size / sizeofDirent) :
    (table D (D.dinodes dnum))[n]? = some (decode (entryAt dnum D n)) := table_getElem? h

theorem decode_of_live (h : direntInum de ≠ 0) :
    decode de = some (cut (direntName de), direntInum de) := if_neg h

theorem namecmp_ne (h : namecmp s t ≠ 0) : cut s ≠ cut t := mt (namecmp_eq_zero s t).mpr h

theorem DirInv.isFiniteMap (h : DirInv sb dnum D) : IsFiniteMap sb dnum D := by
  obtain ⟨⟨loose, hok⟩, hu⟩ := h
  refine ⟨?_, hok.dirlookup_eq, ?_, ?_, ?_, ?_, ?_⟩
  · intro m n hm hn hlive hlive' hcmp
    rw [namecmp_eq_zero] at hcmp
    have hm' := (entry_decode hm).trans (congrArg some (decode_of_live hlive))
    have hn' := (entry_decode hn).trans (congrArg some (decode_of_live hlive'))
    rw [hcmp] at hm'
    exact hu _ _ _ m n hm' hn'
  · intro name inum off hfound
    rw [hok.lookup_eq] at hfound
    obtain ⟨⟨v, n⟩, hfind, heq⟩ := Option.map_eq_some_iff.mp hfound
    obtain ⟨rfl, rfl⟩ := Prod.mk.inj heq
    have hget := SlotTable.find_some hfind
    have hn : n < (D.dinodes dnum).size / sizeofDirent := by
      rw [← table_length D]
      exact (List.getElem?_eq_some_iff.mp hget).1
    rw [entry_decode hn] at hget
    obtain ⟨hinum, hne, hcut⟩ := decode_some (Option.some.inj hget)
    exact ⟨n, hn, rfl, hne, hinum, (namecmp_eq_zero ..).mpr hcut.symm⟩
  · intro name hnone n hn hlive hcmp
    rw [hok.lookup_eq, Option.map_eq_none_iff] at hnone
    refine SlotTable.find_none hnone n (direntInum (entryAt dnum D n)) ?_
    rw [entry_decode hn, decode_of_live hlive, (namecmp_eq_zero ..).mp hcmp]
  · intro name inum hinum
    have hlookup : lookup sb dnum D name ≠ none ↔
        SlotTable.find (cut name) (table D (D.dinodes dnum)) ≠ none := by
      rw [hok.lookup_eq, Ne, Option.map_eq_none_iff]
    rcases dirlink_cases hok name inum with ⟨hfind, heq⟩ |
        ⟨hfind, -, D', -, hok', ⟨hfails, heq, htable⟩ | ⟨hnot, heq, htable⟩⟩
    · exact ⟨-1, D, heq, .inr rfl, iff_of_true rfl (.inl (hlookup.mpr hfind)), by simp, fun _ _ => rfl⟩
    · refine ⟨-1, D', heq, .inr rfl, iff_of_true rfl (.inr hfails), by simp, fun _ other => ?_⟩
      rw [hok'.lookup_eq, hok.lookup_eq, htable]
    · rw [decode_dirent hinum] at htable
      have hempty := SlotTable.room_empty (t := table D (D.dinodes dnum))
      refine ⟨0, D', heq, .inl rfl, iff_of_false (by simp) ?_, fun _ => ⟨?_, fun other hother => ?_⟩, by simp⟩
      · rintro (hfound | hfails)
        · exact hlookup.mp hfound hfind
        · exact hnot hfails
      · rw [lookupInum, hok'.lookup_eq, htable]
        split_ifs with hzero
        · rw [SlotTable.find_store_none hu (SlotTable.room_le _), hfind, hzero]
          rfl
        · rw [SlotTable.find_store_some hu hfind (SlotTable.room_le _) hempty, if_pos rfl]
          rfl
      · rw [hok'.lookup_eq, hok.lookup_eq, htable]
        split_ifs with hzero
        · rw [SlotTable.find_store_none hu (SlotTable.room_le _), if_neg]
          intro hslot
          obtain ⟨⟨v, n⟩, hr, rfl⟩ := Option.map_eq_some_iff.mp hslot
          exact hempty _ _ (SlotTable.find_some hr)
        · rw [SlotTable.find_store_some hu hfind (SlotTable.room_le _) hempty, if_neg (namecmp_ne hother)]
  · intro name inum off hfound
    obtain ⟨n, D', hfind, rfl, -, heq, hok', htable⟩ := unlinkEntry_spec hok hfound
    have hget := SlotTable.find_some hfind
    have hn := Nat.le_of_lt (List.getElem?_eq_some_iff.mp hget).1
    refine ⟨D', heq, ?_, fun other hother => ?_⟩
    · rw [hok'.lookup_eq, htable, SlotTable.find_store_none hu hn, hfind]
      simp
    · rw [hok'.lookup_eq, hok.lookup_eq, htable, SlotTable.find_store_none hu hn, if_neg]
      intro hslot
      obtain ⟨⟨v, m⟩, hr, rfl⟩ := Option.map_eq_some_iff.mp hslot
      have hother' := SlotTable.find_some hr
      rw [hget] at hother'
      simp only [Option.some.injEq, Prod.mk.injEq] at hother'
      exact namecmp_ne hother hother'.1.symm
  · intro path path' rest rest' buf buf' name name' h0 h0' hskip hskip' hsame
    rw [hok.lookup_eq, hok.lookup_eq, cut_skipelem h0 hskip, cut_skipelem h0' hskip', hsame]

end Map

-- A directory that began empty is a finite map after any dirlink() and removals of entries.
theorem directory_is_finite_map (sb : Super) (dnum : Nat) (D : Disk)
    (hrun : Reach (FreshDir sb dnum) (DirStep sb dnum) D) : IsFiniteMap sb dnum D := by
  have hinv : DirInv sb dnum D :=
    hrun.invariant (I := DirInv sb dnum) (fun _ hfresh => hfresh.inv) fun _ _ _ hinv hstep => hinv.step hstep
  exact hinv.isFiniteMap

section Sample

theorem directory_is_finite_map_once :
    ∃ D, dirlink sampleSuper 1 (sampleDir.dinodes 1) (chars [0x61]) 3 sampleDir = .ok (0, D.dinodes 1, D) ∧
      IsFiniteMap sampleSuper 1 D ∧ lookupInum sampleSuper 1 D (chars [0x61]) = 3 := by
  have hfresh : FreshDir sampleSuper 1 sampleDir :=
    ⟨⟨_, accounted_empty (fun _ => rfl) fun _ => rfl⟩, by decide, rfl, rfl⟩
  have hstart : Reach (FreshDir sampleSuper 1) (DirStep sampleSuper 1) sampleDir := .start hfresh
  obtain ⟨r, D, hlink, -, -, hfound, -⟩ :=
    (directory_is_finite_map sampleSuper 1 sampleDir hstart).link (chars [0x61]) 3 (by decide)
  have hzero : (dirlink sampleSuper 1 (sampleDir.dinodes 1) (chars [0x61]) 3 sampleDir).toOption.map Prod.fst = some 0 := by
    decide +kernel
  rw [hlink] at hzero
  obtain rfl : r = 0 := Option.some.inj hzero
  exact ⟨D, hlink, directory_is_finite_map sampleSuper 1 D (hstart.step (.link (by decide) hlink)), (hfound rfl).1⟩

end Sample

end Xv6.Fs
