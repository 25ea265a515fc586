import Xv6.Files.Holes

namespace Xv6.Fs

open Lib

variable {sb : Super} {D D' : Disk} {inum dnum bn room off n : Nat} {ip dp : Dinode} {name : Chars}

section Outside

theorem bmapOutside_of_ne_zero (h : blockOf D ip bn ≠ 0) : bmapOutside sb ip bn D = .ok (blockOf D ip bn, ip, D) := by
  rw [bmapOutside]
  rcases blockOf_cases h with ⟨hdirect, haddr⟩ | ⟨hdirect, hrange, hind, hentry⟩
  · rw [if_pos hdirect, haddr, if_neg h]
  · rw [if_neg hdirect, if_pos hrange, if_neg hind, bmapEntryOutside, hentry, if_neg h]
    rfl

theorem readiLoopOutside_eq (hholes : NoHoles D ip) : ∀ turns room off n tot out, off + (n - tot) ≤ ip.size →
    readiLoopOutside sb turns ip room off n tot out D = (readiLoop sb turns ip room off n tot out D).mapError .fs := by
  intro turns
  induction turns with
  | zero => exact fun _ _ _ _ _ _ => rfl
  | succ turns ih =>
    intro room off n tot out hsize
    rw [readiLoopOutside, readiLoop]
    by_cases hlt : tot < n
    · have hne : blockOf D ip (off / BSIZE) ≠ 0 := hholes _ (by rw [BSIZE_eq]; omega)
      rw [if_pos hlt, if_pos hlt, bmap_of_ne_zero hne, bmapOutside_of_ne_zero hne, ok_bind, ok_bind]
      simp only
      rw [if_neg hne, if_neg hne]
      split_ifs
      · rfl
      · exact ih _ _ _ _ _ (by omega)
    · rw [if_neg hlt, if_neg hlt]
      rfl

theorem readiOutside_eq (hholes : NoHoles D ip) (hn : n < 2 ^ 32) :
    readiOutside sb ip room off n D = (readi sb ip room off n D).mapError .fs := by
  have hmax := hholes.size_le
  rw [MAXFILE_eq, BSIZE_eq] at hmax
  rw [readiOutside, readi]
  by_cases hout : off > ip.size ∨ wrapU32 (off + n) < off
  · rw [if_pos hout, if_pos hout]
    rfl
  · rw [if_neg hout, if_neg hout]
    have hwrap : wrapU32 (off + n) = off + n := by
      rw [wrapU32] at hout ⊢
      omega
    refine readiLoopOutside_eq hholes _ room off _ 0 [] ?_
    rw [hwrap]
    split_ifs <;> omega

end Outside

-- The operations on files and directories. Only dirlink() and unlink() write to a directory.
inductive FileStep (sb : Super) (D : Disk) : Disk → Prop
  | writei {inum : Nat} {src : List Byte} {off n : Nat} {r : Int} {ip : Dinode} {D' : Disk} (hlive : D.live sb inum)
      (htype : (D.dinodes inum).type ≠ .T_DIR) (hn : n < 2 ^ 32)
      (h : writei sb inum (D.dinodes inum) src off n D = .ok (r, ip, D')) : FileStep sb D D'
  | itrunc {inum : Nat} {ip : Dinode} {D' : Disk} (hlive : D.live sb inum)
      (h : itrunc inum (D.dinodes inum) D = .ok (ip, D')) : FileStep sb D D'
  | ifree {inum : Nat} {D' : Disk} (hlive : D.live sb inum) (h : ifree inum D = .ok D') : FileStep sb D D'
  | dirlink {dnum inum : Nat} {name : Chars} {r : Int} {dp : Dinode} {D' : Disk} (hlive : D.live sb dnum)
      (hdir : (D.dinodes dnum).type = .T_DIR) (hinum : inum < sb.ninodes)
      (h : dirlink sb dnum (D.dinodes dnum) name inum D = .ok (r, dp, D')) : FileStep sb D D'
  | create {dnum : Nat} {name : Chars} {type : FileType} {major minor : Int} {r : Option Nat} {D' : Disk}
      (hlive : D.live sb dnum) (hdir : (D.dinodes dnum).type = .T_DIR) (htype : type ≠ .free)
      (h : create sb dnum name type major minor D = .ok (r, D')) : FileStep sb D D'
  | unlink {dnum : Nat} {name : Chars} {last : Bool} {r : Option Int} {D' : Disk} (hlive : D.live sb dnum)
      (hdir : (D.dinodes dnum).type = .T_DIR) (h : unlink sb dnum name last D = .ok (r, D')) : FileStep sb D D'

theorem Sound.step (h : Sound sb D) (hs : FileStep sb D D') : Sound sb D' := by
  cases hs with
  | @writei inum src off n r ip _ hlive htype hn heq =>
    obtain ⟨r', D₁, heq', hsound⟩ := h.writei hlive htype src off hn
    obtain ⟨-, -, rfl⟩ : _ ∧ _ ∧ _ := by simpa using heq'.symm.trans heq
    exact hsound
  | itrunc hlive heq =>
    obtain ⟨D₁, heq', hsound, -⟩ := h.itrunc hlive
    obtain ⟨-, rfl⟩ : _ ∧ _ := by simpa using heq'.symm.trans heq
    exact hsound
  | ifree hlive heq =>
    obtain ⟨D₁, heq', hsound⟩ := h.ifree hlive
    obtain rfl : _ = _ := by simpa using heq'.symm.trans heq
    exact hsound
  | @dirlink dnum inum name r dp _ hlive hdir hinum heq =>
    obtain ⟨r', D₁, heq', hsound, -⟩ := h.dirlink hlive hdir name hinum
    obtain ⟨-, -, rfl⟩ : _ ∧ _ ∧ _ := by simpa using heq'.symm.trans heq
    exact hsound
  | @create dnum name type major minor r _ hlive hdir htype heq =>
    rcases h.create hlive hdir name htype major minor with herr | ⟨r', D₁, heq', hsound⟩
    · rw [herr] at heq
      simp at heq
    · obtain ⟨-, rfl⟩ : _ ∧ _ := by simpa using heq'.symm.trans heq
      exact hsound
  | @unlink dnum name last r _ hlive hdir heq =>
    rcases h.unlink hlive hdir name last with ⟨e, herr, -⟩ | ⟨r', D₁, heq', hsound⟩
    · rw [herr] at heq
      simp at heq
    · obtain ⟨-, rfl⟩ : _ ∧ _ := by simpa using heq'.symm.trans heq
      exact hsound

structure Readable (sb : Super) (D : Disk) (ip : Dinode) : Prop where
  blocks : ∀ bn, bn < (ip.size + BSIZE - 1) / BSIZE → blockOf D ip bn ≠ 0
  read : ∀ room off n, n < 2 ^ 32 → ∃ r out, readi sb ip room off n D = .ok (r, out, ip, D) ∧
    readiOutside sb ip room off n D = .ok (r, out, ip, D)

-- The calls on a directory end, and none of them with the panic of a read or of a write.
structure Searchable (sb : Super) (D : Disk) (dnum : Nat) : Prop where
  aligned : sizeofDirent ∣ (D.dinodes dnum).size
  lookup : ∀ name, ∃ found, dirlookup sb (D.dinodes dnum) name D = .ok (found, D.dinodes dnum, D)
  link : ∀ name inum, inum < sb.ninodes → ∃ r D', dirlink sb dnum (D.dinodes dnum) name inum D = .ok (r, D'.dinodes dnum, D')
  empty : ∃ e, isdirempty sb (D.dinodes dnum) D = .ok (e, D.dinodes dnum, D)
  create : ∀ name type major minor e, type ≠ FileType.free →
    create sb dnum name type major minor D = .error e → e = .ilockType
  unlink : ∀ name last e, unlink sb dnum name last D = .error e → e = .ilockType ∨ e = .unlinkNlink

theorem Sound.readable (h : Sound sb D) (hlive : D.live sb inum) : Readable sb D (D.dinodes inum) := by
  have hholes := h.holes inum hlive
  refine ⟨fun bn hlt => hholes bn ?_, fun room off n hn => ?_⟩
  · rw [BSIZE_eq] at *
    omega
  · obtain ⟨r, out, heq⟩ := readi_keeps hholes hn
    exact ⟨r, out, heq, by rw [readiOutside_eq hholes hn, heq]; rfl⟩

theorem Sound.searchable (h : Sound sb D) (hlive : D.live sb dnum) (hdir : (D.dinodes dnum).type = .T_DIR) :
    Searchable sb D dnum where
  aligned := (h.dirs dnum hlive hdir).aligned
  lookup := fun name => ⟨_, h.lookup hlive hdir name⟩
  link := by
    intro name inum hinum
    obtain ⟨r, D', heq, -⟩ := h.dirlink hlive hdir name hinum
    exact ⟨r, D', heq⟩
  empty := h.isdirempty hlive hdir
  create := by
    intro name type major minor e htype heq
    rcases h.create hlive hdir name htype major minor with herr | ⟨r, D', hok, -⟩
    · rw [herr] at heq
      exact (Except.error.inj heq).symm
    · rw [hok] at heq
      simp at heq
  unlink := by
    intro name last e heq
    rcases h.unlink hlive hdir name last with ⟨e', herr, hcase⟩ | ⟨r, D', hok, -⟩
    · rw [herr] at heq
      exact Except.error.inj heq ▸ hcase
    · rw [hok] at heq
      simp at heq

-- From an image without holes in which the bitmap marks the blocks of the files, each of them in one place.
theorem files_have_no_holes (h : Reach (Sound sb) (FileStep sb) D) :
    (∀ i, D.live sb i → Readable sb D (D.dinodes i)) ∧
    ∀ d, D.live sb d → (D.dinodes d).type = .T_DIR → Searchable sb D d := by
  have hsound : Sound sb D := h.invariant (fun _ hs => hs) fun _ _ _ => Sound.step
  exact ⟨fun i hlive => hsound.readable hlive, fun d hlive hdir => hsound.searchable hlive hdir⟩

section Sample

theorem sound_sampleDir : Sound sampleSuper sampleDir where
  accounted := ⟨_, accounted_empty (fun _ => rfl) fun _ => rfl⟩
  holes := fun _ _ => noHoles_of_size_zero rfl
  dirs := fun _ _ _ => wellDir_of_size_zero rfl

theorem files_have_no_holes_created :
    ∃ D, create sampleSuper 1 (chars [0x61]) .T_FILE 0 0 sampleDir = .ok (some 2, D) ∧ D.live sampleSuper 1 ∧
      Readable sampleSuper D (D.dinodes 1) ∧ Searchable sampleSuper D 1 := by
  have hstart : Reach (Sound sampleSuper) (FileStep sampleSuper) sampleDir := .start sound_sampleDir
  have hnew : (create sampleSuper 1 (chars [0x61]) .T_FILE 0 0 sampleDir).toOption.map
      (fun r => (r.1, (r.2.dinodes 1).type)) = some (some 2, .T_DIR) := by
    decide +kernel
  obtain ⟨⟨r, D⟩, hcreate, hpair⟩ := toOption_map_eq_some.mp hnew
  obtain ⟨rfl, htype⟩ := Prod.mk.inj hpair
  have hlive : D.live sampleSuper 1 := ⟨by decide, by rw [htype]; simp⟩
  have hstep : FileStep sampleSuper sampleDir D := .create ⟨by decide, by decide⟩ rfl (by decide) hcreate
  obtain ⟨hread, hsearch⟩ := files_have_no_holes (hstart.step hstep)
  exact ⟨D, hcreate, hlive, hread 1 hlive, hsearch 1 hlive htype⟩

-- A file whose indirect block the bitmap has as free. A write to another file takes that block.
def sharedDisk : Disk where
  bitmap := fun b => decide (b < 40)
  dinodes := fun i =>
    if i = 1 then { Dinode.zero with type := .T_FILE, size := 13 * BSIZE, addrs := fun k => if k = NDIRECT then 40 else 20 + k }
    else { Dinode.zero with type := if i = 2 then .T_FILE else .free }
  data := fun _ => setUint zeroBlock 0 32

def sharedSuper : Super where
  size := 64
  nblocks := 54
  ninodes := 4
  size_lt := by decide
  nblocks_lt := by decide

theorem write_makes_hole :
    (∀ i, sharedDisk.live sharedSuper i → ∀ bn, bn < ((sharedDisk.dinodes i).size + BSIZE - 1) / BSIZE →
      blockOf sharedDisk (sharedDisk.dinodes i) bn ≠ 0) ∧
    ∃ ip D, writei sharedSuper 2 (sharedDisk.dinodes 2) [0] 0 1 sharedDisk = .ok (1, ip, D) ∧
      12 < ((D.dinodes 1).size + BSIZE - 1) / BSIZE ∧ blockOf D (D.dinodes 1) 12 = 0 := by
  constructor
  · intro i hlive
    have hall : ∀ i < 4, ∀ bn < ((sharedDisk.dinodes i).size + BSIZE - 1) / BSIZE,
        blockOf sharedDisk (sharedDisk.dinodes i) bn ≠ 0 := by
      decide +kernel
    exact hall i hlive.1
  · have hwrite : (writei sharedSuper 2 (sharedDisk.dinodes 2) [0] 0 1 sharedDisk).toOption.map
        (fun r => (r.1, (r.2.2.dinodes 1).size, blockOf r.2.2 (r.2.2.dinodes 1) 12)) = some (1, 13 * BSIZE, 0) := by
      decide +kernel
    obtain ⟨⟨r, ip, D⟩, heq, htriple⟩ := toOption_map_eq_some.mp hwrite
    obtain ⟨rfl, hpair⟩ := Prod.mk.inj htriple
    obtain ⟨hsize, hblock⟩ := Prod.mk.inj hpair
    exact ⟨ip, D, heq, by rw [hsize]; decide, hblock⟩

end Sample

end Xv6.Fs
