import Xv6.Disk.Logged

namespace Xv6.Fs

open Lib

variable {sb : Super} {D : Disk} {inum : Nat}

-- The bytes of the blocks of a file, cut at its size.
def content (D : Disk) (ip : Dinode) : List Byte := readAt (byteAt D ip) 0 ip.size

-- No block is in two places, the bitmap marks those in use, and no file has a hole.
structure WellFormed (sb : Super) (D : Disk) : Prop where
  accounted : ∃ loose, Accounted sb D loose
  holes : ∀ i, D.live sb i → NoHoles D (D.dinodes i)

section Contents

variable {D' : Disk} {ip ip' : Dinode} {off off' n room : Nat} {src : List Byte}

theorem content_slice (D : Disk) (ip : Dinode) (off n : Nat) :
    ((content D ip).drop off).take n = readAt (byteAt D ip) off (min n (ip.size - off)) := by
  rw [content, readAt_drop, readAt_take, Nat.zero_add]

theorem content_replaced (hle : off ≤ off') (hoff : off ≤ ip.size) (hsrc : off' - off ≤ src.length)
    (hsize : ip'.size = max ip.size off')
    (h : ∀ o, byteAt D' ip' o = if off ≤ o ∧ o < off' then src.getD (o - off) 0 else byteAt D ip o) :
    content D' ip' = (content D ip).take off ++ src.take (off' - off) ++ (content D ip).drop off' := by
  have hlen : ip'.size = off + ((off' - off) + (ip.size - off')) := by omega
  have hbefore : readAt (byteAt D' ip') 0 off = (content D ip).take off := by
    rw [content, readAt_take, Nat.min_eq_left hoff]
    refine readAt_congr fun i hi => ?_
    rw [h, if_neg (by omega)]
  have hmiddle : readAt (byteAt D' ip') off (off' - off) = src.take (off' - off) := by
    have htake : (src.take (off' - off)).length = off' - off := by rw [List.length_take, Nat.min_eq_left hsrc]
    have hread := readAt_eq (a := off) (src.take (off' - off)) 0 (byteAt D' ip') fun i hi => ?_
    · rwa [htake] at hread
    · rw [h, if_pos (by omega), Nat.add_sub_cancel_left]
      simp only [List.getD_eq_getElem?_getD]
      rw [List.getElem?_take_of_lt (by omega)]
  have hafter : readAt (byteAt D' ip') off' (ip.size - off') = (content D ip).drop off' := by
    rw [content, readAt_drop, Nat.zero_add]
    refine readAt_congr fun i hi => ?_
    rw [h, if_neg (by omega)]
  rw [content, hlen, readAt_add, readAt_add, Nat.zero_add, hbefore, hmiddle, Nat.add_sub_cancel' hle, hafter,
    List.append_assoc]

theorem readi_clipped (hholes : NoHoles D ip) (hwrap : off + n < 2 ^ 32) (hroom : min n (ip.size - off) ≤ room) :
    readi sb ip room off n D =
      .ok ((min n (ip.size - off) : Nat), readAt (byteAt D ip) off (min n (ip.size - off)), ip, D) := by
  have hsame : wrapU32 (off + n) = off + n := Nat.mod_eq_of_lt hwrap
  by_cases hout : off > ip.size
  · rw [readi, if_pos (.inl hout), show ip.size - off = 0 by omega, Nat.min_zero]
    rfl
  · have hspec : readi sb ip room off (min n (ip.size - off)) D = _ := readi_spec hholes (by omega) hroom
    have hle : wrapU32 (off + min n (ip.size - off)) = off + min n (ip.size - off) := Nat.mod_eq_of_lt (by omega)
    rw [readi, hle, if_neg (by omega)] at hspec
    rw [readi, hsame, if_neg (by omega)]
    have hclip : (if off + n > ip.size then ip.size - off else n) = min n (ip.size - off) := by
      split_ifs <;> omega
    have hclip' : (if off + min n (ip.size - off) > ip.size then ip.size - off else min n (ip.size - off)) =
        min n (ip.size - off) := by
      split_ifs <;> omega
    simp only [hclip'] at hspec
    simp only [hclip]
    exact hspec

end Contents

structure Replaces (sb : Super) (inum off n : Nat) (src : List Byte) (D : Disk) (tot : Nat) (D' : Disk) : Prop where
  le : tot ≤ n
  all : tot < n → ∀ b < sb.size, D'.bitmap b = true
  content : content D' (D'.dinodes inum) =
    (content D (D.dinodes inum)).take off ++ src.take tot ++ (content D (D.dinodes inum)).drop (off + tot)
  size : (D'.dinodes inum).size = max (D.dinodes inum).size (off + tot)
  others : ∀ i, i ≠ inum → D.live sb i → D'.dinodes i = D.dinodes i ∧
    Fs.content D' (D'.dinodes i) = Fs.content D (D.dinodes i)
  wellFormed : WellFormed sb D'

theorem WellFormed.writei (h : WellFormed sb D) (hlive : D.live sb inum) {src : List Byte} {off n : Nat}
    (hoff : off ≤ (D.dinodes inum).size) (hmax : off + n ≤ MAXFILE * BSIZE) (hsrc : n ≤ src.length) :
    ∃ (tot : Nat) (D' : Disk), writei sb inum (D.dinodes inum) src off n D = .ok (tot, D'.dinodes inum, D') ∧
      Replaces sb inum off n src D tot D' := by
  obtain ⟨loose, hacc⟩ := h.accounted
  rw [← iupdate_self D inum] at hacc
  obtain ⟨off', ip', D', heq, hw⟩ := writei_spec hacc hlive.1 hlive.2 src hoff hmax
  have hle := hw.le
  have hbound := hw.bound
  have hholes := hw.noHoles (h.holes inum hlive) hoff
  generalize hip : { ip' with size := max (D.dinodes inum).size off' } = ip at heq hholes
  have haddrs : ip.addrs = ip'.addrs := by rw [← hip]
  have hblock : ∀ k, blockOf (iupdate inum ip D') ip k = blockOf D' ip' k := fun k => by
    simp only [blockOf, haddrs]
    rfl
  have hbytes : ∀ o, byteAt (iupdate inum ip D') ip o = byteAt D' ip' o := fun o => by
    rw [byteAt, byteAt, hblock]
    rfl
  have hsize : ip.size = max (D.dinodes inum).size off' := by rw [← hip]
  refine ⟨off' - off, iupdate inum ip D', by rw [iupdate_dinodes_self]; exact heq, ?_⟩
  have hother : ∀ i, i ≠ inum → (iupdate inum ip D').dinodes i = D.dinodes i := fun i hi => by
    rw [iupdate_dinodes_ne hi, hw.dinodes]
  refine ⟨by omega, fun hlt => hw.full hsrc (by omega), ?_, ?_, fun i hi hl => ⟨hother i hi, ?_⟩, ?_, fun i hl => ?_⟩
  · rw [iupdate_dinodes_self, Nat.add_sub_cancel' hle]
    refine content_replaced hle hoff (by omega) hsize fun o => ?_
    rw [hbytes, hw.bytes hsrc]
  · rw [iupdate_dinodes_self, Nat.add_sub_cancel' hle]
    exact hsize
  · rw [hother i hi, content, content]
    exact congrArg (readAt · 0 _) (hw.others i hi hl).2
  · exact ⟨loose, hw.accounted.congr_fields haddrs (by rw [← hip])⟩
  · by_cases hi : i = inum
    · subst hi
      rw [iupdate_dinodes_self]
      intro bn hlt
      exact hholes bn hlt
    · rw [Disk.live, hother i hi] at hl
      rw [hother i hi]
      intro bn hlt
      have hsame := (hw.others i hi hl).1 bn
      exact fun hzero => h.holes i hl bn hlt (hsame.symm.trans hzero)

theorem WellFormed.readi (h : WellFormed sb D) (hlive : D.live sb inum) {room off n : Nat} (hoff : off < 2 ^ 32)
    (hn : n < 2 ^ 32) (hroom : (((content D (D.dinodes inum)).drop off).take n).length ≤ room) :
    readi sb (D.dinodes inum) room off n D =
      (let out := if off + n < 2 ^ 32 then ((content D (D.dinodes inum)).drop off).take n else []
      .ok (out.length, out, D.dinodes inum, D)) := by
  have hholes := h.holes inum hlive
  rw [content_slice] at hroom ⊢
  by_cases hwrap : off + n < 2 ^ 32
  · rw [if_pos hwrap]
    simp only [readAt_length] at hroom ⊢
    exact readi_clipped hholes hwrap hroom
  · rw [if_neg hwrap, Fs.readi, if_pos]
    · rfl
    · rw [wrapU32]
      omega

theorem file_contents (h : WellFormed sb D) (hlive : D.live sb inum) :
    (∀ src off n, off ≤ (D.dinodes inum).size → off + n ≤ MAXFILE * BSIZE → n ≤ src.length →
      ∃ (tot : Nat) (D' : Disk), writei sb inum (D.dinodes inum) src off n D = .ok (tot, D'.dinodes inum, D') ∧
        Replaces sb inum off n src D tot D') ∧
    ∀ room off n, off < 2 ^ 32 → n < 2 ^ 32 → (((content D (D.dinodes inum)).drop off).take n).length ≤ room →
      readi sb (D.dinodes inum) room off n D =
        (let out := if off + n < 2 ^ 32 then ((content D (D.dinodes inum)).drop off).take n else []
        .ok (out.length, out, D.dinodes inum, D)) :=
  ⟨fun _ _ _ hoff hmax hsrc => h.writei hlive hoff hmax hsrc, fun _ _ _ hoff hn hroom => h.readi hlive hoff hn hroom⟩

section Sample

theorem accounted_empty (hslot : ∀ i, (D.dinodes i).addrs = fun _ => 0)
    (hbitmap : ∀ b, D.bitmap b = decide (b < sb.nmeta)) : Accounted sb D fun _ => False := by
  have hzero : ∀ s, D.slot sb s = 0 := by
    rintro ⟨i, p⟩
    rw [Disk.slot]
    split_ifs
    · cases p <;> simp [place, blockOf, hslot i]
    · rfl
  have hpos : 0 < sb.nmeta := by
    have := sb.nblocks_lt
    rw [Super.nmeta]
    omega
  refine ⟨hpos, fun s hs => absurd (hzero s) hs, fun s _ hs => absurd (hzero s) hs, ?_, fun _ h => h.elim⟩
  intro c _
  rw [hbitmap, decide_eq_true_eq]
  constructor
  · exact .inl
  · rintro (hlt | ⟨s, hs⟩ | hf)
    · exact hlt
    · rw [← hs, hzero]
      exact hpos
    · exact hf.elim

def sampleSuper : Super where
  size := 20
  nblocks := 10
  ninodes := 4
  size_lt := by decide
  nblocks_lt := by decide

def sampleDir : Disk where
  bitmap := fun b => decide (b < 10)
  dinodes := fun i => { Dinode.zero with type := if i = 1 then .T_DIR else .free }
  data := fun _ => zeroBlock

theorem file_contents_three :
    ∃ D, writei sampleSuper 1 (sampleDir.dinodes 1) [1, 2, 3] 0 3 sampleDir = .ok (3, D.dinodes 1, D) ∧
      content D (D.dinodes 1) = [1, 2, 3] := by
  have hwf : WellFormed sampleSuper sampleDir :=
    ⟨⟨_, accounted_empty (fun _ => rfl) fun _ => rfl⟩, fun i _ bn (hlt : bn * BSIZE < 0) => absurd hlt (Nat.not_lt_zero _)⟩
  have hlive : sampleDir.live sampleSuper 1 := ⟨by decide, by decide⟩
  obtain ⟨tot, D, heq, hrep⟩ :=
    (file_contents hwf hlive).1 [1, 2, 3] 0 3 (Nat.zero_le _) (by decide) (by decide)
  have hall : (writei sampleSuper 1 (sampleDir.dinodes 1) [1, 2, 3] 0 3 sampleDir).toOption.map Prod.fst = some 3 := by
    decide +kernel
  rw [heq] at hall
  obtain rfl : tot = 3 := Int.ofNat_inj.mp (Option.some.inj hall)
  exact ⟨D, heq, hrep.content⟩

end Sample

end Xv6.Fs
