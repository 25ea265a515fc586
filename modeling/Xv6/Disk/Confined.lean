import Xv6.Disk.Theorems

namespace Xv6.Fs

open Lib Function

variable {sb : Super} {D : Disk} {C C' : Buffers} {ip ip' : Dinode} {inum : Nat} {loose : Nat → Prop}

def Disk.Same (D D' : Disk) : Cached → Prop
  | .bitmap n => ∀ b, b / BPB = n → D'.bitmap b = D.bitmap b
  | .inodes n => ∀ i, i / IPB = n → D'.dinodes i = D.dinodes i
  | .data b => ∀ k < BSIZE, D'.data b k = D.data b k

section Confined

variable {src : List Byte} {off n off' : Nat}

end Confined

section Sample

def sampleFile : Disk where
  bitmap := fun b => decide (b < 11)
  dinodes := fun i =>
    if i = 1 then { Dinode.zero with type := .T_FILE, size := 8, addrs := fun k => if k = 0 then 10 else 0 } else .zero
  data := fun _ => zeroBlock

theorem slot_sampleFile (s : Nat × Place) : sampleFile.slot sampleSuper s = if s = (1, .block 0) then 10 else 0 := by
  obtain ⟨i, p⟩ := s
  by_cases hi : i = 1
  · subst hi
    have hlive : sampleFile.live sampleSuper 1 := ⟨by decide, by decide⟩
    rw [Disk.slot, if_pos hlive]
    cases p with
    | indirect => rfl
    | block k =>
      by_cases hk : k = 0
      · subst hk
        rfl
      · have hind : (sampleFile.dinodes 1).addrs NDIRECT = 0 := rfl
        have haddr : (sampleFile.dinodes 1).addrs k = 0 := if_neg hk
        simp [place, blockOf, hind, haddr, hk]
  · have hfree : ¬sampleFile.live sampleSuper i := by
      rintro ⟨-, htype⟩
      exact htype (by simp [sampleFile, hi, Dinode.zero])
    rw [Disk.slot, if_neg hfree, if_neg (by simp [hi])]

theorem wellFormed_sampleFile : WellFormed sampleSuper sampleFile := by
  refine ⟨⟨fun _ => False, by decide, fun s hs => ?_, fun s s' hs heq => ?_, fun c _ => ?_, fun _ h => h.elim⟩,
    fun i hlive bn hlt => ?_⟩
  · rw [slot_sampleFile] at hs ⊢
    split_ifs at hs ⊢
    · decide
    · exact absurd rfl hs
  · simp only [slot_sampleFile] at hs heq
    have hs : s = (1, .block 0) := by
      by_contra hne
      simp [hne] at hs
    have hs' : s' = (1, .block 0) := by
      by_contra hne
      simp [hne, hs] at heq
    rw [hs, hs']
  · have hbit : sampleFile.bitmap c = true ↔ c < 10 ∨ c = 10 := by simp [sampleFile]; omega
    have hmeta : sampleSuper.nmeta = 10 := rfl
    rw [hbit, hmeta, or_false]
    constructor
    · rintro (hlt | rfl)
      · exact .inl hlt
      · exact .inr ⟨(1, .block 0), by rw [slot_sampleFile, if_pos rfl]⟩
    · rintro (hlt | ⟨s, hs⟩)
      · exact .inl hlt
      · rw [slot_sampleFile] at hs
        split_ifs at hs <;> omega
  · have hi : i = 1 := by
      by_contra hne
      exact hlive.2 (by simp [sampleFile, hne, Dinode.zero])
    subst hi
    have hsize : (sampleFile.dinodes 1).size = 8 := rfl
    obtain rfl : bn = 0 := by
      rw [hsize, BSIZE_eq] at hlt
      omega
    decide

end Sample

end Xv6.Fs
