import Xv6.Log

namespace Xv6.Log

open Function

variable {g : Geometry} {disk base : Disk} {lh : List BlockNo} {b : BlockNo}

namespace Geometry

theorem toNat_headBlock (g : Geometry) : g.headBlock.toNat = g.logstart := by
  have := g.pos
  have := g.fits
  simp only [headBlock, BitVec.toNat_ofNat]
  omega

theorem toNat_logBlock (h : tail + 1 < g.nlog) :
    (g.logBlock tail).toNat = g.logstart + tail + 1 := by
  have := g.fits
  simp only [logBlock, BitVec.toNat_ofNat]
  omega

theorem inLog_headBlock (g : Geometry) : g.InLog g.headBlock := by
  have := g.pos
  have := g.toNat_headBlock
  unfold InLog
  omega

theorem inLog_logBlock (h : tail + 1 < g.nlog) : g.InLog (g.logBlock tail) := by
  have := toNat_logBlock h
  unfold InLog
  omega

theorem Home.ne_of_inLog (hb : g.Home b) (hc : g.InLog c) : b ≠ c := by
  intro h
  exact hb (h ▸ hc)

theorem logBlock_ne_headBlock (h : tail + 1 < g.nlog) :
    g.logBlock tail ≠ g.headBlock := by
  intro heq
  have h1 := toNat_logBlock h
  have h2 := g.toNat_headBlock
  rw [heq] at h1
  omega

theorem logBlock_inj (hi : i + 1 < g.nlog) (hj : j + 1 < g.nlog) (h : g.logBlock i = g.logBlock j) : i = j := by
  have h1 := toNat_logBlock hi
  have h2 := toNat_logBlock hj
  rw [h] at h1
  omega

end Geometry

def Fits (g : Geometry) (lh : List BlockNo) : Prop := lh.length ≤ LOGSIZE ∧ lh.length < g.nlog

theorem fits_nil (g : Geometry) : Fits g [] := ⟨Nat.zero_le _, g.pos⟩

theorem Fits.index_lt (h : Fits g lh) (hi : lh[i]? = some b) : i + 1 < g.nlog := by
  obtain ⟨hlt, -⟩ := List.getElem?_eq_some_iff.mp hi
  have := h.2
  omega

theorem decodeHead_encodeHead (h : Fits g lh) (old : Block) :
    decodeHead (encodeHead lh old) = lh := by
  have hlen : lh.length ≤ 30 := h.1
  have hn : ((encodeHead lh old) 0).toInt.toNat = lh.length := by
    simp only [encodeHead, if_true, BitVec.toInt_eq_toNat_bmod, BitVec.toNat_ofNat]
    rw [Nat.mod_eq_of_lt (by omega), Int.bmod_eq_of_le (by omega) (by omega)]
    omega
  apply List.ext_getElem?
  intro i
  simp only [decodeHead, hn, List.getElem?_map]
  by_cases hi : i < lh.length
  · have hw : (Fin.ofNat 256 (i + 1)).val = i + 1 := by
      simp only [Fin.val_ofNat]
      omega
    have hne : Fin.ofNat 256 (i + 1) ≠ 0 := by
      intro h0
      rw [h0] at hw
      simp at hw
    rw [List.getElem?_range hi, Option.map_some, encodeHead, if_neg hne, hw]
    simp [hi]
  · rw [List.getElem?_eq_none (by simpa using Nat.le_of_not_lt hi),
      List.getElem?_eq_none (by omega)]
    rfl

-- What a crash may find on the disk: recovery from here gives `base` at every home block.
structure Recoverable (g : Geometry) (disk base : Disk) : Prop where
  fits : Fits g (decodeHead (disk g.headBlock))
  home : ∀ b ∈ decodeHead (disk g.headBlock), g.Home b
  copy : ∀ i b, (decodeHead (disk g.headBlock))[i]? = some b → disk (g.logBlock i) = base b
  rest : ∀ b, g.Home b → b ∉ decodeHead (disk g.headBlock) → disk b = base b

theorem recoverable_of_empty (hempty : decodeHead (disk g.headBlock) = [])
    (hhome : ∀ b, g.Home b → disk b = base b) : Recoverable g disk base where
  fits := hempty ▸ fits_nil g
  home := by simp [hempty]
  copy := by simp [hempty]
  rest := fun b hb _ => hhome b hb

section

variable (h : Recoverable g disk base) (hempty : decodeHead (disk g.headBlock) = [])
include h hempty

theorem Recoverable.home_eq (hb : g.Home b) : disk b = base b :=
  h.rest b hb (by simp [hempty])

theorem Recoverable.writeLog (ht : tail + 1 < g.nlog) (d : Block) :
    Recoverable g (update disk (g.logBlock tail) d) base := by
  have hhead : update disk (g.logBlock tail) d g.headBlock = disk g.headBlock :=
    update_of_ne (Geometry.logBlock_ne_headBlock ht).symm _ _
  apply recoverable_of_empty
  · rw [hhead, hempty]
  · intro b hb
    rw [update_of_ne (hb.ne_of_inLog (Geometry.inLog_logBlock ht))]
    exact h.home_eq hempty hb

theorem Recoverable.commit (hfits : Fits g lh) (hhome : ∀ b ∈ lh, g.Home b)
    (hcopy : ∀ i b, lh[i]? = some b → disk (g.logBlock i) = base' b) (hrest : ∀ b, b ∉ lh → base' b = base b)
    (old : Block) : Recoverable g (update disk g.headBlock (encodeHead lh old)) base' := by
  have hdec := decodeHead_encodeHead hfits old
  constructor
  · rwa [update_self, hdec]
  · rwa [update_self, hdec]
  · intro i b hi
    rw [update_self, hdec] at hi
    rw [update_of_ne (Geometry.logBlock_ne_headBlock (hfits.index_lt hi))]
    exact hcopy i b hi
  · intro b hb hn
    rw [update_self, hdec] at hn
    rw [update_of_ne (hb.ne_of_inLog g.inLog_headBlock), hrest b hn]
    exact h.home_eq hempty hb

end

theorem headBlock_update_of_home (hb : g.Home b) (d : Block) :
    update disk b d g.headBlock = disk g.headBlock :=
  update_of_ne (hb.ne_of_inLog g.inLog_headBlock).symm _ _

theorem Recoverable.install (h : Recoverable g disk base) (hb : b ∈ decodeHead (disk g.headBlock)) :
    Recoverable g (update disk b (base b)) base := by
  have hhome := h.home b hb
  constructor
  · rw [headBlock_update_of_home hhome]
    exact h.fits
  · rw [headBlock_update_of_home hhome]
    exact h.home
  · intro i c hi
    rw [headBlock_update_of_home hhome] at hi
    have hlog := Geometry.inLog_logBlock (h.fits.index_lt hi)
    rw [update_of_ne (hhome.ne_of_inLog hlog).symm]
    exact h.copy i c hi
  · intro c hc hn
    rw [headBlock_update_of_home hhome] at hn
    have hne : c ≠ b := by
      intro hcb
      exact hn (hcb ▸ hb)
    rw [update_of_ne hne]
    exact h.rest c hc hn

theorem Recoverable.clear (h : Recoverable g disk base)
    (hdone : ∀ b ∈ decodeHead (disk g.headBlock), disk b = base b) (old : Block) :
    decodeHead (update disk g.headBlock (encodeHead [] old) g.headBlock) = [] ∧
    ∀ b, g.Home b → update disk g.headBlock (encodeHead [] old) b = base b := by
  constructor
  · rw [update_self, decodeHead_encodeHead (fits_nil g)]
  · intro b hb
    rw [update_of_ne (hb.ne_of_inLog g.inLog_headBlock)]
    by_cases hm : b ∈ decodeHead (disk g.headBlock)
    · exact hdone b hm
    · exact h.rest b hb hm

end Xv6.Log
