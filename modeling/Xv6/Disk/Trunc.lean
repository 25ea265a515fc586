import Xv6.Disk.Content
import Mathlib.Data.List.Nodup

namespace Xv6.Fs

open Lib Function List

variable {sb : Super} {D : Disk} {ip : Dinode} {inum : Nat} {loose : Nat → Prop}

def bfreeAll (cs : List Nat) (D : Disk) : Except FsPanic Disk := cs.foldlM (fun D b => bfree b D) D

theorem bfreeAll_ok (hnodup : cs.Nodup) (hmarked : ∀ c ∈ cs, D.bitmap c = true) :
    bfreeAll cs D = .ok { D with bitmap := fun c => D.bitmap c && !decide (c ∈ cs) } := by
  induction cs generalizing D with
  | nil => simp [bfreeAll, List.foldlM]
  | cons b cs ih =>
    obtain ⟨hnot, hnodup⟩ := nodup_cons.mp hnodup
    obtain ⟨hb, hcs⟩ := forall_mem_cons.mp hmarked
    have hrest : ∀ c ∈ cs, update D.bitmap b false c = true := fun c hc => by
      rw [update_of_ne (fun heq : c = b => hnot (heq ▸ hc)), hcs c hc]
    have := ih (D := { D with bitmap := update D.bitmap b false }) hnodup hrest
    rw [bfreeAll, foldlM_cons, bfree, if_pos hb, ok_bind]
    refine this.trans (congrArg (fun bits => Except.ok { D with bitmap := bits }) (funext fun c => ?_))
    by_cases hc : c = b
    · simp [hc]
    · simp [hc]

theorem itruncDirect_eq (hnodup : ks.Nodup) :
    itruncDirect ks ip D = (bfreeAll ((ks.map ip.addrs).filter (· ≠ 0)) D).map fun D =>
      ({ ip with addrs := fun k => if k ∈ ks then 0 else ip.addrs k }, D) := by
  induction ks generalizing ip D with
  | nil => simp [itruncDirect, bfreeAll, Except.map]
  | cons i ks ih =>
    obtain ⟨hnot, hnodup⟩ := nodup_cons.mp hnodup
    rw [itruncDirect]
    by_cases hzero : ip.addrs i = 0
    · rw [if_pos hzero, ih hnodup, map_cons, filter_cons_of_neg (by simp [hzero])]
      congr 1
      funext D
      congr 2
      funext k
      by_cases hk : k = i
      · simp [hk, hzero]
      · simp [hk]
    · rw [if_neg hzero, map_cons, filter_cons_of_pos (by simpa using hzero), bfreeAll, foldlM_cons]
      cases hfree : bfree (ip.addrs i) D with
      | error e => rfl
      | ok D₁ =>
        rw [ok_bind, ok_bind, ih hnodup]
        have hmap : ks.map (ip.setAddr i 0).addrs = ks.map ip.addrs :=
          map_congr_left fun k hk => update_of_ne (fun heq : k = i => hnot (heq ▸ hk)) ..
        rw [hmap]
        simp only [bfreeAll]
        congr 1
        funext D
        congr 2
        funext k
        by_cases hk : k = i
        · simp [hk, Dinode.setAddr]
        · simp [hk, Dinode.setAddr]

theorem itruncEntries_eq (a : Block) (js : List Nat) :
    itruncEntries a js D = bfreeAll ((js.map (getUint a)).filter (· ≠ 0)) D := by
  induction js generalizing D with
  | nil => rfl
  | cons j js ih =>
    rw [itruncEntries]
    by_cases hzero : getUint a j = 0
    · rw [if_pos hzero, ih, map_cons, filter_cons_of_neg (by simp [hzero])]
    · rw [if_neg hzero, map_cons, filter_cons_of_pos (by simpa using hzero), bfreeAll, foldlM_cons]
      congr 1
      funext D₁
      exact ih

theorem bfreeAll_append (cs ds : List Nat) : bfreeAll (cs ++ ds) D = bfreeAll cs D >>= bfreeAll ds := by
  rw [bfreeAll, foldlM_append]
  rfl

theorem bfreeAll_data (h : bfreeAll cs D = .ok D') : D'.data = D.data := by
  induction cs generalizing D with
  | nil =>
    obtain rfl := Except.ok.inj h
    rfl
  | cons b cs ih =>
    rw [bfreeAll, foldlM_cons, bfree] at h
    split_ifs at h
    · exact ih (D := { D with bitmap := update D.bitmap b false }) h
    · simp at h

def indirectPlaces : List Place := (List.range NINDIRECT).map (fun j => .block (NDIRECT + j)) ++ [.indirect]

-- The places of an inode in the order in which itrunc() goes through them, and their blocks.
def places : List Place :=
  (List.range NDIRECT).map .block ++ indirectPlaces

def held (D : Disk) (ip : Dinode) : List Nat := (places.filter (place D ip · ≠ 0)).map (place D ip)

def Dinode.truncated (ip : Dinode) : Dinode :=
  { ip with size := 0, addrs := fun k => if k ≤ NDIRECT then 0 else ip.addrs k }

theorem filter_map_place (D : Disk) (ip : Dinode) (ps : List Place) :
    (ps.filter (place D ip · ≠ 0)).map (place D ip) = (ps.map (place D ip)).filter (· ≠ 0) := by
  rw [filter_map]
  rfl

theorem place_entry (hj : j < NINDIRECT) (hind : ip.addrs NDIRECT ≠ 0) :
    place D ip (.block (NDIRECT + j)) = getUint (D.data (ip.addrs NDIRECT)) j := by
  rw [place, blockOf, if_neg (by omega), Nat.add_sub_cancel_left, if_pos ⟨hj, hind⟩]

theorem place_entry_zero (j : Nat) (hind : ip.addrs NDIRECT = 0) : place D ip (.block (NDIRECT + j)) = 0 := by
  rw [place, blockOf, if_neg (by omega), if_neg fun h => h.2 hind]

theorem itruncIndirect_of_free (h : bfreeAll ((indirectPlaces.map (place D ip)).filter (· ≠ 0)) D = .ok D') :
    itruncIndirect ip D = .ok (ip.setAddr NDIRECT 0, D') := by
  rw [indirectPlaces, map_append, filter_append, map_map] at h
  rw [itruncIndirect]
  by_cases hind : ip.addrs NDIRECT = 0
  · have hzero : ∀ c ∈ (List.range NINDIRECT).map (place D ip ∘ fun j => Place.block (NDIRECT + j)), ¬c ≠ 0 := by
      intro c hc
      obtain ⟨j, -, rfl⟩ := mem_map.mp hc
      exact not_not.mpr (place_entry_zero j hind)
    rw [filter_eq_nil_iff.mpr (by simpa using hzero), nil_append] at h
    simp only [map_cons, map_nil, place, hind, ne_eq, not_true_eq_false, decide_false, Bool.false_eq_true,
      not_false_eq_true, filter_cons_of_neg, filter_nil] at h
    obtain rfl := Except.ok.inj h
    rw [if_pos hind, Dinode.setAddr, update_eq_self_iff.mpr hind.symm]
  · have hentries : (List.range NINDIRECT).map (place D ip ∘ fun j => Place.block (NDIRECT + j)) =
        (List.range NINDIRECT).map (getUint (D.data (ip.addrs NDIRECT))) :=
      map_congr_left fun j hj => place_entry (mem_range.mp hj) hind
    rw [hentries, bfreeAll_append] at h
    obtain ⟨D₁, h₁, h₂⟩ := bind_eq_ok.mp h
    rw [if_neg hind, itruncEntries_eq, h₁, ok_bind]
    simp only [map_cons, map_nil, place] at h₂
    rw [filter_cons_of_pos (by simpa using hind), filter_nil, bfreeAll, foldlM_cons] at h₂
    obtain ⟨D₂, hlast, hend⟩ := bind_eq_ok.mp h₂
    obtain rfl := Except.ok.inj hend
    rw [hlast, ok_bind]
    rfl

theorem itrunc_of_free (h : bfreeAll (held D ip) D = .ok D') :
    itrunc inum ip D = .ok (ip.truncated, iupdate inum ip.truncated D') := by
  have hdirect : (List.range NDIRECT).map (place D ip ∘ Place.block) = (List.range NDIRECT).map ip.addrs :=
    map_congr_left fun k hk => if_pos (mem_range.mp hk)
  rw [held, filter_map_place, places, map_append, filter_append, map_map, hdirect,
    bfreeAll_append] at h
  obtain ⟨D₁, h₁, h₂⟩ := bind_eq_ok.mp h
  have hdata := bfreeAll_data h₁
  have hplaces : indirectPlaces.map
      (place D₁ { ip with addrs := fun k => if k ∈ List.range NDIRECT then 0 else ip.addrs k }) =
      indirectPlaces.map (place D ip) := by
    refine map_congr_left fun p hp => ?_
    rcases mem_append.mp hp with hp | hp
    · obtain ⟨j, -, rfl⟩ := mem_map.mp hp
      have hge : ¬NDIRECT + j < NDIRECT := by omega
      simp only [place, blockOf, hdata, mem_range, Nat.lt_irrefl, if_false, hge]
    · obtain rfl := mem_singleton.mp hp
      simp only [place, mem_range, Nat.lt_irrefl, if_false]
  rw [← hplaces] at h₂
  rw [itrunc, itruncDirect_eq nodup_range, h₁]
  simp only [Except.map, ok_bind]
  rw [itruncIndirect_of_free h₂, ok_bind]
  have hip : { ip with
      size := 0
      addrs := update (fun k => if k ∈ List.range NDIRECT then 0 else ip.addrs k) NDIRECT 0 } =
      ip.truncated := by
    rw [Dinode.truncated]
    congr 1
    funext k
    by_cases hk : k = NDIRECT
    · simp [hk]
    · rw [update_of_ne hk]
      by_cases hlt : k < NDIRECT
      · rw [if_pos (mem_range.mpr hlt), if_pos (Nat.le_of_lt hlt)]
      · rw [if_neg (by simpa using hlt), if_neg (by omega)]
  simp only [Dinode.setAddr, hip]
  rfl

theorem mem_places (h : place D ip p ≠ 0) : p ∈ places := by
  cases p with
  | indirect => exact mem_append_right _ (mem_append_right _ (mem_singleton_self _))
  | block bn =>
    have hlt := blockOf_lt h
    rw [MAXFILE] at hlt
    by_cases hdirect : bn < NDIRECT
    · exact mem_append_left _ (mem_map.mpr ⟨bn, mem_range.mpr hdirect, rfl⟩)
    · refine mem_append_right _ (mem_append_left _ (mem_map.mpr ⟨bn - NDIRECT, ?_, ?_⟩))
      · exact mem_range.mpr (by omega)
      · rw [Nat.add_sub_cancel' (Nat.le_of_not_lt hdirect)]

theorem places_nodup : places.Nodup := by decide +kernel

theorem mem_held : c ∈ held D ip ↔ c ≠ 0 ∧ ∃ p, place D ip p = c := by
  simp only [held, mem_map, mem_filter, decide_eq_true_eq]
  constructor
  · rintro ⟨p, ⟨-, hne⟩, rfl⟩
    exact ⟨hne, p, rfl⟩
  · rintro ⟨hne, p, rfl⟩
    exact ⟨p, ⟨mem_places hne, hne⟩, rfl⟩

theorem held_nodup (hacc : Accounted sb (iupdate inum ip D) loose) (hinum : inum < sb.ninodes)
    (htype : ip.type ≠ .free) : (held D ip).Nodup := by
  have hself : ∀ p, (iupdate inum ip D).slot sb (inum, p) = place D ip p := slot_self hinum htype
  refine List.Nodup.map_on ?_ (places_nodup.filter _)
  intro p hp q hq heq
  have hp' : place D ip p ≠ 0 := by simpa using (mem_filter.mp hp).2
  rw [← hself] at hp'
  rw [← hself, ← hself] at heq
  exact (Prod.mk.inj (hacc.inj _ _ hp' heq.symm)).2.symm

theorem place_truncated (D : Disk) (ip : Dinode) (p : Place) : place D ip.truncated p = 0 := by
  cases p with
  | indirect => simp [place, Dinode.truncated]
  | block bn =>
    simp only [place, blockOf, Dinode.truncated, Nat.le_refl, if_true, ne_eq, not_true_eq_false, and_false, if_false]
    split_ifs <;> first | rfl | omega

theorem itrunc_spec (hacc : Accounted sb (iupdate inum ip D) loose) (hinum : inum < sb.ninodes)
    (htype : ip.type ≠ .free) :
    ∃ bits, itrunc inum ip D = .ok (ip.truncated, iupdate inum ip.truncated { D with bitmap := bits }) ∧
      Accounted sb (iupdate inum ip.truncated { D with bitmap := bits }) loose := by
  have hself : ∀ p, (iupdate inum ip D).slot sb (inum, p) = place D ip p := slot_self hinum htype
  have hmarked : ∀ c ∈ held D ip, D.bitmap c = true := by
    intro c hc
    obtain ⟨hne, p, rfl⟩ := mem_held.mp hc
    rw [← hself] at hne ⊢
    exact hacc.bit_of_slot hne
  refine ⟨_, itrunc_of_free (bfreeAll_ok (held_nodup hacc hinum htype) hmarked), ?_⟩
  generalize hslot' : (iupdate inum ip.truncated
    { D with bitmap := fun c => D.bitmap c && !decide (c ∈ held D ip) }).slot sb = slot'
  have hzero : ∀ p, slot' (inum, p) = 0 := by
    intro p
    rw [← hslot', slot_self hinum (show ip.truncated.type ≠ .free from htype)]
    exact place_truncated _ _ p
  have hother : ∀ i, i ≠ inum → ∀ p, slot' (i, p) = (iupdate inum ip D).slot sb (i, p) := by
    intro i hi p
    rw [← hslot', slot_other hi, slot_other hi]
    rfl
  have hcase : ∀ s, slot' s = (iupdate inum ip D).slot sb s ∨ slot' s = 0 := by
    rintro ⟨i, p⟩
    by_cases hi : i = inum
    · exact .inr (hi ▸ hzero p)
    · exact .inl (hother i hi p)
  have hdetach := hacc.detach hcase
  rw [Accounted, hslot']
  refine (hdetach.releaseAll (· ∈ held D ip) fun c hc => ?_).congr (fun _ => rfl) fun c => ?_
  · obtain ⟨hne, p, rfl⟩ := mem_held.mp hc
    exact .inr ⟨hne, (inum, p), hself p, hzero p⟩
  · constructor
    · intro hl
      refine ⟨.inl hl, fun hc => ?_⟩
      obtain ⟨-, p, rfl⟩ := mem_held.mp hc
      exact (hacc.apart _ hl).2.2 (inum, p) (hself p)
    · rintro ⟨hl | ⟨hne, ⟨i, p⟩, rfl, hz⟩, hnot⟩
      · exact hl
      · by_cases hi : i = inum
        · subst hi
          exact absurd (mem_held.mpr ⟨hne, p, (hself p).symm⟩) hnot
        · rw [hother i hi] at hz
          exact absurd hz hne

end Xv6.Fs
