import Xv6.Umalloc

namespace Xv6.Umalloc

open Lib Function Finset

def len (mem : Nat → Header) (a : Nat) : Nat := (mem a).size * sizeofHeader

-- The memory that sbrk() has given is cut into free blocks, which are in the ring with base,
-- and live ones. F and L are the addresses of their headers.
structure Blocks (base : Nat) (mem : Nat → Header) (cs : Calls) (F L : Finset Nat) : Prop where
  ring : Cyclic F base fun a => (mem a).ptr
  root : (mem base).size = 0
  live : ∀ a ∈ L, a ∉ F
  tiling : Tiling (F.erase base ∪ L) (len mem) (Given cs) (given cs)
  regions : ∀ n p, (n, some p) ∈ cs → base + sizeofHeader ≤ p ∧ p + n.toNat ≤ 2 ^ 64
  bounded : given cs < 2 ^ 32 * sizeofHeader
  aligned : (∀ n p, (n, some p) ∈ cs → p % sizeofHeader = 0) → ∀ a ∈ F.erase base ∪ L, a % sizeofHeader = 0

variable {base p bp q a : Nat} {mem mem' : Nat → Header} {cs : Calls} {F L X : Finset Nat}

theorem ptr_update (mem : Nat → Header) (a : Nat) (hd : Header) :
    (fun x => (update mem a hd x).ptr) = update (fun x => (mem x).ptr) a hd.ptr := by
  funext x
  by_cases hx : x = a
  · subst hx
    simp
  · simp [hx]

theorem len_update (mem : Nat → Header) (a : Nat) (hd : Header) :
    len (update mem a hd) = update (len mem) a (hd.size * sizeofHeader) := by
  funext x
  by_cases hx : x = a
  · subst hx
    simp [len]
  · simp [len, hx]

namespace Blocks

section

variable (h : Blocks base mem cs F L) (ha : a ∈ F.erase base ∪ L)
include h ha

theorem low : base + sizeofHeader ≤ a := by
  obtain ⟨n, p, hp, hle, -⟩ := h.tiling.inside a ha a le_rfl (by have := h.tiling.pos a ha; omega)
  exact (h.regions n p hp).1.trans hle

theorem top : a + len mem a ≤ 2 ^ 64 := by
  have hpos := h.tiling.pos a ha
  obtain ⟨n, p, hp, -, hlt⟩ := h.tiling.inside a ha (a + len mem a - 1) (by omega) (by omega)
  have := (h.regions n p hp).2
  omega

theorem lt_top : a < 2 ^ 64 := by
  have := h.top ha
  have := h.tiling.pos a ha
  omega

end

theorem mem_of_free (ha : a ∈ F) (hne : a ≠ base) : a ∈ F.erase base ∪ L :=
  mem_union_left _ (mem_erase.mpr ⟨hne, ha⟩)

theorem mem_of_live (ha : a ∈ L) : a ∈ F.erase base ∪ L := mem_union_right _ ha

theorem ne_base (h : Blocks base mem cs F L) (ha : a ∈ L) : a ≠ base := fun heq => h.live a ha (heq ▸ h.ring.mem)

-- The sum in `p + p->s.size` wraps only at the top of the address space, where no node is.
theorem above_eq_iff (h : Blocks base mem cs F L) (ha : a ∈ F.erase base ∪ L) (hpos : 0 < q) (hlt : q < 2 ^ 64) :
    above mem a = q ↔ a + len mem a = q := by
  have htop := h.top ha
  have heq : above mem a = (a + len mem a) % 2 ^ 64 := rfl
  rw [heq]
  rcases Nat.lt_or_ge (a + len mem a) (2 ^ 64) with hlt' | hge
  · rw [Nat.mod_eq_of_lt hlt']
  · have hend : a + len mem a = 2 ^ 64 := by omega
    rw [hend]
    omega

theorem congr (h : Blocks base mem cs F L) (hF : ∀ a ∈ F, mem' a = mem a) (hL : ∀ a ∈ L, (mem' a).size = (mem a).size) :
    Blocks base mem' cs F L where
  ring := h.ring.congr fun a ha => congrArg Header.ptr (hF a ha)
  root := by rw [hF base h.ring.mem, h.root]
  live := h.live
  tiling := h.tiling.congr fun a ha => by
    rcases mem_union.mp ha with ha | ha
    · rw [len, len, hF a (mem_of_mem_erase ha)]
    · rw [len, len, hL a ha]
  regions := h.regions
  bounded := h.bounded
  aligned := h.aligned

end Blocks

-- free() puts a block into the ring, and then joins it with its neighbours.
def link (mem : Nat → Header) (p bp : Nat) : Nat → Header := setPtr (setPtr mem bp (mem p).ptr) p bp

def absorb (mem : Nat → Header) (a b : Nat) : Nat → Header :=
  update mem a { ptr := (mem b).ptr, size := ((mem a).size + (mem b).size) % 2 ^ 32 }

theorem coalesce_eq (hne : p ≠ bp) (hq : above mem bp = (mem p).ptr → (mem p).ptr ≠ p ∧ (mem p).ptr ≠ bp) :
    coalesce mem p bp =
      let m := if above mem bp = (mem p).ptr then absorb (link mem p bp) bp (mem p).ptr else link mem p bp
      if above mem p = bp then absorb m p bp else m := by
  have hsize : ∀ m : Nat → Header, (m p).size = (mem p).size → above m p = above mem p := by
    intro m hm
    rw [above, above, hm]
  -- only these two headers change
  have hext : ∀ f g : Nat → Header, f p = g p → f bp = g bp → (∀ x, x ≠ p → x ≠ bp → f x = g x) → f = g := by
    intro f g hp hb hrest
    funext x
    by_cases hxp : x = p
    · rw [hxp, hp]
    · by_cases hxb : x = bp
      · rw [hxb, hb]
      · exact hrest x hxp hxb
  simp only [coalesce]
  by_cases hup : above mem bp = (mem p).ptr
  · obtain ⟨hqp, hqbp⟩ := hq hup
    rw [if_pos hup, if_pos hup, hsize _ (by simp [setPtr, setSize, hne])]
    split_ifs
    all_goals
      refine hext _ _ ?_ ?_ fun x hxp hxb => by simp [setPtr, setSize, absorb, link, hxp, hxb]
      all_goals simp [setPtr, setSize, absorb, link, hne, hne.symm, hqp, hqbp]
  · rw [if_neg hup, if_neg hup, hsize _ (by simp [setPtr, hne])]
    split_ifs
    · refine hext _ _ ?_ ?_ fun x hxp hxb => by simp [setPtr, setSize, absorb, link, hxp, hxb]
      all_goals simp [setPtr, setSize, absorb, link, hne, hne.symm]
    · rfl

namespace Blocks

section

variable (h : Blocks base mem cs F L)
include h

theorem link (hbp : bp ∈ L) (hp : p ∈ F) (hlt : p < bp) (hmax : ∀ c ∈ F, c < bp → c ≤ p) :
    Blocks base (link mem p bp) cs (insert bp F) (L.erase bp) := by
  have hbase := h.ne_base hbp
  have hne : p ≠ bp := hlt.ne
  have hlen : len (Umalloc.link mem p bp) = len mem := by
    funext x
    simp only [len, Umalloc.link, setPtr]
    by_cases hxp : x = p <;> by_cases hxb : x = bp <;> simp_all
  have hset : (insert bp F).erase base ∪ L.erase bp = F.erase base ∪ L := by
    ext x
    by_cases hx : x = bp
    · subst hx
      simp [hbp, hbase]
    · simp [hx]
  refine ⟨?_, ?_, fun a ha => ?_, ?_, h.regions, h.bounded, fun hc => hset ▸ h.aligned hc⟩
  · have hring := h.ring.insert (h.live bp hbp) hp hlt hmax
    refine hring.congr fun a _ => ?_
    simp only [Umalloc.link, setPtr]
    by_cases hap : a = p
    · simp [hap]
    · by_cases hab : a = bp
      · simp [hab, hne.symm]
      · simp [hap, hab]
  · have := congrFun hlen base
    simp only [len, h.root, sizeofHeader] at this
    omega
  · obtain ⟨hab, ha⟩ := mem_erase.mp ha
    rw [mem_insert, not_or]
    exact ⟨hab, h.live a ha⟩
  · rw [hset, hlen]
    exact h.tiling

theorem len_absorb (ha : a ∈ F) (hbase : a ≠ base) (hnext : (mem a).ptr = a + len mem a) :
    len (absorb mem a (mem a).ptr) = update (len mem) a (len mem a + len mem (mem a).ptr) := by
  have haB := mem_of_free (L := L) ha hbase
  have hlow := h.low haB
  have hpos := h.tiling.pos a haB
  have hbB := mem_of_free (L := L) (h.ring.next_mem ha) (show (mem a).ptr ≠ base by omega)
  have htiling := h.tiling.join haB (hnext ▸ hbB)
  have hle := htiling.len_le (mem_erase.mpr ⟨by omega, haB⟩)
  have hbound := h.bounded
  rw [update_self, ← hnext] at hle
  have hsize : ((mem a).size + (mem (mem a).ptr).size) % 2 ^ 32 = (mem a).size + (mem (mem a).ptr).size := by
    simp only [len, sizeofHeader] at hle hbound
    exact Nat.mod_eq_of_lt (by omega)
  rw [absorb, len_update, hsize, Nat.add_mul]
  rfl

theorem absorb (ha : a ∈ F) (hbase : a ≠ base) (hnext : (mem a).ptr = a + len mem a) :
    Blocks base (absorb mem a (mem a).ptr) cs (F.erase (mem a).ptr) L := by
  have haB := mem_of_free (L := L) ha hbase
  have hlow := h.low haB
  have hbF : (mem a).ptr ∈ F := h.ring.next_mem ha
  have hb : (mem a).ptr ≠ base := by omega
  have hset : (F.erase (mem a).ptr).erase base ∪ L = (F.erase base ∪ L).erase (mem a).ptr := by
    ext x
    have hbL : (mem a).ptr ∉ L := fun hbL => h.live _ hbL hbF
    by_cases hx : x = (mem a).ptr
    · simp [hx, hbL]
    · simp [hx]
  refine ⟨?_, ?_, fun x hx hxF => h.live x hx (mem_of_mem_erase hxF), ?_, h.regions, h.bounded, fun hc x hx => ?_⟩
  · rw [Umalloc.absorb, ptr_update]
    exact h.ring.erase ha hb
  · simp [Umalloc.absorb, update_of_ne hbase.symm, h.root]
  · rw [hset, h.len_absorb ha hbase hnext]
    have htiling := h.tiling.join haB (hnext ▸ mem_of_free hbF hb)
    rwa [← hnext] at htiling
  · rw [hset] at hx
    exact h.aligned hc x (mem_of_mem_erase hx)

theorem take (hp : p ∈ F) (hq : (mem p).ptr ≠ base) :
    Blocks base (setPtr mem p (mem (mem p).ptr).ptr) cs (F.erase (mem p).ptr) (insert (mem p).ptr L) := by
  have hqF : (mem p).ptr ∈ F := h.ring.next_mem hp
  have hlen : len (setPtr mem p (mem (mem p).ptr).ptr) = len mem := by
    rw [setPtr, len_update]
    exact update_eq_self ..
  have hset : (F.erase (mem p).ptr).erase base ∪ insert (mem p).ptr L = F.erase base ∪ L := by
    ext x
    by_cases hx : x = (mem p).ptr
    · simp [hx, hq, hqF]
    · simp [hx]
  refine ⟨?_, ?_, fun x hx => ?_, ?_, h.regions, h.bounded, fun hc => hset ▸ h.aligned hc⟩
  · rw [setPtr, ptr_update]
    exact h.ring.erase hp hq
  · have := congrFun hlen base
    simp only [len, h.root, sizeofHeader] at this
    omega
  · rcases mem_insert.mp hx with rfl | hx
    · simp
    · exact fun hxF => h.live x hx (mem_of_mem_erase hxF)
  · rw [hset, hlen]
    exact h.tiling

theorem split (hp : p ∈ F) (hn : 0 < n) (hlt : n < (mem p).size) :
    Blocks base (setSize (setSize mem p ((mem p).size - n)) (p + ((mem p).size - n) * sizeofHeader) n) cs F
      (insert (p + ((mem p).size - n) * sizeofHeader) L) := by
  have hbase : p ≠ base := by
    rintro rfl
    simp [h.root] at hlt
  have hpB := mem_of_free (L := L) hp hbase
  have hk : 0 < ((mem p).size - n) * sizeofHeader := by
    simp only [sizeofHeader]
    omega
  have hk' : ((mem p).size - n) * sizeofHeader < len mem p := by
    simp only [len, sizeofHeader]
    omega
  have hrest : len mem p - ((mem p).size - n) * sizeofHeader = n * sizeofHeader := by
    simp only [len, sizeofHeader]
    omega
  have hnew := h.tiling.notMem_inside hpB (show p < p + ((mem p).size - n) * sizeofHeader by omega) (by omega)
  have htiling := h.tiling.split hpB hk hk'
  rw [hrest] at htiling
  have hlow := h.low hpB
  have hmod : (p + ((mem p).size - n) * sizeofHeader) % sizeofHeader = p % sizeofHeader := Nat.add_mul_mod_self_right ..
  generalize hq : p + ((mem p).size - n) * sizeofHeader = q at *
  have hqbase : q ≠ base := by omega
  have hqF : q ∉ F := fun hqF => hnew (mem_of_free hqF hqbase)
  have hset : F.erase base ∪ insert q L = insert q (F.erase base ∪ L) := by
    rw [union_insert]
  have hlen : len (setSize (setSize mem p ((mem p).size - n)) q n) =
      update (update (len mem) p (((mem p).size - n) * sizeofHeader)) q (n * sizeofHeader) := by
    rw [setSize, len_update, setSize, len_update]
  refine ⟨h.ring.congr fun x hx => ?_, ?_, fun x hx => ?_, ?_, h.regions, h.bounded, fun hc x hx => ?_⟩
  · have hxq : x ≠ q := fun heq => hqF (heq ▸ hx)
    simp only [setSize, update_of_ne hxq]
    by_cases hxp : x = p
    · simp [hxp]
    · simp [hxp]
  · simp [setSize, update_of_ne hqbase.symm, update_of_ne hbase.symm, h.root]
  · rcases mem_insert.mp hx with rfl | hx
    · exact hqF
    · exact h.live x hx
  · rw [hset, hlen]
    exact htiling
  · rw [hset] at hx
    rcases mem_insert.mp hx with rfl | hx
    · rw [hmod]
      exact h.aligned hc p hpB
    · exact h.aligned hc x hx

theorem grow (hnu : 0 < nu) (hn : n.toNat = nu * sizeofHeader) (hlow : base + sizeofHeader ≤ p)
    (htop : p + nu * sizeofHeader ≤ 2 ^ 64) (hfresh : ∀ m q, (m, some q) ∈ cs → q + m.toNat ≤ p)
    (hbound : given cs + nu * sizeofHeader < 2 ^ 32 * sizeofHeader) :
    Blocks base (setSize mem p nu) ((n, some p) :: cs) F (insert p L) := by
  have hpos : 0 < nu * sizeofHeader := by
    simp only [sizeofHeader]
    omega
  have hgiven : ∀ x, Given cs x → Given ((n, some p) :: cs) x ∧ x < p := by
    rintro x ⟨m, q, hq, hle, hlt⟩
    exact ⟨⟨m, q, List.mem_cons_of_mem _ hq, hle, hlt⟩, hlt.trans_le (hfresh m q hq)⟩
  have htiling := h.tiling.grow hpos hgiven fun x hle hlt => ⟨_, p, List.mem_cons_self, hle, hn ▸ hlt⟩
  have htotal : given ((n, some p) :: cs) = given cs + nu * sizeofHeader := by
    show n.toNat + given cs = _
    rw [hn, Nat.add_comm]
  have hpB : p ∉ F.erase base ∪ L := by
    intro hpB
    obtain ⟨m, q, hq, hle, hlt⟩ := h.tiling.inside p hpB p le_rfl (by have := h.tiling.pos p hpB; omega)
    have := hfresh m q hq
    omega
  have hpbase : p ≠ base := by simp only [sizeofHeader] at hlow; omega
  have hpF : p ∉ F := fun hpF => hpB (mem_of_free hpF hpbase)
  have hset : F.erase base ∪ insert p L = insert p (F.erase base ∪ L) := by
    rw [union_insert]
  refine ⟨h.ring.congr fun x hx => ?_, ?_, fun x hx => ?_, ?_, fun m q hq => ?_, ?_, fun hc x hx => ?_⟩
  · simp [setSize, update_of_ne fun heq : x = p => hpF (heq ▸ hx)]
  · simp [setSize, update_of_ne hpbase.symm, h.root]
  · rcases mem_insert.mp hx with rfl | hx
    · exact hpF
    · exact h.live x hx
  · rw [hset, setSize, len_update, htotal]
    exact htiling
  · rcases List.mem_cons.mp hq with heq | hq
    · obtain ⟨rfl, rfl⟩ : m = n ∧ q = p := by simpa using heq
      exact ⟨hlow, hn ▸ htop⟩
    · exact h.regions m q hq
  · rw [htotal]
    exact hbound
  · rw [hset] at hx
    rcases mem_insert.mp hx with rfl | hx
    · exact hc _ x List.mem_cons_self
    · exact h.aligned (fun m q hq => hc m q (List.mem_cons_of_mem _ hq)) x hx

theorem refused (n : Int) : Blocks base mem ((n, none) :: cs) F L := by
  have hmem : ∀ {m : Int} {q : Nat}, (m, some q) ∈ (n, none) :: cs → (m, some q) ∈ cs := by simp
  have htotal : given ((n, none) :: cs) = given cs := Nat.zero_add _
  refine ⟨h.ring, h.root, h.live, ?_, fun m q hq => h.regions m q (hmem hq), htotal ▸ h.bounded,
    fun hc => h.aligned fun m q hq => hc m q (List.mem_cons_of_mem _ hq)⟩
  rw [htotal]
  refine ⟨h.tiling.pos, h.tiling.apart, fun a ha x hle hlt => ?_, h.tiling.total⟩
  obtain ⟨m, q, hq, hx⟩ := h.tiling.inside a ha x hle hlt
  exact ⟨m, q, List.mem_cons_of_mem _ hq, hx⟩

end

end Blocks

end Xv6.Umalloc
