import Xv6.Kalloc.Boot
import Xv6.Kalloc.Ownership

namespace Xv6.Kalloc

open Lib

-- The runs in which kfree may be given any page, a free one too, as far as `may` lets it.
inductive Loose (L : Layout) (mem : Nat → Fin 512 → BitVec 64) (may : Phys → Event → Prop) :
    List Event → Phys → Prop
  | boot {s : Phys} (h : kinit L mem = .ok s) : Loose L mem may [] s
  | kalloc {s t : Phys} {before : List Event} {r : Nat} (h : Loose L mem may before s)
      (hs : Xv6.kalloc s = .ok (r, t)) : Loose L mem may (.kalloc r :: before) t
  | incref {s t : Phys} {before : List Event} {pa : Nat} (h : Loose L mem may before s)
      (hr : 0 < refs before pa) (hm : may s (.incref pa)) (hs : Xv6.incref pa s = .ok t) :
      Loose L mem may (.incref pa :: before) t
  | kfree {s t : Phys} {before : List Event} {pa : Nat} (h : Loose L mem may before s)
      (hp : IsPage L pa) (hm : may s (.kfree pa)) (hs : Xv6.kfree L pa s = .ok t) :
      Loose L mem may (.kfree pa :: before) t
  | write {s : Phys} {before : List Event} {pa : Nat} (h : Loose L mem may before s)
      (hr : 0 < refs before pa) (i : Fin 512) (w : BitVec 64) : Loose L mem may before (s.store pa i w)

-- kfree is given pages with a reference, and no count overflows.
def Referenced (s : Phys) : Event → Prop
  | .kalloc _ => True
  | .incref pa => s.refcount (pa / PGSIZE) < 0x7fffffff
  | .kfree pa => 0 < s.refcount (pa / PGSIZE)

-- No page is on the free list twice or with a reference, and none is handed out that
-- was handed out before and not released.
def Listed (events : List Event) (s : Phys) : Prop :=
  ∃ free, Chain s.next 0 s.freelist free ∧ free.Nodup ∧ (∀ a ∈ free, s.refcount (a / PGSIZE) ≤ 0) ∧
    ∀ r t, Xv6.kalloc s = .ok (r, t) → r ≠ 0 → refs events r ≤ 0

variable {L : Layout} {mem : Nat → Fin 512 → BitVec 64} {s : Phys} {events : List Event}

theorem Loose.run (h : Loose L mem Referenced events s) : Run L mem events s ∧ Bounded events := by
  induction h with
  | boot h => exact ⟨.boot h, bounded_nil⟩
  | kalloc _ hs ih =>
    refine ⟨.kalloc ih.1 hs, ih.2.cons fun a => ?_⟩
    have hlt := ih.2 _ (List.suffix_refl _) a
    simp only [refs]
    split_ifs <;> omega
  | @incref s t before pa _ hr hm hs ih =>
    obtain ⟨free, hinv⟩ := ih.1.inv ih.2
    have hcount := hinv.1.count pa (hinv.isPage hr)
    refine ⟨.incref ih.1 hr hs, ih.2.cons fun a => ?_⟩
    have hlt := ih.2 _ (List.suffix_refl _) a
    simp only [refs, Referenced] at hm ⊢
    split_ifs with ha
    · subst ha
      omega
    · exact hlt
  | kfree _ hp hm hs ih =>
    obtain ⟨free, hinv⟩ := ih.1.inv ih.2
    refine ⟨.kfree ih.1 (hinv.1.count _ hp ▸ hm) hs, ih.2.cons fun a => ?_⟩
    have hlt := ih.2 _ (List.suffix_refl _) a
    simp only [refs]
    split_ifs <;> omega
  | write _ hr i w ih => exact ⟨.write ih.1 hr i w, ih.2⟩

-- The check of decref() is left to its callers: they release no page that has no reference.
theorem released_once_of_referenced (h : Loose L mem Referenced events s) : Listed events s := by
  obtain ⟨free, hinv⟩ := h.run.1.inv h.run.2
  refine ⟨free, hinv.1.chain, hinv.1.nodup, fun a ha => ?_, fun r t hs hr => Int.le_of_eq (hinv.fresh hs hr)⟩
  have hp := hinv.1.page a ha
  exact Int.le_of_eq ((hinv.1.count a hp).trans ((hinv.1.mem_free a hp).mp ha))

theorem released_once_of_referenced_page : ∃ a s, Loose sampleLayout (fun _ _ => 0) Referenced
    [.kfree a, .kalloc a] s ∧ Listed [.kfree a, .kalloc a] s := by
  obtain ⟨s, a, rest, refs', hs, hinv, rfl⟩ := exists_booted
  have hp := hinv.page a (by simp)
  obtain ⟨t, ht, hinv', -⟩ := kalloc_cons hinv
  obtain ⟨u, hu, -⟩ := kfree_last hinv' hp (Function.update_self ..)
  have hcount : 0 < t.refcount (a / PGSIZE) := by simp [hinv'.count a hp]
  have hloose : Loose sampleLayout (fun _ _ => 0) Referenced [.kfree a, .kalloc a] u :=
    .kfree (.kalloc (.boot hs) ht) hp hcount hu
  exact ⟨a, u, hloose, released_once_of_referenced hloose⟩

-- A free page has the count 0, which is not below 0: released once more it is pushed again,
-- and is its own successor from then on.
theorem double_free_listed : ∃ a s, Loose sampleLayout (fun _ _ => 0) (fun _ _ => True) [.kfree a] s ∧
    s.freelist = a ∧ s.next a = a ∧ ¬Listed [.kfree a] s := by
  obtain ⟨s, a, rest, refs', hs, hinv, rfl⟩ := exists_booted
  have hp := hinv.page a (by simp)
  let t := kmemPush a ({ s with refcount := Function.update s.refcount (a / PGSIZE) (0 - 1) }.memset a 1)
  have hfree : Xv6.kfree sampleLayout a s = .ok t := kfree_eq hp (hinv.count a hp) (by omega) (by omega)
  have hself : t.next a = a := by
    have hhigh := hp.2.2
    simp only [PHYSTOP_eq] at hhigh
    simp only [t, Phys.next, kmemPush, Phys.store, Phys.memset, Function.update_self, hinv.chain.1]
    exact Nat.mod_eq_of_lt (by omega)
  refine ⟨a, t, .kfree (.boot hs) hp trivial hfree, rfl, hself, ?_⟩
  rintro ⟨free, hchain, -⟩
  cases free with
  | nil => exact absurd hchain (Nat.ne_of_gt hp.pos)
  | cons b rest =>
    -- the list behind a is the list from a
    have hb : a = b := hchain.1
    have htail := hchain.2.2
    rw [← hb, hself] at htail
    have hrest := htail.unique hchain
    simp at hrest

end Xv6.Kalloc
