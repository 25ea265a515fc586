import Mathlib.Data.List.Nodup

namespace Xv6.Lib

open Function List

-- Doubly linked rings through a head that is no element itself. A link is an element,
-- or none for the head.
structure Links (β : Type*) where
  next : Option β → Option β
  prev : Option β → Option β

variable {β : Type*}

-- The loop `for(b = from; b != head; b = step(b)) if(p(b)) return b`, with at most n turns.
def scan (step : Option β → Option β) (p : β → Bool) : Nat → Option β → Option β
  | 0, _ => none
  | _ + 1, none => none
  | n + 1, some b => if p b then some b else scan step p n (step (some b))

-- The links of l visit the elements of xs in order, from the head and back to it, and in the
-- other direction backwards.
structure Ring (l : Links β) (xs : List β) : Prop where
  nodup : xs.Nodup
  first : l.next none = xs.head?
  last : l.prev none = xs.getLast?
  next : ∀ {ys b zs}, xs = ys ++ b :: zs → l.next (some b) = zs.head?
  prev : ∀ {ys b zs}, xs = ys ++ b :: zs → l.prev (some b) = ys.getLast?

-- One direction: wherever xs is split, f goes from the last element before the split, or from the
-- head, to the first one behind it.
def Visits (f : Option β → Option β) (xs : List β) : Prop := ∀ ys zs, xs = ys ++ zs → f ys.getLast? = zs.head?

variable {f : Option β → Option β} {l : Links β} {xs ys zs : List β} {b : β} {p : β → Bool}

theorem Visits.scan (h : Visits f xs) (hn : xs.length < n) : scan f p n (f none) = xs.find? p := by
  have hrest : ∀ zs ys n, xs = ys ++ zs → zs.length < n → Lib.scan f p n zs.head? = zs.find? p := by
    intro zs
    induction zs with
    | nil =>
      intro ys n _ hn
      cases n with
      | zero => simp at hn
      | succ n => rfl
    | cons z zs ih =>
      intro ys n hxs hn
      cases n with
      | zero => simp at hn
      | succ n =>
        have hnext := h (ys ++ [z]) zs (by simp [hxs])
        rw [getLast?_concat] at hnext
        rw [head?_cons, Lib.scan, hnext]
        cases hz : p z with
        | true => simp [find?_cons_of_pos, hz]
        | false =>
          rw [find?_cons_of_neg (by simp [hz])]
          simp only [Bool.false_eq_true, if_false]
          exact ih (ys ++ [z]) n (by simp [hxs]) (by simpa using hn)
  have hfirst := h [] xs rfl
  rw [getLast?_nil] at hfirst
  rw [hfirst]
  exact hrest xs [] n rfl hn

theorem getLast?_ne (hnodup : (ys ++ b :: zs).Nodup) : ys.getLast? ≠ (ys ++ b :: zs).getLast? := by
  rw [getLast?_append_of_ne_nil _ (cons_ne_nil b zs)]
  intro hlast
  obtain ⟨c, hc⟩ : ∃ c, (b :: zs).getLast? = some c := ⟨_, getLast?_eq_getLast_of_ne_nil (by simp)⟩
  exact (nodup_append.mp hnodup).2.2 c (mem_of_getLast? (hlast.trans hc)) c (mem_of_getLast? hc) rfl

namespace Ring

theorem visits (h : Ring l xs) : Visits l.next xs := by
  intro ys zs hxs
  rcases eq_nil_or_concat' ys with rfl | ⟨us, b, rfl⟩
  · rw [getLast?_nil, h.first, hxs, nil_append]
  · rw [getLast?_concat]
    exact h.next (by rw [hxs, append_assoc, singleton_append])

theorem visits_reverse (h : Ring l xs) : Visits l.prev xs.reverse := by
  intro ys zs hxs
  obtain rfl : xs = zs.reverse ++ ys.reverse := by rw [← reverse_append, ← hxs, reverse_reverse]
  rcases eq_nil_or_concat' ys with rfl | ⟨us, b, rfl⟩
  · simp [h.last]
  · rw [getLast?_concat, ← getLast?_reverse]
    exact h.prev (by rw [reverse_append]; rfl)

-- The other direction goes through the reversed list.
theorem of_visits (hnodup : xs.Nodup) (hnext : Visits l.next xs) (hprev : Visits l.prev xs.reverse) : Ring l xs where
  nodup := hnodup
  first := hnext [] xs rfl
  last := by simpa using hprev [] xs.reverse rfl
  next {ys b zs} hxs := by simpa using hnext (ys ++ [b]) zs (by simp [hxs])
  prev {ys b zs} hxs := by simpa using hprev (zs.reverse ++ [b]) ys.reverse (by simp [hxs])

theorem scan_next (h : Ring l xs) (hn : xs.length < n) : scan l.next p n (l.next none) = xs.find? p :=
  h.visits.scan hn

theorem scan_prev (h : Ring l xs) (hn : xs.length < n) : scan l.prev p n (l.prev none) = xs.reverse.find? p :=
  h.visits_reverse.scan (by simpa using hn)

end Ring

variable [DecidableEq β]

namespace Links

-- b->next->prev = b->prev; b->prev->next = b->next;
def unlink (l : Links β) (b : β) : Links β :=
  let l := { l with prev := update l.prev (l.next (some b)) (l.prev (some b)) }
  { l with next := update l.next (l.prev (some b)) (l.next (some b)) }

-- b->next = head.next; b->prev = &head; head.next->prev = b; head.next = b;
def pushFront (l : Links β) (b : β) : Links β :=
  let l := { l with next := update l.next (some b) (l.next none) }
  let l := { l with prev := update l.prev (some b) none }
  let l := { l with prev := update l.prev (l.next none) (some b) }
  { l with next := update l.next none (some b) }

end Links

theorem Visits.unlink (h : Visits f (ys ++ b :: zs)) (hnodup : (ys ++ b :: zs).Nodup) :
    Visits (update f ys.getLast? zs.head?) (ys ++ zs) := by
  obtain ⟨hys, hzs, hdisj⟩ := nodup_append.mp hnodup
  intro us ws heq
  rcases append_eq_append_iff.mp heq with ⟨as, rfl, rfl⟩ | ⟨as, rfl, rfl⟩
  · rcases eq_nil_or_concat' as with rfl | ⟨as, a, rfl⟩
    · simp
    · -- a is behind b
      have hne : some a ≠ ys.getLast? := fun ha => hdisj a (mem_of_getLast? ha.symm) a (by simp) rfl
      have hold := h (ys ++ b :: (as ++ [a])) ws (by simp)
      rw [← append_assoc, getLast?_concat, update_of_ne hne]
      rwa [← cons_append, ← append_assoc, getLast?_concat] at hold
  · cases as with
    | nil => simp
    | cons a as =>
      rw [update_of_ne (getLast?_ne hys), h us (a :: as ++ b :: zs) (by simp)]
      rfl

namespace Ring

theorem unlink (h : Ring l (ys ++ b :: zs)) : Ring (l.unlink b) (ys ++ zs) := by
  have hnext := h.next rfl
  have hprev := h.prev rfl
  -- the neighbours of b are others
  have hnb : zs.head? ≠ some b := fun heq =>
    (nodup_cons.mp (nodup_append.mp h.nodup).2.1).1 (mem_of_mem_head? (by simp [heq]))
  refine of_visits (h.nodup.sublist (by simp)) ?_ ?_
  · simp only [Links.unlink, hnext, hprev, update_of_ne hnb.symm]
    exact h.visits.unlink h.nodup
  · have hback := h.visits_reverse
    rw [reverse_append, reverse_cons, append_assoc] at hback
    have := hback.unlink (by simpa using nodup_reverse.mpr h.nodup)
    simpa [Links.unlink, hnext, hprev] using this

theorem pushFront (h : Ring l xs) (hb : b ∉ xs) : Ring (l.pushFront b) (b :: xs) := by
  refine of_visits (nodup_cons.mpr ⟨hb, h.nodup⟩) (fun ys zs heq => ?_) fun ys zs heq => ?_
  · simp only [Links.pushFront, h.first]
    rcases cons_eq_append_iff.mp heq with ⟨rfl, rfl⟩ | ⟨ys, rfl, rfl⟩
    · simp
    · rcases eq_nil_or_concat' ys with rfl | ⟨us, c, rfl⟩
      · simp
      · have hc : some c ≠ some b := by
          rintro ⟨⟩
          simp at hb
        rw [← cons_append, getLast?_concat, update_of_ne (by simp), update_of_ne hc,
          h.visits (us ++ [c]) zs rfl |>.symm, getLast?_concat]
  · have hhead : xs.head? = xs.reverse.getLast? := by simp
    simp only [Links.pushFront, ne_eq, reduceCtorEq, not_false_eq_true, update_of_ne, h.first, hhead]
    rw [reverse_cons] at heq
    rcases eq_nil_or_concat' zs with rfl | ⟨ws, c, rfl⟩
    · obtain rfl : ys = xs.reverse ++ [b] := by simpa using heq.symm
      have hne : some b ≠ xs.reverse.getLast? := fun hlast => hb (by simpa using mem_of_getLast? hlast.symm)
      rw [getLast?_concat, update_of_ne hne, update_self]
      rfl
    · obtain ⟨hxs, rfl⟩ : xs.reverse = ys ++ ws ∧ b = c := by simpa [← append_assoc] using heq
      rw [hxs]
      cases ws with
      | nil => simp
      | cons w ws =>
        have hys : ys.getLast? ≠ some b := fun hlast =>
          hb (mem_reverse.mp (hxs ▸ mem_append_left _ (mem_of_getLast? hlast)))
        rw [update_of_ne (getLast?_ne (hxs ▸ nodup_reverse.mpr h.nodup)), update_of_ne hys,
          h.visits_reverse ys (w :: ws) hxs]
        rfl

theorem foldl_pushFront (h : Ring l xs) (hnodup : (zs ++ xs).Nodup) :
    Ring (zs.foldl Links.pushFront l) (zs.reverse ++ xs) := by
  induction zs generalizing l xs with
  | nil => simpa using h
  | cons z zs ih =>
    have hz : z ∉ zs ++ xs := (nodup_cons.mp hnodup).1
    have hnext := ih (h.pushFront fun hc => hz (by simp [hc])) (nodup_middle.mpr hnodup)
    simpa using hnext

theorem moveFront (h : Ring l xs) (hb : b ∈ xs) : Ring ((l.unlink b).pushFront b) (b :: xs.erase b) := by
  obtain ⟨ys, zs, rfl⟩ := append_of_mem hb
  have hnodup := nodup_append.mp h.nodup
  have hys : b ∉ ys := fun hc => hnodup.2.2 b hc b (by simp) rfl
  rw [erase_append_right _ hys, erase_cons_head]
  exact h.unlink.pushFront (by simp [hys, (nodup_cons.mp hnodup.2.1).1])

end Ring

end Xv6.Lib
