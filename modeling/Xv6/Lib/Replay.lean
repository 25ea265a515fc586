import Mathlib.Tactic.Common

namespace Xv6.Lib

open Function

variable {α β : Type*} [DecidableEq α]

def replay (f : α → β) (writes : List (α × β)) : α → β :=
  writes.foldl (fun g w => update g w.1 w.2) f

@[simp] theorem replay_nil (f : α → β) : replay f [] = f := rfl

theorem replay_append (f : α → β) (first second : List (α × β)) :
    replay f (first ++ second) = replay (replay f first) second :=
  List.foldl_append ..

theorem replay_concat (f : α → β) (writes : List (α × β)) (a : α) (b : β) :
    replay f (writes ++ [(a, b)]) = update (replay f writes) a b := by
  rw [replay_append]
  rfl

theorem replay_of_notMem (f : α → β) (writes : List (α × β)) (a : α)
    (h : a ∉ writes.map Prod.fst) : replay f writes a = f a := by
  induction writes generalizing f with
  | nil => rfl
  | cons w writes ih =>
    simp only [List.map_cons, List.mem_cons, not_or] at h
    calc replay f (w :: writes) a
        = replay (update f w.1 w.2) writes a := rfl
      _ = update f w.1 w.2 a := ih _ h.2
      _ = f a := update_of_ne h.1 _ _

end Xv6.Lib
