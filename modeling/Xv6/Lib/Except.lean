import Mathlib.Tactic.Common

namespace Xv6.Lib

variable {ε α β : Type}

@[simp] theorem ok_bind (a : α) (f : α → Except ε β) : (Except.ok a >>= f) = f a := rfl

@[simp] theorem error_bind (e : ε) (f : α → Except ε β) : (Except.error e >>= f) = .error e := rfl

@[simp] theorem pure_eq_ok (a : α) : (pure a : Except ε α) = .ok a := rfl

theorem return_eq_ok : (pure a : Except ε α) = .ok b ↔ a = b := by
  rw [pure_eq_ok, Except.ok.injEq]

theorem return_pair_eq_ok :
    (pure (a, b) : Except ε (α × β)) = .ok (c, d) ↔ a = c ∧ b = d := by
  rw [return_eq_ok, Prod.mk.injEq]

@[simp] theorem throw_eq_error (e : ε) : (throw e : Except ε α) = .error e := rfl

theorem bind_eq_ok {x : Except ε α} {f : α → Except ε β} {b : β} :
    (x >>= f) = .ok b ↔ ∃ a, x = .ok a ∧ f a = .ok b := by
  cases x with
  | error e => simp
  | ok a => simp

theorem bind_return_eq_ok {x : Except ε α} {g : α → β} {b : β} :
    (do let a ← x; return g a) = .ok b ↔ ∃ a, x = .ok a ∧ g a = b := by
  simp only [bind_eq_ok, return_eq_ok]

theorem bind_eq_error {x : Except ε α} {f : α → Except ε β} {e : ε} :
    (x >>= f) = .error e ↔ x = .error e ∨ ∃ a, x = .ok a ∧ f a = .error e := by
  cases x with
  | error e' => simp
  | ok a => simp

theorem map_eq_ok {x : Except ε α} {f : α → β} {b : β} : x.map f = .ok b ↔ ∃ a, x = .ok a ∧ f a = b := by
  cases x with
  | error e => simp [Except.map]
  | ok a => simp [Except.map]

theorem mapError_eq_ok {δ : Type} {x : Except ε α} {f : ε → δ} {a : α} : x.mapError f = .ok a ↔ x = .ok a := by
  cases x with
  | error e => simp [Except.mapError]
  | ok a' => simp [Except.mapError]

theorem mapError_eq_error {δ : Type} {x : Except ε α} {f : ε → δ} {d : δ} :
    x.mapError f = .error d ↔ ∃ e, x = .error e ∧ f e = d := by
  cases x with
  | error e => simp [Except.mapError]
  | ok a => simp [Except.mapError]

theorem toOption_map_eq_some {x : Except ε α} {f : α → β} {b : β} :
    x.toOption.map f = some b ↔ ∃ a, x = .ok a ∧ f a = b := by
  cases x with
  | error e => simp [Except.toOption]
  | ok a => simp [Except.toOption]

def failure : Except ε α → Option ε
  | .ok _ => none
  | .error e => some e

theorem failure_eq_some : failure x = some e ↔ x = .error e := by
  cases x with
  | error e' => simp [failure]
  | ok a => simp [failure]

end Xv6.Lib
