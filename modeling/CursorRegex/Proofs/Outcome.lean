import CursorRegex.Search.Halt
import Mathlib.Control.Monad.Basic

/-! # Computations that may fail

What it takes for a sequence of computations to end well.  `Concludes` says what holds of the result and
what of the error.  A search may also halt because a list is full; `Achieves` says what holds in either
case, and that nothing else happens. -/
set_option autoImplicit false

namespace CursorRegex

section

variable {ε ε' α β : Type}

theorem bind_eq_ok {x : Except ε α} {f : α → Except ε β} {b : β} :
    (x >>= f) = .ok b ↔ ∃ a, x = .ok a ∧ f a = .ok b := by
  cases x with
  | error e => simp [bind, Except.bind]
  | ok a => simp [bind, Except.bind]

theorem map_eq_ok {x : Except ε α} {f : α → β} {b : β} :
    x.map f = .ok b ↔ ∃ a, x = .ok a ∧ f a = b := by
  cases x with
  | error e => simp [Except.map]
  | ok a => simp [Except.map]

theorem map_eq_error {x : Except ε α} {f : α → β} {e : ε} : x.map f = .error e ↔ x = .error e := by
  cases x with
  | error e => simp [Except.map]
  | ok a => simp [Except.map]

theorem mapError_bind {g : ε → ε'} {x : Except ε α} {a : α} (ends : x = .ok a)
    (f : α → Except ε' β) : (x.mapError g >>= f) = f a := by
  rw [ends]
  rfl

theorem bind_pure_eq_map (x : Except ε α) (f : α → β) : (x >>= fun a => pure (f a)) = x.map f := by
  cases x <;> rfl

theorem mapError_eq_ok {x : Except ε α} {f : ε → ε'} {a : α} :
    x.mapError f = .ok a ↔ x = .ok a := by
  cases x with
  | error e =>
    constructor
    · intro h
      cases h
    · intro h
      cases h
  | ok a' =>
    constructor
    · intro h
      cases h
      rfl
    · intro h
      cases h
      rfl

end

/-- The computation gives a result with `post`, or fails with a cause that `failed` admits. -/
def Concludes {ε α : Type} (failed : ε → Prop) (post : α → Prop) : Except ε α → Prop
  | .ok a => post a
  | .error e => failed e

namespace Concludes

variable {ε α β : Type} {failed failed' : ε → Prop} {mid post : α → Prop} {x : Except ε α}

theorem mono (h : Concludes failed mid x) (fails : ∀ e, failed e → failed' e)
    (weaken : ∀ a, mid a → post a) : Concludes failed' post x := by
  cases x with
  | error e => exact fails e h
  | ok a => exact weaken a h

/-- How a computation fails and what it results in may be shown apart. -/
theorem of_ok (h : Concludes failed mid x) (gives : ∀ a, x = .ok a → post a) :
    Concludes failed post x := by
  cases x with
  | error e => exact h
  | ok a => exact gives a rfl

theorem bind {post : β → Prop} {f : α → Except ε β} (h : Concludes failed mid x)
    (next : ∀ a, mid a → Concludes failed post (f a)) : Concludes failed post (x >>= f) := by
  cases x with
  | error e => exact h
  | ok a => exact next a h

end Concludes

/-- The computation gives a result with `post`, or halts at a full list and leaves `halted`; it raises no
fault. -/
def Achieves {σ α : Type} (halted : σ → Prop) (post : α → Prop) : Except (Halt σ) α → Prop
  | .ok a => post a
  | .error (.overflow left) => halted left
  | .error (.fault _) => False

namespace Achieves

variable {σ α β : Type} {halted : σ → Prop} {mid post : α → Prop} {x : Except (Halt σ) α}

theorem mono (h : Achieves halted mid x) (weaken : ∀ a, mid a → post a) : Achieves halted post x := by
  match x, h with
  | .ok a, h => exact weaken a h
  | .error (.overflow left), h => exact h

theorem bind {post : β → Prop} {f : α → Except (Halt σ) β} (h : Achieves halted mid x)
    (next : ∀ a, mid a → Achieves halted post (f a)) : Achieves halted post (x >>= f) := by
  match x, h with
  | .ok a, h => exact next a h
  | .error (.overflow left), h => exact h

theorem map {post : β → Prop} {f : α → β} (h : Achieves halted mid x)
    (next : ∀ a, mid a → post (f a)) : Achieves halted post (x.map f) := by
  match x, h with
  | .ok a, h => exact next a h
  | .error (.overflow left), h => exact h

theorem bind_mapError {y : Except Fault α} {a : α} {post : β → Prop}
    {f : α → Except (Halt σ) β} (ends : y = .ok a) (next : Achieves halted post (f a)) :
    Achieves halted post (y.mapError .fault >>= f) := by
  rw [ends]
  exact next

end Achieves

end CursorRegex
