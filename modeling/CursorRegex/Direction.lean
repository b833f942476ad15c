/-! The two directions a text is searched in. -/
set_option autoImplicit false

namespace CursorRegex

inductive Direction where
  | forward
  | backward
deriving DecidableEq

namespace Direction

/-- An attempt that began at `new` is preferred to one that began at `old` if it began further back
against the direction of the search. -/
def prefers : Direction → Nat → Nat → Bool
  | .forward, new, old => decide (new < old)
  | .backward, new, old => decide (old < new)

theorem prefers_irrefl (dir : Direction) (seed : Nat) : dir.prefers seed seed = false := by
  cases dir <;> simp [prefers]

theorem prefers_trans {dir : Direction} {a b c : Nat} (hab : dir.prefers a b = true)
    (hbc : dir.prefers b c = true) : dir.prefers a c = true := by
  cases dir <;> simp only [prefers, decide_eq_true_eq] at * <;> omega

end Direction

end CursorRegex
