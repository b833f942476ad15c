import CursorRegex.Fault

/-! Why a search stops before its end. -/
set_option autoImplicit false

namespace CursorRegex

/-- Either a list of threads is full, and what was there is left as it is, or a reference led
nowhere. -/
inductive Halt (σ : Type) where
  | overflow (left : σ)
  | fault (cause : Fault)

namespace Halt

variable {σ τ : Type}

def map (f : σ → τ) : Halt σ → Halt τ
  | .overflow left => .overflow (f left)
  | .fault cause => .fault cause

end Halt

end CursorRegex
