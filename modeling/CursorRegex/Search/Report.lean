import CursorRegex.Search.Captures

/-! What a search tells. -/
set_option autoImplicit false

namespace CursorRegex

inductive Event where
  /-- The search reached the end of the text at `pos`, in its direction, and goes on from the other
  end; backward, `pos` is the end it goes on from. -/
  | wrapped (dir : Direction) (pos : Nat)
  /-- More threads were alive at one position than the limits allow. -/
  | listOverflow
deriving DecidableEq

def Event.message : Event → String
  | .wrapped .forward pos => "trace: forward search wrapped around from " ++ toString pos
  | .wrapped .backward pos => "trace: backward search wrapped around to " ++ toString pos
  | .listOverflow => "warn: regexp list overflow"

structure Report where
  found : Option Captures
  log : List Event
deriving DecidableEq

end CursorRegex
