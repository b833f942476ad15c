/-! Half-open ranges of positions. They count bytes where they point into a pattern, and characters
where they point into a text. -/
set_option autoImplicit false

namespace CursorRegex

structure Span where
  start : Nat
  stop : Nat
deriving DecidableEq

end CursorRegex
