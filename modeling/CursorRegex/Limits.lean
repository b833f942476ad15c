/-! How much room a pattern may take. -/
set_option autoImplicit false

namespace CursorRegex

structure Limits where
  /-- The most instructions a pattern may compile to, both programs together. -/
  instructions : Nat := 1024
  /-- The most entries on each of the two stacks used while compiling. -/
  stack : Nat := 20
  /-- The most threads that may be alive at one position of a text. -/
  threads : Nat := 127
deriving DecidableEq

end CursorRegex
