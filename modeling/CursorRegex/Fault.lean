/-! References that lead nowhere. Nothing a compiled pattern does raises one: they exist so that the
operations that follow a reference say what they rely on, and so that an arena assembled by hand can
be driven past its edge with a defined answer. -/
set_option autoImplicit false

namespace CursorRegex

inductive Fault where
  /-- The arena holds no instruction at `index`. -/
  | noInstruction (index : Nat)
  /-- The instruction at `index` has no successor. -/
  | unlinked (index : Nat)
  /-- The class table has no entry `id`. -/
  | noClass (id : Nat)
  /-- Groups are recorded under the numbers 1 to 9 only. -/
  | noGroup (group : Nat)
  /-- A thread list points at a place that holds no thread. -/
  | noThread (place : Nat)
  /-- The text has no character at `pos`. -/
  | noCharacter (pos : Nat)
  /-- Following links through empty instructions never reaches another kind of instruction. -/
  | endlessChain
  /-- A thread went through more instructions than there are without reading a character. -/
  | endlessRun
  /-- A group is closed that no pending operator opened. -/
  | operatorUnderflow
  /-- Assembly ended with this many operands instead of one. -/
  | operandsLeft (count : Nat)
deriving DecidableEq

end CursorRegex
