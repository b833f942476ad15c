import CursorRegex.Fault

/-! The text a search reads: its length, and a character for each position below that. -/
set_option autoImplicit false

namespace CursorRegex

structure Text where
  length : Nat
  charAt? : Nat → Option Char

namespace Text

def ofArray (cs : Array Char) : Text := ⟨cs.size, fun pos => cs[pos]?⟩

def ofString (s : String) : Text := ofArray s.toList.toArray

def isEmpty (t : Text) : Bool := t.length == 0

def charAt (t : Text) (pos : Nat) : Except Fault Char :=
  match t.charAt? pos with
  | none => .error (.noCharacter pos)
  | some c => .ok c

end Text

end CursorRegex
