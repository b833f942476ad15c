import CursorRegex.Direction
import CursorRegex.Program.Basic
import CursorRegex.Search.Text

/-! A position of a search and what an atom makes of it. -/
set_option autoImplicit false

namespace CursorRegex

/-- A position, and the character behind it in the direction of the search, unless the search ends
here. -/
structure Cursor where
  text : Text
  dir : Direction
  pos : Nat
  ahead : Option Char

/-- What an atom does with a thread: let it pass, take the character ahead, or end it. -/
inductive Verdict where
  | pass
  | take
  | stop
deriving DecidableEq

namespace Cursor

def before (c : Cursor) : Except Fault (Option Char) :=
  match c.dir with
  | .forward => if c.pos = 0 then .ok none else (c.text.charAt (c.pos - 1)).map some
  | .backward => .ok c.ahead

def after (c : Cursor) : Except Fault (Option Char) :=
  match c.dir with
  | .forward => .ok c.ahead
  | .backward => if c.pos < c.text.length then (c.text.charAt c.pos).map some else .ok none

/-- A line starts at the start of the text and after each newline. -/
def atLineStart (c : Cursor) : Except Fault Bool :=
  if c.pos = 0 then .ok true else c.before.map (· == some '\n')

/-- A line ends before each newline, and not at the end of the text. -/
def atLineEnd (c : Cursor) : Except Fault Bool := c.after.map (· == some '\n')

def passIf (holds : Bool) : Verdict := if holds then .pass else .stop

def takeIf (holds : Bool) : Verdict := if holds then .take else .stop

def verdict (classes : ClassTable) (c : Cursor) : Atom → Except Fault Verdict
  | .lineStart => c.atLineStart.map passIf
  | .lineEnd => c.atLineEnd.map passIf
  | .char x => .ok (takeIf (c.ahead == some x))
  | .any => .ok (takeIf (c.ahead.any (· != '\n')))
  | .set id negated =>
    match c.ahead with
    | none => .ok .stop
    | some x => (classes.accepts id negated x).map takeIf

end Cursor

end CursorRegex
