import CursorRegex.Fault

/-! Character classes, the meaning of bracket expressions. A class lists characters and ranges of
characters; an instruction refers to it by its place in the class table and says whether it wants
the characters inside or outside the list. -/
set_option autoImplicit false

namespace CursorRegex

inductive ClassItem where
  | char (c : Char)
  /-- Both ends belong to the range; one whose ends are out of order is empty. -/
  | range (lo hi : Char)
deriving DecidableEq

def ClassItem.contains : ClassItem → Char → Bool
  | .char x, c => x == c
  | .range lo hi, c => decide (lo ≤ c) && decide (c ≤ hi)

structure CharClass where
  items : List ClassItem
deriving DecidableEq

namespace CharClass

/-- A class meant to be negated lists the newline as well, so that what is outside the class never
includes a newline. -/
def ofItems (negated : Bool) (items : List ClassItem) : CharClass :=
  ⟨if negated then .char '\n' :: items else items⟩

def contains (cls : CharClass) (c : Char) : Bool := cls.items.any (·.contains c)

def accepts (cls : CharClass) (negated : Bool) (c : Char) : Bool := cls.contains c != negated

end CharClass

structure ClassTable where
  classes : Array CharClass
deriving DecidableEq

namespace ClassTable

def ofList (classes : List CharClass) : ClassTable := ⟨classes.toArray⟩

def size (table : ClassTable) : Nat := table.classes.size

def accepts (table : ClassTable) (id : Nat) (negated : Bool) (c : Char) : Except Fault Bool :=
  match table.classes[id]? with
  | none => .error (.noClass id)
  | some cls => .ok (cls.accepts negated c)

end ClassTable

end CursorRegex
