import CursorRegex.Pattern.Grammar
import CursorRegex.Search.Text

/-! Which ranges of a text a pattern matches, said without programs and searches. A line starts at
the start of the text and after a newline, and ends before a newline only. -/
set_option autoImplicit false

namespace CursorRegex

def Text.take (n : Nat) (text : Text) : Text :=
  ⟨min n text.length, fun pos => if pos < n then text.charAt? pos else none⟩

/-- One of the items is the character, or a range it lies in.  A range whose ends are out of order has
none. -/
def Covers (items : List ClassItem) (c : Char) : Prop :=
  .char c ∈ items ∨ ∃ lo hi, .range lo hi ∈ items ∧ lo.toNat ≤ c.toNat ∧ c.toNat ≤ hi.toNat

/-- The class with this place in the class table has `c` on the side that is asked for.  A newline is
outside no class. -/
def ClassTable.Accepts (classes : ClassTable) (id : Nat) (negated : Bool) (c : Char) : Prop :=
  ∃ cls, classes.classes[id]? = some cls ∧
    if negated then c ≠ '\n' ∧ ¬ Covers cls.items c else Covers cls.items c

inductive Atom.Matches (classes : ClassTable) (text : Text) : Atom → Nat → Nat → Prop where
  | char {c : Char} {i : Nat} (at_i : text.charAt? i = some c) : Matches classes text (.char c) i (i + 1)
  | any {c : Char} {i : Nat} (at_i : text.charAt? i = some c) (ne : c ≠ '\n') :
      Matches classes text .any i (i + 1)
  | set {c : Char} {i id : Nat} {negated : Bool} (at_i : text.charAt? i = some c)
      (accepts : classes.Accepts id negated c) : Matches classes text (.set id negated) i (i + 1)
  | textStart : Matches classes text .lineStart 0 0
  | lineStart {i : Nat} (at_i : text.charAt? i = some '\n') :
      Matches classes text .lineStart (i + 1) (i + 1)
  | lineEnd {i : Nat} (at_i : text.charAt? i = some '\n') : Matches classes text .lineEnd i i

inductive Tree.Matches (classes : ClassTable) (text : Text) : Tree → Nat → Nat → Prop where
  | atom {a : Atom} {i j : Nat} (inner : a.Matches classes text i j) : Matches classes text (.atom a) i j
  | group {opening : Span} {t : Tree} {i j : Nat} (inner : Matches classes text t i j) :
      Matches classes text (.group opening t) i j
  | sequence {t u : Tree} {i j k : Nat} (fst : Matches classes text t i j)
      (snd : Matches classes text u j k) : Matches classes text (.sequence t u) i k
  | alternateLeft {t u : Tree} {i j : Nat} (inner : Matches classes text t i j) :
      Matches classes text (.alternate t u) i j
  | alternateRight {t u : Tree} {i j : Nat} (inner : Matches classes text u i j) :
      Matches classes text (.alternate t u) i j
  | never {q : Quantifier} {t : Tree} {i : Nat} (optional : q ≠ .plus) (bound : i ≤ text.length) :
      Matches classes text (.repeated q t) i i
  | once {q : Quantifier} {t : Tree} {i j : Nat} (inner : Matches classes text t i j) :
      Matches classes text (.repeated q t) i j
  | again {q : Quantifier} {t : Tree} {i j k : Nat} (endless : q ≠ .quest)
      (fst : Matches classes text t i j) (more : Matches classes text (.repeated q t) j k) :
      Matches classes text (.repeated q t) i k

/-- What a whole pattern matches; the empty pattern matches the empty range everywhere. -/
def MatchesAt (classes : ClassTable) (text : Text) : Option Tree → Nat → Nat → Prop
  | none, i, j => i = j ∧ i ≤ text.length
  | some t, i, j => t.Matches classes text i j

end CursorRegex
