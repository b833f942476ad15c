import CursorRegex.CharClass
import CursorRegex.Pattern.Error
import CursorRegex.Pattern.Glyph

/-! Bracket expressions. After the opening bracket comes an optional caret, then one or more items,
then the closing bracket. An item is a character or two characters with a dash between them. Only a
plain closing bracket, a plain dash and a backslash at the end of the pattern are no characters
there, and the upper end of a range may be a plain dash all the same. -/
set_option autoImplicit false

namespace CursorRegex

inductive BracketRole where
  | closing
  | dash
  | literal (c : Char)
  | broken
deriving DecidableEq

def Shape.bracketRole : Shape → BracketRole
  | .plain ']' => .closing
  | .plain '-' => .dash
  | .dangling => .broken
  | shape => .literal shape.value

/-- What is wrong with a bracket expression, and the byte where reading it stopped, unless that is
the end of the pattern. -/
inductive BracketFlaw where
  | unterminated
  | misplacedDash (stop : Nat)
  | empty (stop : Nat)
deriving DecidableEq

def BracketFlaw.toSyntaxError (start length : Nat) : BracketFlaw → SyntaxError
  | .unterminated => ⟨⟨start, length⟩, .unterminatedClass⟩
  | .misplacedDash stop => ⟨⟨start, stop⟩, .misplacedDash⟩
  | .empty stop => ⟨⟨start, stop⟩, .emptyClass⟩

structure BracketBody where
  items : List ClassItem
  stop : Nat
  rest : List Glyph

structure Bracket where
  negated : Bool
  body : BracketBody

namespace BracketBody

def cons (item : ClassItem) (body : BracketBody) : BracketBody :=
  { body with items := item :: body.items }

def read : List Glyph → Except BracketFlaw BracketBody
  | [] => .error .unterminated
  | g :: rest =>
    match g.shape.bracketRole with
    | .closing => .ok ⟨[], g.span.stop, rest⟩
    | .dash => .error (.misplacedDash g.span.stop)
    | .broken => .error .unterminated
    | .literal lo =>
      match rest with
      | [] => .error .unterminated
      | mid :: rest' =>
        if mid.shape = .plain '-' then
          match rest' with
          | [] => .error .unterminated
          | top :: rest'' =>
            match top.shape.bracketRole with
            | .closing => .error (.misplacedDash top.span.stop)
            | .broken => .error .unterminated
            | .dash => (read rest'').map (cons (.range lo '-'))
            | .literal hi => (read rest'').map (cons (.range lo hi))
        else (read (mid :: rest')).map (cons (.char lo))

private theorem eq_cons_of_map {result : Except BracketFlaw BracketBody} {item : ClassItem}
    {body : BracketBody} (h : result.map (cons item) = .ok body) :
    ∃ inner, result = .ok inner ∧ body = inner.cons item := by
  cases result with
  | error flaw => simp [Except.map] at h
  | ok inner => exact ⟨inner, rfl, by simpa [Except.map, eq_comm] using h⟩

theorem read_rest_length {gs : List Glyph} {body : BracketBody} (h : read gs = .ok body) :
    body.rest.length < gs.length := by
  fun_induction read gs generalizing body <;> grind [cons, eq_cons_of_map]

end BracketBody

namespace Bracket

/-- A plain caret right after the opening bracket negates the class. -/
def beginsNegated (gs : List Glyph) : Bool := gs.head?.any (·.shape = .plain '^')

def read (gs : List Glyph) : Except BracketFlaw Bracket :=
  let negated := beginsNegated gs
  match BracketBody.read (if negated then gs.tail else gs) with
  | .error flaw => .error flaw
  | .ok body => if body.items = [] then .error (.empty body.stop) else .ok ⟨negated, body⟩

def toClass (b : Bracket) : CharClass := .ofItems b.negated b.body.items

theorem read_rest_length {gs : List Glyph} {b : Bracket} (h : read gs = .ok b) :
    b.body.rest.length < gs.length := by
  have shorter : ∀ body, BracketBody.read (if beginsNegated gs then gs.tail else gs) = .ok body →
      body.rest.length < gs.length := fun body hbody => by
    have := BracketBody.read_rest_length hbody
    split at this
    · have := gs.length_tail
      omega
    · exact this
  unfold read at h
  grind

end Bracket

end CursorRegex
