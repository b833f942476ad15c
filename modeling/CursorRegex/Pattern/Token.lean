import CursorRegex.Pattern.Bracket

/-! The tokens of a pattern. Reading them settles escapes and bracket expressions; what is left are
atoms, quantifiers, bars and parentheses. -/
set_option autoImplicit false

namespace CursorRegex

inductive Atom where
  | char (c : Char)
  /-- Any character except newline. -/
  | any
  | lineStart
  | lineEnd
  /-- The characters inside the class with this place in the class table, or those outside. -/
  | set (id : Nat) (negated : Bool)
deriving DecidableEq

inductive Quantifier where
  | star
  | plus
  | quest
deriving DecidableEq

inductive TokenKind where
  | atom (a : Atom)
  | quantifier (q : Quantifier)
  | bar
  | openParen
  | closeParen
deriving DecidableEq

structure Token where
  span : Span
  kind : TokenKind
deriving DecidableEq

def Shape.tokenKind : Shape → TokenKind
  | .plain '*' => .quantifier .star
  | .plain '+' => .quantifier .plus
  | .plain '?' => .quantifier .quest
  | .plain '|' => .bar
  | .plain '(' => .openParen
  | .plain ')' => .closeParen
  | .plain '.' => .atom .any
  | .plain '^' => .atom .lineStart
  | .plain '$' => .atom .lineEnd
  | shape => .atom (.char shape.value)

structure Tokens where
  list : List Token
  classes : List CharClass
deriving DecidableEq

namespace Tokens

def cons (token : Token) (tokens : Tokens) : Tokens :=
  { tokens with list := token :: tokens.list }

def consBracket (start id : Nat) (b : Bracket) (tokens : Tokens) : Tokens :=
  ⟨⟨⟨start, b.body.stop⟩, .atom (.set id b.negated)⟩ :: tokens.list, b.toClass :: tokens.classes⟩

/-- Reads the tokens of glyphs that belong to a pattern of `length` bytes, giving the first class
among them the place `id`. -/
def read (length id : Nat) : List Glyph → Except SyntaxError Tokens
  | [] => .ok ⟨[], []⟩
  | g :: rest =>
    if g.shape = .plain '[' then
      match h : Bracket.read rest with
      | .error flaw => .error (flaw.toSyntaxError g.span.start length)
      | .ok b => (read length (id + 1) b.body.rest).map (consBracket g.span.start id b)
    else (read length id rest).map (cons ⟨g.span, g.shape.tokenKind⟩)
termination_by gs => gs.length
decreasing_by
  · have := Bracket.read_rest_length h
    simp only [List.length_cons]
    omega
  · simp

def groupCount (tokens : Tokens) : Nat := tokens.list.countP (·.kind = .openParen)

def ofPattern (pattern : String) : Except SyntaxError Tokens :=
  read pattern.utf8ByteSize 0 (Glyph.readAll 0 pattern.toList)

end Tokens

end CursorRegex
