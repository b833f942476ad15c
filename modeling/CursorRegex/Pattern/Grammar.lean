import CursorRegex.Pattern.Token

/-! The grammar of patterns, as a relation between tokens and trees. A pattern is a list of
alternatives, an alternative a sequence of repetitions, a repetition a single piece with quantifiers
behind it, and a single piece an atom or a pattern in parentheses. Alternatives and sequences lean to
the left, and the quantifier written last is outermost. -/
set_option autoImplicit false

namespace CursorRegex

/-- What a pattern that is not empty says. A group remembers the place of its opening parenthesis. -/
inductive Tree where
  | atom (a : Atom)
  | group (opening : Span) (body : Tree)
  | repeated (q : Quantifier) (body : Tree)
  | sequence (fst snd : Tree)
  | alternate (fst snd : Tree)
deriving DecidableEq

inductive Level where
  | alternation
  | concatenation
  | repetition
  | single
deriving DecidableEq

inductive Derives : Level → List Token → Tree → Prop where
  | atom (span : Span) (a : Atom) : Derives .single [⟨span, .atom a⟩] (.atom a)
  | group {ts : List Token} {t : Tree} (opening closing : Span) (inner : Derives .alternation ts t) :
      Derives .single (⟨opening, .openParen⟩ :: ts ++ [⟨closing, .closeParen⟩]) (.group opening t)
  | single {ts : List Token} {t : Tree} (inner : Derives .single ts t) : Derives .repetition ts t
  | repeated {ts : List Token} {t : Tree} (span : Span) (q : Quantifier)
      (inner : Derives .repetition ts t) :
      Derives .repetition (ts ++ [⟨span, .quantifier q⟩]) (.repeated q t)
  | repetition {ts : List Token} {t : Tree} (inner : Derives .repetition ts t) :
      Derives .concatenation ts t
  | sequence {ts us : List Token} {t u : Tree} (fst : Derives .concatenation ts t)
      (snd : Derives .repetition us u) : Derives .concatenation (ts ++ us) (.sequence t u)
  | concatenation {ts : List Token} {t : Tree} (inner : Derives .concatenation ts t) :
      Derives .alternation ts t
  | alternate {ts us : List Token} {t u : Tree} (span : Span) (fst : Derives .alternation ts t)
      (snd : Derives .concatenation us u) :
      Derives .alternation (ts ++ ⟨span, .bar⟩ :: us) (.alternate t u)

/-- The whole of a pattern's tokens: there may be none, or they derive from the loosest level. -/
def Parses (ts : List Token) : Option Tree → Prop
  | none => ts = []
  | some t => Derives .alternation ts t

end CursorRegex
