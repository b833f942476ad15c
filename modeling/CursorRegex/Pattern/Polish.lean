import CursorRegex.Pattern.Token

/-! Patterns in reverse Polish order. An operator waits on a stack until everything that binds at
least as tightly has been settled; concatenation is written nowhere and comes in wherever an operand
follows an operand. The order does not depend on the direction a program is built for, nor on what
the operators build. -/
set_option autoImplicit false

namespace CursorRegex

inductive Operator where
  | group
  | alternate
  | concat
  | quantify (q : Quantifier)
deriving DecidableEq

namespace Operator

/-- How tightly an operator binds. Of two quantifiers on one operand the tighter applies first,
whichever is written first. -/
def rank : Operator → Nat
  | .group => 0
  | .alternate => 1
  | .concat => 2
  | .quantify .star => 3
  | .quantify .plus => 4
  | .quantify .quest => 5

def symbol? : Operator → Option Char
  | .group => some '('
  | .alternate => some '|'
  | .concat => none
  | .quantify .star => some '*'
  | .quantify .plus => some '+'
  | .quantify .quest => some '?'

end Operator

/-- An operator that waits for its operands. `group` numbers the group opened last, if it is one of
those that are recorded. -/
structure Pending where
  op : Operator
  span : Span
  group : Option Nat
deriving DecidableEq

def Pending.missingOperand (p : Pending) : SyntaxError :=
  ⟨p.span, match p.op.symbol? with
    | some symbol => .missingOperand symbol
    | none => .malformed⟩

inductive Step where
  | atom (a : Atom)
  | apply (p : Pending)
deriving DecidableEq

/-- The steps that some reading settles, and then its result or the cause that ends it. The steps
come first: whoever follows them may fail before the cause is reached. -/
structure Polish (α : Type) where
  steps : List Step
  result : Except Cause α

namespace Polish

variable {α β : Type}

def pure (a : α) : Polish α := ⟨[], .ok a⟩

def fail (cause : Cause) : Polish α := ⟨[], .error cause⟩

def andThen (first : Polish α) (next : α → Polish β) : Polish β :=
  match first.result with
  | .error cause => ⟨first.steps, .error cause⟩
  | .ok a =>
    let second := next a
    ⟨first.steps ++ second.steps, second.result⟩

end Polish

/-- The state of reading: the operators that wait, the latest first, whether the last thing read can
be an operand, how many groups were opened so far, and the spans of those still open, the innermost
first. -/
structure Reader where
  pending : List Pending
  afterOperand : Bool
  groups : Nat
  opened : List Span

namespace Reader

def start : Reader := ⟨[], false, 0, []⟩

/-- Puts an operator on the stack, whose bottom place is never free. -/
def push (limit : Nat) (op : Operator) (span : Span) (r : Reader) : Polish Reader :=
  if limit ≤ r.pending.length + 1 then .fail (.operatorOverflow limit)
  else
    .pure { r with pending := ⟨op, span, if r.groups < 10 then some r.groups else none⟩ :: r.pending }

/-- Settles the waiting operators that bind at least as tightly as `op`. -/
def release (op : Operator) (r : Reader) : Polish Reader :=
  ⟨(r.pending.takeWhile (op.rank ≤ ·.op.rank)).map .apply,
    .ok { r with pending := r.pending.dropWhile (op.rank ≤ ·.op.rank) }⟩

def between (limit : Nat) (op : Operator) (span : Span) (r : Reader) : Polish Reader :=
  (r.release op).andThen fun r => { r with afterOperand := false }.push limit op span

def quantify (limit : Nat) (q : Quantifier) (span : Span) (r : Reader) : Polish Reader :=
  (r.release (.quantify q)).andThen fun r =>
    { r with afterOperand := true }.push limit (.quantify q) span

def joined (limit : Nat) (span : Span) (r : Reader) : Polish Reader :=
  if r.afterOperand then r.between limit .concat span else .pure r

def atom (limit : Nat) (a : Atom) (span : Span) (r : Reader) : Polish Reader :=
  (r.joined limit span).andThen fun r => ⟨[.atom a], .ok { r with afterOperand := true }⟩

def openGroup (limit : Nat) (span : Span) (r : Reader) : Polish Reader :=
  ({ r with groups := r.groups + 1, opened := span :: r.opened }.joined limit span).andThen fun r =>
    { r with afterOperand := false }.push limit .group span

def closeGroup (span : Span) (r : Reader) : Polish Reader :=
  match r.opened with
  | [] => .fail (.illFormed ⟨span, .unmatchedClose⟩)
  | _ :: opened =>
    let inside := r.pending.takeWhile (·.op ≠ .group)
    match r.pending.dropWhile (·.op ≠ .group) with
    | [] => ⟨inside.map .apply, .error (.internal .operatorUnderflow)⟩
    | group :: outside =>
      ⟨(inside ++ [group]).map .apply,
        .ok { r with pending := outside, afterOperand := true, opened := opened }⟩

def token (limit : Nat) (t : Token) (r : Reader) : Polish Reader :=
  match t.kind with
  | .atom a => r.atom limit a t.span
  | .quantifier q => r.quantify limit q t.span
  | .bar => r.between limit .alternate t.span
  | .openParen => r.openGroup limit t.span
  | .closeParen => r.closeGroup t.span

def tokens (limit : Nat) (r : Reader) : List Token → Polish Reader
  | [] => .pure r
  | t :: ts => (r.token limit t).andThen (tokens limit · ts)

/-- Settles what still waits at the end of the pattern. The result is the operator that joins the
whole to what ends a program, if there is anything to join. -/
def finish (limit : Nat) (span : Span) (r : Reader) : Polish (Option Pending) :=
  match r.opened with
  | innermost :: _ => .fail (.illFormed ⟨innermost, .unmatchedOpen⟩)
  | [] =>
    let settled : Polish Reader := ⟨r.pending.map .apply, .ok { r with pending := [] }⟩
    settled.andThen fun r => (r.joined limit span).andThen fun r => .pure r.pending.head?

end Reader

def Polish.ofTokens (limit length : Nat) (tokens : List Token) : Polish (Option Pending) :=
  (Reader.start.tokens limit tokens).andThen (·.finish limit ⟨length, length⟩)

end CursorRegex
