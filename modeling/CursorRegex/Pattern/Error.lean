import CursorRegex.Span
import CursorRegex.Fault

/-! Why a pattern does not compile, in types first and in words second. -/
set_option autoImplicit false

namespace CursorRegex

inductive Flaw where
  | unmatchedOpen
  | unmatchedClose
  | missingOperand (symbol : Char)
  /-- An operand is missing where no operator is written. -/
  | malformed
  /-- The pattern ends inside a bracket expression. -/
  | unterminatedClass
  /-- A dash stands at an end of a bracket expression's items. -/
  | misplacedDash
  | emptyClass
deriving DecidableEq

def Flaw.message : Flaw → String
  | .unmatchedOpen => "unmatched `('"
  | .unmatchedClose => "unmatched `)'"
  | .missingOperand symbol => "missing operand for " ++ symbol.toString
  | .malformed => "malformed regexp"
  | .unterminatedClass | .misplacedDash => "malformed `[]'"
  | .emptyClass => "empty `[]'"

structure SyntaxError where
  span : Span
  flaw : Flaw
deriving DecidableEq

def SyntaxError.message (e : SyntaxError) : String :=
  e.flaw.message ++ " at offset " ++ toString e.span.start

inductive Audience where
  | configurer
  | patternWriter
deriving DecidableEq

inductive Hint where
  | escapeLiteral (name escaped : String)
  | escapeDash
  | raiseLimit (setting : String)
deriving DecidableEq

namespace Hint

def audience : Hint → Audience
  | .escapeLiteral .. | .escapeDash => .patternWriter
  | .raiseLimit _ => .configurer

def message : Hint → String
  | .escapeLiteral name escaped => "to match a literal " ++ name ++ ", use '" ++ escaped ++ "'"
  | .escapeDash => "to include a literal '-' in a character class, use '\\-'"
  | .raiseLimit setting =>
    "the pattern exceeds the configured `" ++ setting ++ "`; raise it with `RegexBuilder`"

end Hint

def Flaw.hints : Flaw → List Hint
  | .unmatchedOpen => [.escapeLiteral "open parenthesis" "\\("]
  | .unmatchedClose => [.escapeLiteral "close parenthesis" "\\)"]
  | .unterminatedClass => [.escapeLiteral "open bracket" "\\["]
  | .misplacedDash => [.escapeDash]
  | .missingOperand _ | .malformed | .emptyClass => []

inductive Cause where
  | illFormed (error : SyntaxError)
  | programTooLong (limit : Nat)
  | operandOverflow (limit : Nat)
  | operatorOverflow (limit : Nat)
  /-- A reference inside the compiler led nowhere. -/
  | internal (fault : Fault)
deriving DecidableEq

namespace Cause

def message : Cause → String
  | .illFormed e => e.message
  | .programTooLong limit => "expression too long (limit is " ++ toString limit ++ " instructions)"
  | .operandOverflow limit => "operand stack overflow (limit is " ++ toString limit ++ ")"
  | .operatorOverflow limit => "operator stack overflow (limit is " ++ toString limit ++ ")"
  | .internal _ => "internal fault"

def hints : Cause → List Hint
  | .illFormed e => e.flaw.hints
  | .programTooLong _ => [.raiseLimit "instruction_limit"]
  | .operandOverflow _ | .operatorOverflow _ => [.raiseLimit "stack_limit"]
  | .internal _ => []

def isLimit : Cause → Bool
  | .programTooLong _ | .operandOverflow _ | .operatorOverflow _ => true
  | .illFormed _ | .internal _ => false

end Cause

structure CompileError where
  pattern : String
  cause : Cause
deriving DecidableEq

namespace CompileError

def message (e : CompileError) : String := "regexp: " ++ e.cause.message

def hints (e : CompileError) : List Hint := e.cause.hints

end CompileError

end CursorRegex
