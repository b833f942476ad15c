import CursorRegex.Program.Assembly

/-! Compiled patterns: a program that reads the text forward, a program that reads it backward, and
the classes that both refer to. -/
set_option autoImplicit false

namespace CursorRegex

structure Program where
  arena : Arena
  classes : ClassTable
  forward : Nat
  backward : Nat
  /-- The number of groups whose spans are recorded. -/
  groups : Nat
  /-- The forward program comes first in the arena and has this many instructions. -/
  split : Nat
deriving DecidableEq

namespace Program

def entry (p : Program) : Direction → Nat
  | .forward => p.forward
  | .backward => p.backward

def build (limits : Limits) (dir : Direction) (polish : Polish (Option Pending)) (a : Arena) :
    Except Cause (Nat × Arena) := do
  let start := a.size
  let (entry, a) ← Assembly.run limits dir polish a
  match a.shorten start a.size with
  | (a, none) => return (entry, a)
  | (_, some fault) => throw (.internal fault)

def ofTokens (limits : Limits) (length : Nat) (tokens : Tokens) : Except Cause Program := do
  let polish := Polish.ofTokens limits.stack length tokens.list
  let (forward, a) ← build limits .forward polish .nil
  let split := a.size
  let (backward, a) ← build limits .backward polish a
  return ⟨a, .ofList tokens.classes, forward, backward, min tokens.groupCount 9, split⟩

def compile (limits : Limits) (pattern : String) : Except CompileError Program :=
  let result : Except Cause Program := do
    let tokens ← (Tokens.ofPattern pattern).mapError Cause.illFormed
    ofTokens limits pattern.utf8ByteSize tokens
  result.mapError (CompileError.mk pattern)

def summary (p : Program) : String :=
  toString p.split ++ " forward + " ++ toString (p.arena.size - p.split) ++
    " backward instructions, " ++ toString p.classes.size ++ " classes, " ++ toString p.groups ++
    " groups"

end Program

end CursorRegex
