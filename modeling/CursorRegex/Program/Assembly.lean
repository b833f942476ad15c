import CursorRegex.Direction
import CursorRegex.Limits
import CursorRegex.Pattern.Polish
import CursorRegex.Program.Arena

/-! Programs from reverse Polish sequences. Each operand is a fragment of a program, entered at its
first instruction and left at its last, whose successor is still open. Built for the backward
direction, a concatenation enters its second operand first. -/
set_option autoImplicit false

namespace CursorRegex

structure Fragment where
  first : Nat
  last : Nat
deriving DecidableEq

namespace Fragment

def single (i : Nat) : Fragment := ⟨i, i⟩

end Fragment

namespace Arena

def connect (source target : Nat) (a : Arena) : Except Cause Arena :=
  (a.link source target).mapError .internal

def ofGroup (limit : Nat) (group : Option Nat) (body : Fragment) (a : Arena) :
    Except Cause (Fragment × Arena) := do
  let (close, a) ← a.alloc limit (.closeGroup group)
  let a ← a.connect body.last close
  let (opening, a) ← a.alloc limit (.openGroup group)
  let a ← a.connect opening body.first
  return (⟨opening, close⟩, a)

/-- Tries the second alternative first. -/
def ofAlternate (limit : Nat) (fst snd : Fragment) (a : Arena) : Except Cause (Fragment × Arena) := do
  let (exit, a) ← a.alloc limit .empty
  let a ← a.connect snd.last exit
  let a ← a.connect fst.last exit
  let (fork, a) ← a.alloc limit (.fork fst.first)
  let a ← a.connect fork snd.first
  return (⟨fork, exit⟩, a)

def ofSequence (fst snd : Fragment) (a : Arena) : Except Cause (Fragment × Arena) := do
  let a ← a.connect fst.last snd.first
  return (⟨fst.first, snd.last⟩, a)

def ofQuantified (limit : Nat) (q : Quantifier) (body : Fragment) (a : Arena) :
    Except Cause (Fragment × Arena) := do
  let (fork, a) ← a.alloc limit (.fork body.first)
  match q with
  | .star =>
    let a ← a.connect body.last fork
    return (.single fork, a)
  | .plus =>
    let a ← a.connect body.last fork
    return (⟨body.first, fork⟩, a)
  | .quest =>
    let (exit, a) ← a.alloc limit .empty
    let a ← a.connect fork exit
    let a ← a.connect body.last exit
    return (⟨fork, exit⟩, a)

end Arena

structure Assembly where
  arena : Arena
  operands : List Fragment

namespace Assembly

def push (limits : Limits) (operands : List Fragment) : Fragment × Arena → Except Cause Assembly
  | (f, a) =>
    if limits.stack ≤ operands.length then .error (.operandOverflow limits.stack)
    else .ok ⟨a, f :: operands⟩

def pushSingle (limits : Limits) (kind : Kind) : Assembly → Except Cause Assembly
  | ⟨a, operands⟩ => do
    let (i, a) ← a.alloc limits.instructions kind
    push limits operands (.single i, a)

def apply (limits : Limits) (dir : Direction) (p : Pending) : Assembly → Except Cause Assembly
  | ⟨a, operands⟩ =>
    match p.op, operands with
    | .group, body :: rest => do push limits rest (← a.ofGroup limits.instructions p.group body)
    | .alternate, snd :: fst :: rest => do
      push limits rest (← a.ofAlternate limits.instructions fst snd)
    | .concat, snd :: fst :: rest => do
      match dir with
      | .forward => push limits rest (← a.ofSequence fst snd)
      | .backward => push limits rest (← a.ofSequence snd fst)
    | .quantify q, body :: rest => do
      push limits rest (← a.ofQuantified limits.instructions q body)
    | _, _ => .error (.illFormed p.missingOperand)

def step (limits : Limits) (dir : Direction) (assembly : Assembly) : Step → Except Cause Assembly
  | .atom a => assembly.pushSingle limits (.atom a)
  | .apply p => assembly.apply limits dir p

/-- Puts the accepting instruction behind the operand that `joint` asks for, in both directions, and
gives the entry of the one fragment that is left. -/
def finish (limits : Limits) (joint : Option Pending) (assembly : Assembly) :
    Except Cause (Nat × Arena) := do
  let assembly ← assembly.pushSingle limits .accept
  let assembly ← match joint with
    | none => pure assembly
    | some p => assembly.apply limits .forward p
  match assembly.operands with
  | [f] => return (f.first, assembly.arena)
  | operands => throw (.internal (.operandsLeft operands.length))

def run (limits : Limits) (dir : Direction) (polish : Polish (Option Pending)) (a : Arena) :
    Except Cause (Nat × Arena) := do
  let assembly ← polish.steps.foldlM (step limits dir) ⟨a, []⟩
  let joint ← polish.result
  assembly.finish limits joint

end Assembly

end CursorRegex
