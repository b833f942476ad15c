import CursorRegex.Search.Board
import CursorRegex.Search.Report

/-! A search from one position. The first lap leads from the start to the end of the text, or of the
part that is searched. If it finds nothing a search may wrap around, and a second lap leads over the
whole text, but begins attempts only where the first did not. Places are counted by how many
characters are left to read, so that both directions run alike. -/
set_option autoImplicit false

namespace CursorRegex

/-- What stays the same during a search. Positions up to `extent` are searched; `first` is the
character every match has to begin with, if that is known. -/
structure Scan where
  program : Program
  text : Text
  dir : Direction
  extent : Nat
  entry : Nat
  first : Option Char

namespace Scan

variable {limit : Nat}

/-- The position from which `left` characters can be read. -/
def pos (s : Scan) (left : Nat) : Nat :=
  match s.dir with
  | .forward => s.extent - left
  | .backward => left

def leftAt (s : Scan) (pos : Nat) : Nat :=
  match s.dir with
  | .forward => s.extent - pos
  | .backward => pos

def ahead (s : Scan) : Nat → Except Fault (Option Char)
  | 0 => .ok none
  | left + 1 =>
    match s.dir with
    | .forward => (s.text.charAt (s.pos (left + 1))).map some
    | .backward => (s.text.charAt left).map some

/-- An attempt begins at each position a lap admits until there is a match. -/
def attempts (s : Scan) (admits : Nat → Bool) (left : Nat) (b : Board limit) : Bool :=
  b.best.isNone && admits (s.pos left)

/-- Without threads, a position need not be looked at whose character begins no match. -/
def skips (s : Scan) (ahead : Option Char) (b : Board limit) : Bool :=
  b.current.isEmpty && s.first.isSome && ahead != s.first

def seed (s : Scan) (admits : Nat → Bool) (left : Nat) (b : Board limit) :
    Except (Halt (Board limit)) (Board limit) :=
  if s.attempts admits left b then b.addCurrent s.dir 0 ⟨s.entry, s.pos left, .none⟩ else .ok b

def visit (s : Scan) (admits : Nat → Bool) (left : Nat) (b : Board limit) :
    Except (Halt (Board limit)) (Board limit) := do
  let ahead ← (s.ahead left).mapError .fault
  if s.skips ahead b then return b
  let b ← s.seed admits left b
  let b ← b.runFrom s.program ⟨s.text, s.dir, s.pos left, ahead⟩ 0
  return b.advance

/-- Visits the positions in order, up to the end or to where no thread is alive and none begins any
more. -/
def lap (s : Scan) (admits : Nat → Bool) : Nat → Board limit → Except (Halt (Board limit)) (Board limit)
  | 0, b => s.visit admits 0 b
  | left + 1, b =>
    if b.current.isEmpty && !s.attempts admits (left + 1) b then .ok b
    else
      match s.visit admits (left + 1) b with
      | .error halt => .error halt
      | .ok b => s.lap admits left b

def conclude (log : List Event) (result : Except (Halt (Board limit)) (Board limit)) :
    Except Fault (Report × Board limit) :=
  match result with
  | .ok b => .ok (⟨b.best, log⟩, b)
  | .error (.overflow b) => .ok (⟨none, log ++ [.listOverflow]⟩, b)
  | .error (.fault cause) => .error cause

/-- Searches from position `start` on, with one lap if `bounded` and with up to two if not. -/
def run (s : Scan) (start : Nat) (bounded : Bool) (b : Board limit) :
    Except Fault (Report × Board limit) :=
  match s.lap (fun _ => true) (s.leftAt start) b with
  | .ok b =>
    if b.best.isSome || bounded then conclude [] (.ok b)
    else conclude [.wrapped s.dir s.extent] (s.lap (s.dir.prefers · start) s.extent b.drop)
  | result => conclude [] result

end Scan

end CursorRegex
