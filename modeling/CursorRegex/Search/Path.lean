import CursorRegex.Program.Basic
import CursorRegex.Search.Meaning

/-! Paths through a program, said without threads and lists. Going backward, an instruction reads the
character left of the position. -/
set_option autoImplicit false

namespace CursorRegex

/-- A range between the position a program is at and the one it goes to. -/
def Direction.Between (dir : Direction) (range : Nat → Nat → Prop) (pos pos' : Nat) : Prop :=
  match dir with
  | .forward => range pos pos'
  | .backward => range pos' pos

section

variable (a : Arena) (classes : ClassTable) (text : Text) (dir : Direction)

/-- From instruction `i` at position `pos` a program may go on to `j` at `pos'`. -/
inductive Arena.Goes : Nat → Nat → Nat → Nat → Prop where
  | atom {x : Atom} {i j pos pos' : Nat} (here : a.get? i = some ⟨.atom x, some j⟩)
      (range : dir.Between (x.Matches classes text) pos pos') : Goes i pos j pos'
  | openGroup {group : Option Nat} {i j pos : Nat} (here : a.get? i = some ⟨.openGroup group, some j⟩) :
      Goes i pos j pos
  | closeGroup {group : Option Nat} {i j pos : Nat}
      (here : a.get? i = some ⟨.closeGroup group, some j⟩) : Goes i pos j pos
  | forkNext {i j right pos : Nat} (here : a.get? i = some ⟨.fork right, some j⟩) : Goes i pos j pos
  | forkRight {i right pos : Nat} {next : Option Nat} (here : a.get? i = some ⟨.fork right, next⟩) :
      Goes i pos right pos
  | empty {i j pos : Nat} (here : a.get? i = some ⟨.empty, some j⟩) : Goes i pos j pos

/-- A path, with the instructions it leaves and the positions where it does. -/
inductive Arena.Path : Nat → Nat → List (Nat × Nat) → Nat → Nat → Prop where
  | nil (i pos : Nat) : Path i pos [] i pos
  | cons {i j k pos pos' pos'' : Nat} {trace : List (Nat × Nat)}
      (head : a.Goes classes text dir i pos j pos') (tail : Path j pos' trace k pos'') :
      Path i pos ((i, pos) :: trace) k pos''

end

def Program.AcceptingPath (p : Program) (text : Text) (dir : Direction) (pos pos' : Nat)
    (trace : List (Nat × Nat)) : Prop :=
  ∃ i next, p.arena.Path p.classes text dir (p.entry dir) pos trace i pos' ∧
    p.arena.get? i = some ⟨.accept, next⟩

/-- A program for direction `dir` accepts the range from `i` to `j`, whichever end it begins at. -/
def Program.Accepts (p : Program) (text : Text) (dir : Direction) (i j : Nat) : Prop :=
  dir.Between (fun pos pos' => ∃ trace, p.AcceptingPath text dir pos pos' trace) i j

end CursorRegex
