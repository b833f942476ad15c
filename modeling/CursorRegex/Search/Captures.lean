import CursorRegex.Direction
import CursorRegex.Fault
import CursorRegex.Span

/-! What a match records. While a program runs, each group has a mark with the positions of its two
edges; once it accepts, the marks become spans. Spans run left to right in either direction, so a
program that reads backward enters a group at its right edge. -/
set_option autoImplicit false

namespace CursorRegex

inductive Edge where
  | left
  | right
deriving DecidableEq

namespace Direction

def openEdge : Direction → Edge
  | .forward => .left
  | .backward => .right

def closeEdge : Direction → Edge
  | .forward => .right
  | .backward => .left

end Direction

structure Mark where
  left : Option Nat
  right : Option Nat
deriving DecidableEq

namespace Mark

def none : Mark := ⟨.none, .none⟩

def set (edge : Edge) (pos : Nat) (m : Mark) : Mark :=
  match edge with
  | .left => { m with left := some pos }
  | .right => { m with right := some pos }

/-- The span between the edges, if both were met and are in order. -/
def span? : Mark → Option Span
  | ⟨some left, some right⟩ => if left ≤ right then some ⟨left, right⟩ else .none
  | _ => .none

end Mark

structure Marks where
  marks : Vector Mark 9
deriving DecidableEq

namespace Marks

def none : Marks := ⟨.replicate 9 .none⟩

def record (edge : Edge) (group pos : Nat) : Marks → Except Fault Marks
  | ⟨marks⟩ =>
    if h : 0 < group ∧ group ≤ 9 then
      .ok ⟨marks.set (group - 1) (marks[group - 1].set edge pos)⟩
    else .error (.noGroup group)

def recordIf (edge : Edge) (group : Option Nat) (pos : Nat) (m : Marks) : Except Fault Marks :=
  match group with
  | .none => .ok m
  | some group => m.record edge group pos

end Marks

/-- The span of a match and the spans of the groups 1 to 9 that took part in it. -/
structure Captures where
  whole : Span
  groups : Vector (Option Span) 9
deriving DecidableEq

namespace Captures

def ofMarks (whole : Span) (m : Marks) : Captures := ⟨whole, m.marks.map (·.span?)⟩

/-- Slot 0 is the whole match, the slots 1 to 9 are the groups, and there are no others. -/
def get? (c : Captures) : Nat → Option Span
  | 0 => some c.whole
  | i + 1 => c.groups[i]?.join

def slots (c : Captures) : List (Option Span) := some c.whole :: c.groups.toList

theorem length_slots (c : Captures) : c.slots.length = 10 := by
  simp [slots]

theorem join_getElem?_slots (c : Captures) (i : Nat) : c.slots[i]?.join = c.get? i := by
  cases i with
  | zero => rfl
  | succ i => simp [slots, get?]

/-- Forward, the match that starts earlier is better, and of two with one start the longer. Backward,
it is the match that ends later, and of two with one end the longer. -/
def better (dir : Direction) (new old : Captures) : Bool :=
  match dir with
  | .forward =>
    new.whole.start < old.whole.start ||
      (new.whole.start == old.whole.start && old.whole.stop < new.whole.stop)
  | .backward =>
    old.whole.stop < new.whole.stop ||
      (new.whole.stop == old.whole.stop && new.whole.start < old.whole.start)

end Captures

def Direction.spanOf (dir : Direction) (seed pos : Nat) : Span :=
  match dir with
  | .forward => ⟨seed, pos⟩
  | .backward => ⟨pos, seed⟩

end CursorRegex
