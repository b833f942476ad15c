import CursorRegex.Search.Cursor
import CursorRegex.Search.ThreadList

/-! Running threads at one position. A thread goes through instructions that read nothing until it
reads the character ahead, accepts or ends; a fork puts the branch for later on the list that is
being run. -/
set_option autoImplicit false

namespace CursorRegex

structure Board (limit : Nat) where
  current : ThreadList limit
  next : ThreadList limit
  best : Option Captures

namespace Board

variable {limit : Nat}

def addCurrent (dir : Direction) (ran : Nat) (t : Thread) :
    Board limit → Except (Halt (Board limit)) (Board limit)
  | ⟨current, next, best⟩ =>
    match current.add dir ran t with
    | .ok current => .ok ⟨current, next, best⟩
    | .error halt => .error (halt.map (⟨·, next, best⟩))

def addNext (dir : Direction) (t : Thread) :
    Board limit → Except (Halt (Board limit)) (Board limit)
  | ⟨current, next, best⟩ =>
    match next.add dir 0 t with
    | .ok next => .ok ⟨current, next, best⟩
    | .error halt => .error (halt.map (⟨current, ·, best⟩))

def offer (dir : Direction) (new : Captures) (b : Board limit) : Board limit :=
  if b.best.all (new.better dir ·) then { b with best := some new } else b

def advance : Board limit → Board limit
  | ⟨current, next, best⟩ => ⟨next, current.clear, best⟩

def drop : Board limit → Board limit
  | ⟨current, next, best⟩ => ⟨current.clear, next, best⟩

end Board

section

variable {limit : Nat}

def Thread.follow (a : Arena) (t : Thread) : Except (Halt (Board limit)) Thread :=
  ((a.next t.inst).map fun target => { t with inst := target }).mapError .fault

/-- Runs the instruction a thread has reached, as one of the first `ran` threads of the list. What is
left is the thread, if it goes on at this position, and the board. -/
def Board.hop (p : Program) (c : Cursor) (ran : Nat) (t : Thread) (b : Board limit) :
    Except (Halt (Board limit)) (Option Thread × Board limit) := do
  match (← (p.arena.get t.inst).mapError .fault).kind with
  | .atom a =>
    match ← (c.verdict p.classes a).mapError .fault with
    | .pass => return (some (← t.follow p.arena), b)
    | .take => return (none, ← b.addNext c.dir (← t.follow p.arena))
    | .stop => return (none, b)
  | .openGroup group =>
    let marks ← (t.marks.recordIf c.dir.openEdge group c.pos).mapError .fault
    return (some (← { t with marks := marks }.follow p.arena), b)
  | .closeGroup group =>
    let marks ← (t.marks.recordIf c.dir.closeEdge group c.pos).mapError .fault
    return (some (← { t with marks := marks }.follow p.arena), b)
  | .fork right =>
    let b ← b.addCurrent c.dir ran { t with inst := right }
    return (some (← t.follow p.arena), b)
  | .empty => return (some (← t.follow p.arena), b)
  | .accept => return (none, b.offer c.dir (.ofMarks (c.dir.spanOf t.seed c.pos) t.marks))

def Board.drive (p : Program) (c : Cursor) (ran : Nat) :
    Nat → Thread → Board limit → Except (Halt (Board limit)) (Board limit)
  | 0, _, _ => .error (.fault .endlessRun)
  | fuel + 1, t, b => do
    match ← b.hop p c ran t with
    | (none, b) => return b
    | (some t, b) => b.drive p c ran fuel t

/-- Runs the threads of the current list from place `i` on, with those that are added meanwhile. No
way through instructions that read nothing meets one twice, so a thread needs no more hops than
there are instructions. -/
def Board.runFrom (p : Program) (c : Cursor) (i : Nat) (b : Board limit) :
    Except (Halt (Board limit)) (Board limit) :=
  if h : i < b.current.threads.size then
    match b.drive p c (i + 1) p.arena.size b.current.threads[i] with
    | .error halt => .error halt
    | .ok after => after.runFrom p c (i + 1)
  else .ok b
termination_by limit - i
decreasing_by
  have := b.current.size_le
  omega

end

end CursorRegex
