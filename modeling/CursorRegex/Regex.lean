import CursorRegex.Quoted
import CursorRegex.Search.Scan

/-! Regular expressions for searching a text from a cursor. A pattern is compiled once; each search
goes through a matcher, whose thread lists are used again from search to search. -/
set_option autoImplicit false

namespace CursorRegex

structure Regex where
  pattern : String
  program : Program
  limits : Limits

namespace Regex

def compileWith (limits : Limits) (pattern : String) : Except CompileError Regex :=
  (Program.compile limits pattern).map (⟨pattern, ·, limits⟩)

def compile (pattern : String) : Except CompileError Regex := compileWith {} pattern

def groupCount (r : Regex) : Nat := r.program.groups

def describe (r : Regex) : String := "Regex(" ++ Quoted.encode r.pattern ++ ")"

end Regex

/-- The thread lists for searches with `r`. What a search leaves in them does not matter to the next
one. -/
structure Matcher (r : Regex) where
  current : ThreadList r.limits.threads
  next : ThreadList r.limits.threads

/-- A search to make: forward from `start`, with `stop` only up to there, or backward. -/
inductive Query where
  | forward (start : Nat) (stop : Option Nat)
  | backward (start : Nat)
deriving DecidableEq

namespace Matcher

variable {r : Regex}

def new (r : Regex) : Matcher r :=
  ⟨.empty r.program.arena.size, .empty r.program.arena.size⟩

def search (dir : Direction) (text : Text) (extent start : Nat) (bounded : Bool) :
    Matcher r → Except Fault (Report × Matcher r)
  | ⟨current, next⟩ => do
    let entry := r.program.entry dir
    let first ← r.program.arena.firstChar entry
    let (report, board) ← Scan.run ⟨r.program, text, dir, extent, entry, first⟩ start bounded
      ⟨current.clear, next.clear, none⟩
    return (report, ⟨board.current, board.next⟩)

/-- Searches for the match that starts first at or after `start`, and of those for the longest. With
a `stop` the text ends there for the search; without, the search wraps around at the end of the
text. -/
def searchForward (text : Text) (start : Nat) (stop : Option Nat) (m : Matcher r) :
    Except Fault (Report × Matcher r) :=
  let extent := match stop with
    | none => text.length
    | some stop => min stop text.length
  m.search .forward text extent (min start extent) stop.isSome

/-- Searches for the match that ends last at or before `start`, and of those for the longest. The
search wraps around at the start of the text. -/
def searchBackward (text : Text) (start : Nat) (m : Matcher r) :
    Except Fault (Report × Matcher r) :=
  m.search .backward text text.length (min start text.length) false

def answer (text : Text) (m : Matcher r) : Query → Except Fault (Report × Matcher r)
  | .forward start stop => m.searchForward text start stop
  | .backward start => m.searchBackward text start

/-- Makes searches one after the other, each with the lists as the one before left them. -/
def answerAll : List (Text × Query) → Matcher r → Except Fault (List Report × Matcher r)
  | [], m => .ok ([], m)
  | (text, query) :: searches, m => do
    let (report, m) ← m.answer text query
    let (reports, m) ← answerAll searches m
    return (report :: reports, m)

end Matcher

namespace Regex

def answer (r : Regex) (text : Text) (query : Query) : Except Fault Report :=
  ((Matcher.new r).answer text query).map (·.1)

def searchForward (r : Regex) (text : Text) (start : Nat) (stop : Option Nat) : Except Fault Report :=
  r.answer text (.forward start stop)

def searchBackward (r : Regex) (text : Text) (start : Nat) : Except Fault Report :=
  r.answer text (.backward start)

end Regex

end CursorRegex
