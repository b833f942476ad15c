import CursorRegex.Search.Captures
import CursorRegex.Search.Halt

/-! Lists of threads with a fixed capacity. A list is read from front to back while threads are added
to it, and knows for each instruction the latest thread that waits there. -/
set_option autoImplicit false

namespace CursorRegex

/-- An attempt to match: the instruction it has reached, the position it began at, and the group
edges it met on the way. -/
structure Thread where
  inst : Nat
  seed : Nat
  marks : Marks
deriving DecidableEq

/-- A list and the places in it of the latest thread for each instruction.  The index has an entry for the
instruction of every thread, so that clearing it meets no other. -/
structure ThreadList (limit : Nat) where
  threads : Array Thread
  index : Array (Option Nat)
  size_le : threads.size ≤ limit
  placed : ∀ t ∈ threads, t.inst < index.size

namespace ThreadList

variable {limit : Nat}

def empty (size : Nat) : ThreadList limit := ⟨#[], .replicate size none, Nat.zero_le limit, nofun⟩

def isEmpty (l : ThreadList limit) : Bool := l.threads.isEmpty

def unindex : (threads : List Thread) → (index : Array (Option Nat)) →
    (∀ t ∈ threads, t.inst < index.size) → Array (Option Nat)
  | [], index, _ => index
  | t :: ts, index, placed =>
    unindex ts (index.set t.inst none (placed t List.mem_cons_self)) (by
      intro u member
      rw [Array.size_set]
      exact placed u (List.mem_cons_of_mem t member))

def clear (l : ThreadList limit) : ThreadList limit :=
  ⟨#[], unindex l.threads.toList l.index fun t member => l.placed t (Array.mem_toList_iff.mp member),
    Nat.zero_le limit, nofun⟩

def append (t : Thread) (l : ThreadList limit) (placed : t.inst < l.index.size) :
    Except (Halt (ThreadList limit)) (ThreadList limit) :=
  if room : l.threads.size < limit then
    .ok
      { threads := l.threads.push t
        index := l.index.set t.inst (some l.threads.size)
        size_le := by simpa using Nat.succ_le_of_lt room
        placed := by
          intro u member
          rw [Array.size_set]
          rcases Array.mem_push.mp member with old | rfl
          · exact l.placed u old
          · exact placed }
  else .error (.overflow l)

def replace (place : Nat) (t : Thread) (l : ThreadList limit) (there : place < l.threads.size)
    (placed : t.inst < l.index.size) : ThreadList limit where
  threads := l.threads.set place t
  index := l.index
  size_le := by simpa using l.size_le
  placed := by
    intro u member
    rcases Array.mem_or_eq_of_mem_set member with old | rfl
    · exact l.placed u old
    · exact placed

/-- Adds a thread, where the first `ran` threads of the list have run already. Of two threads for one
instruction only the one whose attempt is preferred goes on: it takes the other's place, or the end
of the list if the other has run. -/
def add (dir : Direction) (ran : Nat) (t : Thread) (l : ThreadList limit) :
    Except (Halt (ThreadList limit)) (ThreadList limit) :=
  if placed : t.inst < l.index.size then
    match l.index[t.inst] with
    | none => l.append t placed
    | some place =>
      if there : place < l.threads.size then
        if dir.prefers t.seed l.threads[place].seed then
          if place < ran then l.append t placed else .ok (l.replace place t there placed)
        else .ok l
      else .error (.fault (.noThread place))
  else .error (.fault (.noInstruction t.inst))

end ThreadList

end CursorRegex
