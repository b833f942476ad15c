import CursorRegex.Pattern.Error
import CursorRegex.Pattern.Token

/-! The instructions of compiled patterns. They lie in one arena and refer to each other by place;
each has at most one successor, and a fork names a second instruction to go on with. -/
set_option autoImplicit false

namespace CursorRegex

inductive Kind where
  | atom (a : Atom)
  /-- Records an edge of the group with this number; a group past those recorded has none. -/
  | openGroup (group : Option Nat)
  | closeGroup (group : Option Nat)
  /-- Goes on with the successor first, and with `right` later. -/
  | fork (right : Nat)
  | empty
  | accept
deriving DecidableEq

structure Instruction where
  kind : Kind
  next : Option Nat
deriving DecidableEq

structure Arena where
  insts : Array Instruction
deriving DecidableEq

namespace Arena

def nil : Arena := ⟨#[]⟩

def size (a : Arena) : Nat := a.insts.size

def get? (a : Arena) (i : Nat) : Option Instruction := a.insts[i]?

def get (a : Arena) (i : Nat) : Except Fault Instruction :=
  match a.get? i with
  | none => .error (.noInstruction i)
  | some inst => .ok inst

def alloc (limit : Nat) (kind : Kind) (a : Arena) : Except Cause (Nat × Arena) :=
  if limit ≤ a.size then .error (.programTooLong limit) else .ok (a.size, ⟨a.insts.push ⟨kind, none⟩⟩)

def setNext (source target : Nat) (a : Arena) : Arena :=
  ⟨a.insts.modify source fun inst => { inst with next := some target }⟩

theorem size_setNext (source target : Nat) (a : Arena) : (a.setNext source target).size = a.size :=
  Array.size_modify

theorem get?_setNext (source target : Nat) (a : Arena) (i : Nat) :
    (a.setNext source target).get? i =
      if source = i then (a.get? i).map ({ · with next := some target }) else a.get? i := by
  simp only [get?, setNext, Array.getElem?_modify]

/-- As `setNext`, for an instruction that must exist. Its successor may come later. -/
def link (source target : Nat) (a : Arena) : Except Fault Arena :=
  if source < a.size then .ok (a.setNext source target) else .error (.noInstruction source)

def next (a : Arena) (i : Nat) : Except Fault Nat :=
  match a.get? i with
  | none => .error (.noInstruction i)
  | some ⟨_, none⟩ => .error (.unlinked i)
  | some ⟨_, some target⟩ => .ok target

/-- The character every match has to begin with that starts at instruction `i`, where the
instruction says so itself. -/
def firstChar (a : Arena) (i : Nat) : Except Fault (Option Char) :=
  match a.get? i with
  | none => .error (.noInstruction i)
  | some ⟨.atom (.char c), _⟩ => .ok (some c)
  | some _ => .ok none

/-- The first instruction on the way from `i` that is not empty, or is but has no successor. More
than `fuel` instructions are not looked at. -/
def skipEmpty (a : Arena) : Nat → Nat → Except Fault Nat
  | 0, _ => .error .endlessChain
  | fuel + 1, i =>
    match a.get? i with
    | none => .error (.noInstruction i)
    | some ⟨.empty, some target⟩ => a.skipEmpty fuel target
    | some _ => .ok i

/-- Where the instruction at `i` leads once it skips the empty instructions behind it, if it has a
successor. A way through more instructions than there are never ends. -/
def shortcut (a : Arena) (i : Nat) : Except Fault (Option Nat) :=
  match a.get? i with
  | none => .error (.noInstruction i)
  | some ⟨_, none⟩ => .ok none
  | some ⟨_, some target⟩ => (a.skipEmpty (a.size + 1) target).map some

/-- Shortens the links of `count` instructions from `start` on, one after the other, and stops at the
first that cannot be. -/
def shortenFrom (a : Arena) (start : Nat) : Nat → Arena × Option Fault
  | 0 => (a, none)
  | count + 1 =>
    match a.shortcut start with
    | .error fault => (a, some fault)
    | .ok none => a.shortenFrom (start + 1) count
    | .ok (some target) => (a.setNext start target).shortenFrom (start + 1) count

theorem size_shortenFrom (a : Arena) (start count : Nat) :
    (a.shortenFrom start count).1.size = a.size := by
  induction count generalizing a start with
  | zero => rfl
  | succ count ih =>
    rw [shortenFrom]
    cases a.shortcut start with
    | error fault => rfl
    | ok target =>
      cases target with
      | none => exact ih a (start + 1)
      | some target => exact (ih _ (start + 1)).trans (size_setNext start target a)

def shorten (a : Arena) (start stop : Nat) : Arena × Option Fault :=
  a.shortenFrom start (stop - start)

theorem size_shorten (a : Arena) (start stop : Nat) : (a.shorten start stop).1.size = a.size :=
  size_shortenFrom a start (stop - start)

end Arena

end CursorRegex
