import CursorRegex.Proofs.Program.Links
import CursorRegex.Search.Path
import CursorRegex.Search.Scan

/-! # What a scan sees of the text

A scan searches the part of the text up to its extent.  At every position of that part the character
ahead is there or the part ends, and no fault is raised (`Scan.ahead_eq`).  An atom lets a thread pass,
take the character or stop according to what it matches at the position (`Scan.verdict_eq`), in either
direction: what the cursor reads before and behind it is the same. -/
set_option autoImplicit false

namespace CursorRegex

/-- The text has a character at each position below its length, and nowhere else. -/
def Text.Full (text : Text) : Prop := ∀ pos, (text.charAt? pos).isSome ↔ pos < text.length

namespace Text

variable {text : Text} {n pos : Nat}

theorem full_ofArray (cs : Array Char) : (ofArray cs).Full := by
  intro pos
  simp [ofArray]

theorem Full.charAt_eq_ok (full : text.Full) (bound : pos < text.length) :
    ∃ c, text.charAt? pos = some c ∧ text.charAt pos = .ok c := by
  obtain ⟨c, found⟩ := Option.isSome_iff_exists.mp ((full pos).mpr bound)
  exact ⟨c, found, by rw [charAt, found]⟩

theorem Full.take_length (full : text.Full) : text.take text.length = text := by
  obtain ⟨length, charAt?⟩ := text
  simp only [take, Nat.min_self, mk.injEq, true_and]
  funext pos
  by_cases bound : pos < length
  · rw [if_pos bound]
  · rw [if_neg bound]
    cases found : charAt? pos with
    | none => rfl
    | some c => exact absurd ((full pos).mp (by simp [found])) bound

theorem charAt?_take_of_lt (bound : pos < n) : (text.take n).charAt? pos = text.charAt? pos :=
  if_pos bound

theorem charAt?_take_of_le (bound : n ≤ pos) : (text.take n).charAt? pos = none :=
  if_neg (Nat.not_lt.mpr bound)

theorem length_take_of_le (bound : n ≤ text.length) : (text.take n).length = n :=
  Nat.min_eq_left bound

end Text

/-! ## Atoms -/

namespace Atom

variable {classes : ClassTable} {text : Text} {x : Atom} {i j : Nat}

def Anchors (text : Text) (i : Nat) : Atom → Prop
  | .lineStart => i = 0 ∨ text.charAt? (i - 1) = some '\n'
  | .lineEnd => text.charAt? i = some '\n'
  | .char _ | .any | .set _ _ => False

def Reads (classes : ClassTable) (c : Char) : Atom → Prop
  | .char x => x = c
  | .any => c ≠ '\n'
  | .set id negated => classes.Accepts id negated c
  | .lineStart | .lineEnd => False

theorem matches_self_iff : x.Matches classes text i i ↔ x.Anchors text i := by
  constructor
  · intro h
    generalize same : i = j at h
    cases h with
    | textStart => exact Or.inl rfl
    | lineStart at_i => exact Or.inr at_i
    | lineEnd at_i => exact at_i
  · intro h
    cases x with
    | lineStart =>
      cases i with
      | zero => exact .textStart
      | succ i =>
        rcases h with zero | newline
        · cases zero
        · exact .lineStart newline
    | lineEnd => exact .lineEnd h
    | char | any | set => cases h

theorem matches_succ_iff :
    x.Matches classes text i (i + 1) ↔ ∃ c, text.charAt? i = some c ∧ x.Reads classes c := by
  constructor
  · intro h
    generalize next : i + 1 = j at h
    cases h with
    | char at_i => exact ⟨_, at_i, rfl⟩
    | any at_i ne => exact ⟨_, at_i, ne⟩
    | set at_i accepts => exact ⟨_, at_i, accepts⟩
    | textStart | lineStart | lineEnd => omega
  · rintro ⟨c, at_i, reads⟩
    cases x with
    | char x =>
      cases reads
      exact .char at_i
    | any => exact .any at_i reads
    | set => exact .set at_i reads
    | lineStart | lineEnd => cases reads

theorem Matches.step (h : x.Matches classes text i j) : j = i ∨ j = i + 1 := by
  cases h <;> simp

end Atom

/-! ## Cursors -/

namespace Cursor

variable {classes : ClassTable} {c : Cursor} {view : Text}

structure Within (view : Text) (c : Cursor) : Prop where
  before : c.pos ≠ 0 → c.before = .ok (view.charAt? (c.pos - 1))
  after : c.after = .ok (view.charAt? c.pos)

theorem verdict_eq (within : c.Within view) {x : Atom} (refers : x.Refers classes) :
    ∃ v, c.verdict classes x = .ok v ∧ (v = .pass ↔ x.Anchors view c.pos) ∧
      (v = .take ↔ ∃ a, c.ahead = some a ∧ x.Reads classes a) := by
  cases x with
  | char y =>
    refine ⟨_, rfl, ?_, ?_⟩
    · simp only [takeIf, Atom.Anchors]
      split <;> simp
    · simp only [takeIf, Atom.Reads]
      split <;> simp_all
  | any =>
    refine ⟨_, rfl, ?_, ?_⟩
    · simp only [takeIf, Atom.Anchors]
      split <;> simp
    · simp only [takeIf, Atom.Reads]
      cases c.ahead <;> simp
  | set id negated =>
    simp only [verdict, Atom.Anchors, Atom.Reads]
    cases c.ahead with
    | none => exact ⟨.stop, rfl, by simp, by simp⟩
    | some a =>
      obtain ⟨taken, accepts, means⟩ := ClassTable.accepts_of_refers refers a
      dsimp only
      rw [accepts]
      refine ⟨_, rfl, ?_, ?_⟩
      · simp only [takeIf]
        split <;> simp
      · simp only [takeIf]
        split <;> simp_all
  | lineStart =>
    simp only [verdict, atLineStart, Atom.Anchors, Atom.Reads]
    by_cases start : c.pos = 0
    · exact ⟨.pass, by rw [if_pos start]; rfl, by simp [start], by simp⟩
    · rw [if_neg start, within.before start]
      refine ⟨_, rfl, ?_, ?_⟩
      · simp only [passIf]
        split <;> simp_all
      · simp only [passIf]
        split <;> simp
  | lineEnd =>
    simp only [verdict, atLineEnd, within.after, Atom.Anchors, Atom.Reads]
    refine ⟨_, rfl, ?_, ?_⟩
    · simp only [passIf]
      split <;> simp_all
    · simp only [passIf]
      split <;> simp

end Cursor

/-! ## Scans -/

namespace Scan

/-- A scan whose program is closed, over a part of a text that is there.  Backward, the part is the
whole. -/
structure Ready (s : Scan) : Prop where
  full : s.text.Full
  extent_le : s.extent ≤ s.text.length
  whole : s.dir = .backward → s.extent = s.text.length
  closed : s.program.arena.Closed s.program.classes
  entry : s.entry < s.program.arena.size
  first : ∀ c ∈ s.first, ∃ next, s.program.arena.get? s.entry = some ⟨.atom (.char c), next⟩

def view (s : Scan) : Text := s.text.take s.extent

def upcoming (s : Scan) (left : Nat) : Option Char :=
  match s.dir, left with
  | .forward, left => s.view.charAt? (s.pos left)
  | .backward, 0 => none
  | .backward, left + 1 => s.view.charAt? left

def cursor (s : Scan) (left : Nat) : Cursor := ⟨s.text, s.dir, s.pos left, s.upcoming left⟩

variable {s : Scan} {left : Nat}

theorem length_view (ready : s.Ready) : s.view.length = s.extent :=
  Text.length_take_of_le ready.extent_le

theorem pos_le (ready : s.Ready) (bound : left ≤ s.extent) : s.pos left ≤ s.view.length := by
  rw [length_view ready]
  unfold pos
  split <;> omega

theorem charAt_eq (ready : s.Ready) {i : Nat} (bound : i < s.extent) :
    ∃ c, s.view.charAt? i = some c ∧ s.text.charAt i = .ok c := by
  obtain ⟨c, found, read⟩ := ready.full.charAt_eq_ok (Nat.lt_of_lt_of_le bound ready.extent_le)
  exact ⟨c, by rw [view, Text.charAt?_take_of_lt bound, found], read⟩

theorem ahead_eq (ready : s.Ready) (bound : left ≤ s.extent) :
    s.ahead left = .ok (s.upcoming left) := by
  cases left with
  | zero =>
    unfold upcoming
    cases dir : s.dir with
    | forward =>
      have at_end : s.pos 0 = s.extent := by simp [pos, dir]
      simp only [ahead, at_end, view, Text.charAt?_take_of_le (Nat.le_refl _)]
    | backward => rfl
  | succ k =>
    unfold ahead upcoming
    cases dir : s.dir with
    | forward =>
      have inside : s.pos (k + 1) < s.extent := by
        simp only [pos, dir]
        omega
      obtain ⟨c, found, read⟩ := charAt_eq ready inside
      simp only [found, read]
      rfl
    | backward =>
      obtain ⟨c, found, read⟩ := charAt_eq ready (show k < s.extent from bound)
      simp only [found, read]
      rfl

theorem cursor_within (ready : s.Ready) (bound : left ≤ s.extent) :
    (s.cursor left).Within s.view := by
  have low := pos_le ready bound
  rw [length_view ready] at low
  cases dir : s.dir with
  | forward =>
    refine ⟨fun ne => ?_, ?_⟩
    · have ne' : s.pos left ≠ 0 := ne
      obtain ⟨c, found, read⟩ := charAt_eq ready (show s.pos left - 1 < s.extent by omega)
      simp only [cursor, Cursor.before, dir, if_neg ne', found, read]
      rfl
    · simp only [cursor, Cursor.after, dir, upcoming]
  | backward =>
    have at_left : s.pos left = left := by simp [pos, dir]
    refine ⟨fun ne => ?_, ?_⟩
    · cases left with
      | zero => exact absurd at_left ne
      | succ k => simp [cursor, Cursor.before, dir, upcoming, at_left]
    · simp only [cursor, Cursor.after, dir, at_left]
      by_cases inside : left < s.extent
      · obtain ⟨c, found, read⟩ := charAt_eq ready inside
        rw [if_pos (ready.whole dir ▸ inside), found, read]
        rfl
      · rw [if_neg (ready.whole dir ▸ inside), view, Text.charAt?_take_of_le (Nat.le_of_not_lt inside)]

/-- An atom's verdict says how far the atom matches from the position. -/
theorem verdict_eq (ready : s.Ready) (bound : left ≤ s.extent) {x : Atom}
    (refers : x.Refers s.program.classes) :
    ∃ v, (s.cursor left).verdict s.program.classes x = .ok v ∧
      (v = .pass ↔
        s.dir.Between (x.Matches s.program.classes s.view) (s.pos left) (s.pos left)) ∧
      (v = .take ↔ ∃ k, left = k + 1 ∧
        s.dir.Between (x.Matches s.program.classes s.view) (s.pos left) (s.pos k)) := by
  obtain ⟨v, verdict, passes, takes⟩ := Cursor.verdict_eq (cursor_within ready bound) refers
  refine ⟨v, verdict, passes.trans ?_, takes.trans ?_⟩
  · cases dir : s.dir <;> exact Atom.matches_self_iff.symm
  · unfold cursor upcoming
    cases dir : s.dir with
    | forward =>
      cases left with
      | zero =>
        have at_end : s.pos 0 = s.extent := by simp [pos, dir]
        simp [at_end, view, Text.charAt?_take_of_le (Nat.le_refl _)]
      | succ k =>
        have next : s.pos k = s.pos (k + 1) + 1 := by
          simp only [pos, dir]
          omega
        simp only [Nat.add_right_cancel_iff, exists_eq_left', next]
        exact Atom.matches_succ_iff.symm
    | backward =>
      cases left with
      | zero => simp
      | succ k =>
        simp only [Nat.add_right_cancel_iff, exists_eq_left', pos, dir]
        exact Atom.matches_succ_iff.symm

end Scan

end CursorRegex
