import CursorRegex.Proofs.Search.Lap
import CursorRegex.Regex

/-! # Attempts and the ranges of the text

What an attempt of a scan can make is a range that the term of the program matches in the part of the
text that is searched, one end of which is where the attempt began (`Regex.leads_scan_iff`).  Scans made from
a compiled pattern are ready to run (`Regex.ready_scan`). -/
set_option autoImplicit false

namespace CursorRegex

/-! ## Ranges lie in the text -/

def Text.Bounded (text : Text) : Prop := ∀ i c, text.charAt? i = some c → i < text.length

theorem Text.Full.bounded {text : Text} (full : text.Full) : text.Bounded :=
  fun i c found => (full i).mp (by simp [found])

theorem Text.bounded_take {text : Text} (full : text.Full) (n : Nat) : (text.take n).Bounded := by
  intro i c found
  by_cases low : i < n
  · rw [charAt?_take_of_lt low] at found
    exact Nat.lt_min.mpr ⟨low, full.bounded i c found⟩
  · rw [charAt?_take_of_le (Nat.le_of_not_lt low)] at found
    cases found

section

variable {classes : ClassTable} {text : Text} {i j : Nat}

theorem Atom.Matches.le_length {x : Atom} (bounded : text.Bounded) (h : x.Matches classes text i j) :
    j ≤ text.length := by
  cases h with
  | char at_i | any at_i | set at_i | lineStart at_i => exact bounded _ _ at_i
  | textStart => exact Nat.zero_le _
  | lineEnd at_i => exact Nat.le_of_lt (bounded _ _ at_i)

theorem Tree.Matches.inside {t : Tree} (bounded : text.Bounded) (h : t.Matches classes text i j) :
    i ≤ j ∧ j ≤ text.length := by
  induction h with
  | atom inner => exact ⟨inner.le, inner.le_length bounded⟩
  | group _ ih | alternateLeft _ ih | alternateRight _ ih | once _ ih => exact ih
  | sequence _ _ ih ih' | again _ _ _ ih ih' => exact ⟨Nat.le_trans ih.1 ih'.1, ih'.2⟩
  | never _ bound => exact ⟨Nat.le_refl _, bound⟩

theorem MatchesAt.inside {o : Option Tree} (bounded : text.Bounded) (h : MatchesAt classes text o i j) :
    i ≤ j ∧ j ≤ text.length := by
  cases o with
  | none => exact ⟨Nat.le_of_eq h.1, h.1 ▸ h.2⟩
  | some t => exact Tree.Matches.inside bounded h

end

/-! ## Paths stay in the text -/

section

variable {a : Arena} {classes : ClassTable} {text : Text} {dir : Direction} {i j pos pos' : Nat}

theorem Arena.Goes.le_length (bounded : text.Bounded) (low : pos ≤ text.length)
    (h : a.Goes classes text dir i pos j pos') : pos' ≤ text.length := by
  cases h with
  | atom here range =>
    cases dir with
    | forward => exact range.le_length bounded
    | backward => exact Nat.le_trans range.le low
  | openGroup | closeGroup | forkNext | forkRight | empty => exact low

theorem Arena.Path.le_length {trace : List (Nat × Nat)} (bounded : text.Bounded)
    (low : pos ≤ text.length) (h : a.Path classes text dir i pos trace j pos') :
    pos' ≤ text.length := by
  induction h with
  | nil => exact low
  | cons head _ ih => exact ih (head.le_length bounded low)

end

namespace Term

theorem Coded.exists_first {a : Arena} {dir : Direction} {e : Term} {lo k : Nat}
    (h : e.Coded a dir lo k) : ∃ inst, a.get? (e.first dir lo) = some inst := by
  induction e generalizing lo k with
  | atom x => exact ⟨_, h⟩
  | group opening number body ih => exact ⟨_, h.2.2⟩
  | repeated q body ih =>
    cases q with
    | star | quest => exact ⟨_, h.2⟩
    | plus => exact ih h.1
  | sequence fst snd ih ih' =>
    cases dir with
    | forward => exact ih h.1
    | backward => exact ih' h.2
  | alternate fst snd ih ih' => exact ⟨_, h.2.2⟩

end Term

theorem Program.Encodes.entry_lt {p : Program} {o : Option Term} (encodes : p.Encodes o)
    (dir : Direction) : p.entry dir < p.arena.size := by
  obtain ⟨lo, entered, programs⟩ := encodes.halves dir
  rw [entered]
  cases o with
  | none => exact Arena.lt_size_of_get? programs
  | some e =>
    obtain ⟨inst, here⟩ := programs.1.exists_first
    exact Arena.lt_size_of_get? here

theorem Arena.exists_firstChar {a : Arena} {i : Nat} (bound : i < a.size) :
    ∃ first, a.firstChar i = .ok first ∧
      ∀ c ∈ first, ∃ next, a.get? i = some ⟨.atom (.char c), next⟩ := by
  obtain ⟨⟨kind, next⟩, here⟩ := exists_get? bound
  unfold firstChar
  rw [here]
  cases kind with
  | atom x =>
    cases x with
    | char c =>
      refine ⟨some c, rfl, fun c' is => ?_⟩
      cases is
      exact ⟨next, rfl⟩
    | any | lineStart | lineEnd | set => exact ⟨none, rfl, nofun⟩
  | openGroup | closeGroup | fork | empty | accept => exact ⟨none, rfl, nofun⟩

def Regex.scan (r : Regex) (dir : Direction) (text : Text) (extent : Nat) (first : Option Char) :
    Scan :=
  ⟨r.program, text, dir, extent, r.program.entry dir, first⟩

section

variable {r : Regex} {o : Option Term} {text : Text} {dir : Direction} {extent : Nat}
  {first : Option Char}

theorem Regex.ready_scan (encodes : r.program.Encodes o) (full : text.Full)
    (inside : extent ≤ text.length) (whole : dir = .backward → extent = text.length)
    (begins : ∀ c ∈ first, ∃ next,
      r.program.arena.get? (r.program.entry dir) = some ⟨.atom (.char c), next⟩) :
    (r.scan dir text extent first).Ready :=
  ⟨full, inside, whole, encodes.closed, encodes.entry_lt dir, begins⟩

/-- From its entry a program leads where its term matches. -/
theorem Regex.leads_scan_iff (encodes : r.program.Encodes o) (full : text.Full) {seed e : Nat}
    (low : seed ≤ (text.take extent).length) :
    (r.scan dir text extent first).Leads (r.program.entry dir) seed e ↔
      dir.Between (MatchesAt r.program.classes (text.take extent) (o.map Term.tree)) seed e := by
  have bounded := Text.bounded_take full extent
  constructor
  · rintro ⟨trace, end_, next, path, accepts⟩
    have high := path.le_length bounded low
    exact (encodes.path_iff low high).mp ⟨trace, end_, next, path, accepts⟩
  · intro range
    have high : e ≤ (text.take extent).length := by
      cases dir with
      | forward => exact (MatchesAt.inside bounded range).2
      | backward => exact Nat.le_trans (MatchesAt.inside bounded range).1 low
    obtain ⟨trace, end_, next, path, accepts⟩ := (encodes.path_iff low high).mpr range
    exact ⟨trace, end_, next, path, accepts⟩

end

end CursorRegex
