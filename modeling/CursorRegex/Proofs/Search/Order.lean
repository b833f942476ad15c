import CursorRegex.Search.Captures

/-! # Which match is better

Matches are compared by the spans they cover: first by where the attempt began, and then by where it
ended.  Neither order leaves gaps, so what is not worse than something not worse than a third is not
worse than the third (`not_prefers_trans`, `not_beats_trans`). -/
set_option autoImplicit false

namespace CursorRegex

namespace Direction

variable {dir : Direction}

theorem not_prefers_trans {a b c : Nat} (hab : dir.prefers a b = false)
    (hbc : dir.prefers b c = false) : dir.prefers a c = false := by
  cases dir <;> simp only [prefers, decide_eq_false_iff_not] at * <;> omega

theorem not_prefers_of_prefers {a b : Nat} (h : dir.prefers a b = true) :
    dir.prefers b a = false := by
  cases dir <;> simp only [prefers, decide_eq_true_eq, decide_eq_false_iff_not] at * <;> omega

def beats : Direction → Span → Span → Bool
  | .forward, new, old =>
    new.start < old.start || (new.start == old.start && old.stop < new.stop)
  | .backward, new, old =>
    old.stop < new.stop || (new.stop == old.stop && new.start < old.start)

theorem beats_irrefl (dir : Direction) (s : Span) : dir.beats s s = false := by
  cases dir <;> simp [beats]

theorem not_beats_trans {a b c : Span} (hab : dir.beats a b = false) (hbc : dir.beats b c = false) :
    dir.beats a c = false := by
  cases dir <;> simp [beats] at * <;> omega

theorem not_beats_of_beats {a b : Span} (h : dir.beats a b = true) : dir.beats b a = false := by
  cases dir <;> simp [beats] at * <;> omega

/-- Of two matches that end at one place, the one whose attempt is not preferred is no better. -/
theorem not_beats_spanOf {new old : Nat} (h : dir.prefers new old = false) (pos : Nat) :
    dir.beats (dir.spanOf new pos) (dir.spanOf old pos) = false := by
  cases dir <;> simp [beats, spanOf, prefers] at * <;> exact decide_eq_false (by omega)

/-- If an attempt is preferred to another, its match is better wherever the two end. -/
theorem beats_spanOf_of_prefers {new old : Nat} (h : dir.prefers new old = true) (pos pos' : Nat) :
    dir.beats (dir.spanOf new pos) (dir.spanOf old pos') = true := by
  cases dir <;> simp_all [beats, spanOf, prefers]

end Direction

theorem Captures.better_eq (dir : Direction) (new old : Captures) :
    new.better dir old = dir.beats new.whole old.whole := by
  cases dir <;> rfl

/-! ## The best so far -/

def Found (dir : Direction) (best : Option Captures) (s : Span) : Prop :=
  ∃ m ∈ best, dir.beats s m.whole = false

namespace Found

variable {dir : Direction} {best : Option Captures} {s t : Span}

theorem of_not_beats (h : Found dir best t) (worse : dir.beats s t = false) : Found dir best s := by
  obtain ⟨m, is, le⟩ := h
  exact ⟨m, is, Direction.not_beats_trans worse le⟩

end Found

end CursorRegex
