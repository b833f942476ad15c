import CursorRegex.Proofs.Search.Choice

/-! # What attempts hand down

A property that every attempt begins with, and that threads keep from instruction to instruction and
from position to position, is one that the match of a search has (`Inherits.of_run`).  Where attempts
begin does not matter, nor how often the search goes round. -/
set_option autoImplicit false

namespace CursorRegex.Scan

variable {limit start left : Nat} {s : Scan} {admits : Nat → Bool} {b b' : Board limit}
  {bounded : Bool} {here : Nat → Thread → Prop} {won : Captures → Prop}

/-- Threads with `left` characters left are as `here` says, and matches as `won` says. -/
structure Inherits (s : Scan) (here : Nat → Thread → Prop) (won : Captures → Prop) : Prop where
  begins : ∀ left, left ≤ s.extent → here left ⟨s.entry, s.pos left, .none⟩
  kept : ∀ left, left ≤ s.extent → Kept s.program (s.cursor left) (here left)
    (fun t => ∃ k, left = k + 1 ∧ here k t) won

/-- The board before the places with fewer than `low` characters left are visited. -/
def Bears (s : Scan) (here : Nat → Thread → Prop) (won : Captures → Prop) (low : Nat)
    (b : Board limit) : Prop :=
  b.Holds s.program.arena.size (fun t => ∃ k, low = k + 1 ∧ here k t) (fun _ => False) won

theorem Bears.of_isEmpty {low fewer : Nat} (h : s.Bears here won low b)
    (none_left : b.current.isEmpty = true) : s.Bears here won fewer b :=
  { h with here := fun t member => absurd member (ThreadList.not_mem_of_isEmpty none_left t) }

theorem Bears.drop {low fewer : Nat} (h : s.Bears here won low b) : s.Bears here won fewer b.drop :=
  { current := ThreadList.sound_clear h.current
    next := h.next
    here := fun t member => absurd member (b.current.not_mem_clear t)
    ahead := h.ahead
    won := h.won }

theorem bears_start (sound : b.Sound s.program.arena.size) (none_waits : ∀ t, t ∉ b.current.threads)
    (idle : ∀ t, t ∉ b.next.threads) (unmatched : b.best = none) (low : Nat) :
    s.Bears here won low b := by
  refine ⟨sound, fun t member => absurd member (none_waits t), idle, fun m is => ?_⟩
  rw [unmatched] at is
  cases is

namespace Inherits

variable (inherits : s.Inherits here won) (ready : s.Ready)
include inherits ready

theorem achieves_seed (bound : left ≤ s.extent) (h : s.Bears here won (left + 1) b) :
    Achieves (Board.Sound s.program.arena.size)
      (Board.Holds s.program.arena.size (here left) (fun _ => False) won) (s.seed admits left b) := by
  have threads : ∀ t ∈ b.current.threads, here left t := by
    intro t member
    obtain ⟨k, at_k, holds⟩ := h.here t member
    cases at_k
    exact holds
  unfold Scan.seed
  by_cases attempts : s.attempts admits left b = true
  · rw [if_pos attempts]
    refine (Board.achieves_addCurrent (t := ⟨s.entry, s.pos left, .none⟩) h.toSound ready.entry s.dir
      0).mono ?_
    rintro _ ⟨l, rfl, sound, added⟩
    exact ⟨⟨sound, h.next⟩, added.forall_mem (inherits.begins left bound) threads, h.ahead, h.won⟩
  · rw [if_neg attempts]
    exact ⟨h.toSound, threads, h.ahead, h.won⟩

theorem achieves_visit (bound : left ≤ s.extent) (h : s.Bears here won (left + 1) b) :
    Achieves (Board.Sound s.program.arena.size) (s.Bears here won left) (s.visit admits left b) := by
  unfold visit
  refine .bind_mapError (ahead_eq ready bound) ?_
  by_cases skips : s.skips (s.upcoming left) b = true
  · rw [if_pos skips]
    simp only [Scan.skips, Bool.and_eq_true] at skips
    exact h.of_isEmpty skips.1.1
  · rw [if_neg skips]
    refine (inherits.achieves_seed ready bound h).bind fun b₁ seeded => ?_
    have holds : b₁.Holds s.program.arena.size (here left)
        (fun t => ∃ k, left = k + 1 ∧ here k t) won :=
      { seeded with ahead := fun t member => (seeded.ahead t member).elim }
    refine (Board.achieves_runFrom ready.closed (judges ready bound) (inherits.kept left bound) holds
      (Nat.zero_le _) (fun k t low => absurd low (Nat.not_lt_zero k))).bind ?_
    rintro b₂ ⟨holds₂, -, -⟩
    exact ⟨⟨holds₂.next, ThreadList.sound_clear holds₂.current⟩, holds₂.ahead,
      b₂.current.not_mem_clear, holds₂.won⟩

theorem achieves_lap (bound : left ≤ s.extent) (h : s.Bears here won (left + 1) b) :
    Achieves (Board.Sound s.program.arena.size) (s.Bears here won 0) (s.lap admits left b) := by
  refine achieves_lap_of (fun place b below h => ?_) (fun last b _ h none_left _ => ?_) h
  · exact inherits.achieves_visit ready (Nat.le_trans below bound) h
  · exact h.of_isEmpty none_left

theorem of_run {report : Report} (within : start ≤ s.extent) (sound : b.Sound s.program.arena.size)
    (none_waits : ∀ t, t ∉ b.current.threads) (idle : ∀ t, t ∉ b.next.threads)
    (unmatched : b.best = none) (ran : s.run start bounded b = .ok (report, b')) :
    ∀ m ∈ report.found, won m := by
  have first : Achieves (Board.Sound s.program.arena.size) (s.Bears here won 0)
      (s.lap (fun _ => true) (s.leftAt start) b) :=
    inherits.achieves_lap ready (leftAt_le within) (bears_start sound none_waits idle unmatched _)
  cases runsTo_of_run ran with
  | first lap settled =>
    rw [lap] at first
    exact first.won
  | second lap unmatched unbounded again =>
    rw [lap] at first
    have second : Achieves (Board.Sound s.program.arena.size) (s.Bears here won 0)
        (s.lap (s.dir.prefers · start) s.extent _) :=
      inherits.achieves_lap ready (Nat.le_refl _) first.drop
    rw [again] at second
    exact second.won
  | firstOverflow | secondOverflow => exact fun m is => nomatch is

end Inherits

end CursorRegex.Scan
