import CursorRegex.Proofs.Search.Tried

/-! # Forward searches

A forward search with an end finds the match of the documented syntax that starts first at or after its
start, and of those the longest, in the text up to that end.  A search without an end tells what such a
search tells up to the end of the text, and if that is nothing, what a search from the beginning
tells. -/
set_option autoImplicit false

namespace CursorRegex

namespace Regex

variable {limits : Limits} {pattern : String} {r : Regex} {tree : Option Tree} {text : Text}

theorem Realizes.exists_searchForward_some (realizes : r.Realizes tree) (full : text.Full)
    (start stop : Nat) :
    ∃ report, r.searchForward text start (some stop) = .ok report ∧
      Tells .forward (MatchesAt r.program.classes (text.take (min stop text.length)) tree)
        (min start (min stop text.length)) (min stop text.length) true report := by
  obtain ⟨report, m, searched, -, tells⟩ :=
    Matcher.sound_new.exists_search .forward realizes full (Nat.min_le_right stop text.length)
      nofun (Nat.min_le_right start _) true
  exact ⟨report, map_eq_ok.mpr ⟨(report, m), searched, rfl⟩, tells⟩

theorem Realizes.exists_searchForward_none (realizes : r.Realizes tree) (full : text.Full)
    (start : Nat) :
    ∃ report, r.searchForward text start none = .ok report ∧
      Tells .forward (MatchesAt r.program.classes text tree) (min start text.length) text.length false
        report := by
  obtain ⟨report, m, searched, -, tells⟩ :=
    Matcher.sound_new.exists_search .forward realizes full (Nat.le_refl text.length) nofun
      (Nat.min_le_right start _) false
  rw [full.take_length] at tells
  exact ⟨report, map_eq_ok.mpr ⟨(report, m), searched, rfl⟩, tells⟩

theorem Realizes.exists_searchForward_length (realizes : r.Realizes tree) (full : text.Full)
    (start : Nat) :
    ∃ report, r.searchForward text (min start text.length) (some text.length) = .ok report ∧
      Tells .forward (MatchesAt r.program.classes text tree) (min start text.length) text.length true
        report := by
  have found := realizes.exists_searchForward_some full (min start text.length) text.length
  rwa [Nat.min_self, full.take_length, Nat.min_assoc, Nat.min_self] at found

theorem ahead_forward_iff {range : Nat → Nat → Prop} {start : Nat} (i j : Nat) :
    Direction.forward.Ahead range start i j ↔ start ≤ i ∧ range i j := by
  have after : Direction.forward.prefers i start = false ↔ start ≤ i := by
    simp [Direction.prefers]
  rw [and_comm, ← after]
  exact Iff.rfl

theorem ahead_zero_iff {range : Nat → Nat → Prop} (i j : Nat) :
    Direction.forward.Ahead range 0 i j ↔ range i j := by
  rw [ahead_forward_iff]
  exact and_iff_right (Nat.zero_le i)

/-- A forward search without an end tells what the search up to the end of the text tells, and if that
is nothing, it wraps around once and tells what the search from the beginning tells.  Matches found then
may reach beyond the start.  Positions are tried in order, from the start on and then from the beginning
up to the start, each at most once, and all of them if nothing is found. -/
theorem searchForward_wraps_once (compiled : compileWith limits pattern = .ok r)
    (full : text.Full) (start : Nat) :
    ∃ classes tree ahead around again, Says pattern classes tree ∧
      r.searchForward text (min start text.length) (some text.length) = .ok ahead ∧
      r.searchForward text start none = .ok around ∧
      r.searchForward text 0 (some text.length) = .ok again ∧
      (.listOverflow ∉ ahead.log → .listOverflow ∉ around.log → .listOverflow ∉ again.log →
        (ahead.found.isSome = true →
          around.log = [] ∧ around.found.map (·.whole) = ahead.found.map (·.whole)) ∧
        (ahead.found = none →
          around.log = [.wrapped .forward text.length] ∧
          around.found.map (·.whole) = again.found.map (·.whole) ∧
          LeftmostLongest (MatchesAt (.ofList classes) text tree) (around.found.map (·.whole)))) ∧
      (∀ start stop report, r.searchForward text start (some stop) = .ok report →
        ∀ dir pos, .wrapped dir pos ∉ report.log) ∧
      ∃ first, r.program.arena.firstChar (r.program.entry .forward) = .ok first ∧
        (r.scan .forward text text.length first).TriesOnce (min start text.length) r.board around
          (List.range' (min start text.length) (text.length + 1 - min start text.length) ++
            List.range (min start text.length)) := by
  obtain ⟨classes, tree, told, table, realizes⟩ := compileWith_eq_ok compiled
  obtain ⟨ahead, searched, tells⟩ := realizes.exists_searchForward_length full start
  obtain ⟨around, searched', tells'⟩ := realizes.exists_searchForward_none full start
  obtain ⟨again, searched'', tells''⟩ := realizes.exists_searchForward_length full 0
  rw [Nat.zero_min] at searched'' tells''
  refine ⟨classes, tree, ahead, around, again, (told _ _).mpr ⟨rfl, rfl⟩, searched, searched',
    searched'', fun quiet quiet' quiet'' => ⟨fun found => ?_, fun missing => ?_⟩, ?_, ?_⟩
  · have choice := tells.of_bounded quiet
    obtain ⟨m, is⟩ := Option.isSome_iff_exists.mp found
    rw [is] at choice ⊢
    obtain ⟨log, choice'⟩ := tells'.of_ahead quiet' choice.holds
    exact ⟨log, choice'.unique choice⟩
  · have choice := tells.of_bounded quiet
    rw [missing] at choice
    obtain ⟨log, choice'⟩ := tells'.of_none_ahead quiet' choice.nothing
    have choice'' := (tells''.of_bounded quiet'').congr ahead_zero_iff
    rw [table] at choice' choice''
    exact ⟨log, choice'.unique choice'', choice'⟩
  · intro start stop report searched dir pos
    obtain ⟨report', searched', tells⟩ := realizes.exists_searchForward_some full start stop
    rw [searched] at searched'
    cases searched'
    exact tells.not_wrapped dir pos
  · obtain ⟨o, encodes, -⟩ := realizes
    obtain ⟨first, b, begins, ready, run⟩ := exists_run encodes full searched'
    obtain ⟨accepting, contained⟩ := exists_selfContained compiled .forward
    have waits : (r.scanOf text (.forward start none) first).Waits r.board := waits_board _ first
    have within : min start text.length ≤ text.length := Nat.min_le_right start text.length
    have order := Scan.order_forward (s := r.scan .forward text text.length first) rfl within
    refine ⟨first, begins, order ▸ ?_⟩
    exact Scan.triesOnce ready contained within waits (not_mem_current_board r) run

/-- Nothing matches from the start on, and the match before it goes on beyond it. -/
theorem searchForward_across_start : ∃ text r ahead around again,
    text = .ofArray #['b', 'a', 'b', 'b', 'c'] ∧ text.Full ∧ compileWith {} "ab*" = .ok r ∧
    r.searchForward text (min 2 text.length) (some text.length) = .ok ahead ∧
    r.searchForward text 2 none = .ok around ∧
    r.searchForward text 0 (some text.length) = .ok again ∧
    ahead.found = none ∧ again.found.map (·.whole) = some ⟨1, 4⟩ ∧
    around.log = [.wrapped .forward text.length] ∧
    around.found.map (·.whole) = again.found.map (·.whole) := by
  have ran : (compileWith {} "ab*").map (fun r =>
      (r.searchForward (.ofArray #['b', 'a', 'b', 'b', 'c']) 2 (some 5),
        r.searchForward (.ofArray #['b', 'a', 'b', 'b', 'c']) 2 none,
        r.searchForward (.ofArray #['b', 'a', 'b', 'b', 'c']) 0 (some 5))) =
      .ok (.ok ⟨none, []⟩,
        .ok ⟨some ⟨⟨1, 4⟩, #v[none, none, none, none, none, none, none, none, none]⟩,
          [.wrapped .forward 5]⟩,
        .ok ⟨some ⟨⟨1, 4⟩, #v[none, none, none, none, none, none, none, none, none]⟩, []⟩) := by
    decide +kernel
  obtain ⟨r, compiled, ran⟩ := map_eq_ok.mp ran
  have full := Text.full_ofArray #['b', 'a', 'b', 'b', 'c']
  obtain ⟨classes, tree, ahead, around, again, -, searched, searched', searched'', laps, -, -⟩ :=
    searchForward_wraps_once compiled full 2
  simp only [Prod.mk.injEq] at ran
  obtain ⟨ran, ran', ran''⟩ := ran
  have is := searched.symm.trans ran
  have is' := searched'.symm.trans ran'
  have is'' := searched''.symm.trans ran''
  cases is
  cases is'
  cases is''
  obtain ⟨log, same, -⟩ := (laps (by simp) (by simp) (by simp)).2 rfl
  exact ⟨_, r, _, _, _, rfl, full, compiled, searched, searched', searched'', rfl, rfl, log, same⟩

end Regex

end CursorRegex
