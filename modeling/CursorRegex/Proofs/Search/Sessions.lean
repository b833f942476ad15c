import CursorRegex.Proofs.Search.Queries
import Mathlib.Data.List.Forall2

/-! # One matcher for many searches

A search begins by clearing both lists of its matcher, and lists that are sound are cleared to empty ones.
So a search does with a sound matcher exactly what it does with a new one (`Matcher.Sound.answer_eq`), and
it leaves a sound matcher behind, also where it was abandoned at a full list.  Hence none of the searches
made with one matcher shows in those that come later (`Regex.answerAll_eq_alone`). -/
set_option autoImplicit false

namespace CursorRegex

variable {r : Regex} {m : Matcher r} {tree : Option Tree} {text : Text} {query : Query}

namespace Matcher.Sound

/-- What a sound matcher was used for before does not matter. -/
theorem answer_eq (sound : m.Sound) (text : Text) (query : Query) :
    m.answer text query = (Matcher.new r).answer text query := by
  obtain ⟨current, next⟩ := m
  have current_eq : current.clear = .empty r.program.arena.size := ThreadList.clear_eq sound.current
  have next_eq : next.clear = .empty r.program.arena.size := ThreadList.clear_eq sound.next
  have new_eq : (ThreadList.empty r.program.arena.size : ThreadList r.limits.threads).clear =
      .empty r.program.arena.size := ThreadList.clear_eq (ThreadList.sound_empty _)
  simp only [Matcher.answer_eq, Matcher.new, search, current_eq, next_eq, new_eq]

theorem exists_answer (sound : m.Sound) (realizes : r.Realizes tree) (full : text.Full)
    (query : Query) : ∃ report m', m.answer text query = .ok (report, m') ∧ m'.Sound := by
  obtain ⟨report, m', searched, sound', -⟩ := sound.exists_search query.dir realizes full
    (query.extent_le text) (query.extent_of_backward text) (query.start_le text) query.bounded
  refine ⟨report, m', ?_, sound'⟩
  rw [Matcher.answer_eq, searched]

theorem exists_answerAll (sound : m.Sound) (realizes : r.Realizes tree)
    {searches : List (Text × Query)} (full : ∀ s ∈ searches, s.1.Full) :
    ∃ reports m', m.answerAll searches = .ok (reports, m') ∧ m'.Sound ∧
      List.Forall₂ (fun s report => r.answer s.1 s.2 = .ok report) searches reports := by
  induction searches generalizing m with
  | nil => exact ⟨[], m, rfl, sound, .nil⟩
  | cons s searches ih =>
    obtain ⟨text, query⟩ := s
    have full_text : text.Full := full (text, query) List.mem_cons_self
    obtain ⟨report, m₁, answered, sound₁⟩ := sound.exists_answer realizes full_text query
    have later : ∀ s ∈ searches, s.1.Full := fun s member => full s (List.mem_cons_of_mem _ member)
    obtain ⟨reports, m', rest, sound', alone⟩ := ih sound₁ later
    refine ⟨report :: reports, m', ?_, sound', .cons ?_ alone⟩
    · exact bind_eq_ok.mpr ⟨(report, m₁), answered, bind_eq_ok.mpr ⟨(reports, m'), rest, rfl⟩⟩
    · rw [sound.answer_eq] at answered
      rw [Regex.answer, answered]
      rfl

end Matcher.Sound

namespace Regex

variable {limits : Limits} {pattern : String}

/-- Searches made with one matcher, in either direction and over any texts, all end, and each tells what it
tells when it is made alone. -/
theorem answerAll_eq_alone (compiled : compileWith limits pattern = .ok r)
    (searches : List (Text × Query)) (full : ∀ s ∈ searches, s.1.Full) :
    ∃ reports m, (Matcher.new r).answerAll searches = .ok (reports, m) ∧
      List.Forall₂ (fun s report => r.answer s.1 s.2 = .ok report) searches reports := by
  obtain ⟨classes, tree, -, -, realizes⟩ := compileWith_eq_ok compiled
  obtain ⟨reports, m, answered, -, alone⟩ := Matcher.sound_new.exists_answerAll realizes full
  exact ⟨reports, m, answered, alone⟩

/-- A search that is abandoned at a full list does not show in the next two, over another text and over the
same. -/
theorem answerAll_after_overflow : ∃ r m, ∃ text text' : Text,
    text = .ofArray #['a', 'b', 'c'] ∧ text' = .ofArray #['x', 'a', 'c'] ∧
    (∀ s ∈ [(text, Query.forward 0 none), (text', .forward 0 (some 1)), (text, .backward 3)], s.1.Full) ∧
    compileWith { threads := 3 } "(a|ab)c" = .ok r ∧
    (Matcher.new r).answerAll
        [(text, .forward 0 none), (text', .forward 0 (some 1)), (text, .backward 3)] =
      .ok ([⟨none, [.listOverflow]⟩, ⟨none, []⟩,
        ⟨some ⟨⟨0, 3⟩, #v[some ⟨0, 2⟩, none, none, none, none, none, none, none, none]⟩, []⟩], m) := by
  have ran : (compileWith { threads := 3 } "(a|ab)c").map (fun r =>
      (r.answer (.ofArray #['a', 'b', 'c']) (.forward 0 none),
        r.answer (.ofArray #['x', 'a', 'c']) (.forward 0 (some 1)),
        r.answer (.ofArray #['a', 'b', 'c']) (.backward 3))) =
      .ok (.ok ⟨none, [.listOverflow]⟩, .ok ⟨none, []⟩,
        .ok ⟨some ⟨⟨0, 3⟩, #v[some ⟨0, 2⟩, none, none, none, none, none, none, none, none]⟩, []⟩) := by
    decide +kernel
  obtain ⟨r, compiled, ran⟩ := map_eq_ok.mp ran
  simp only [Prod.mk.injEq] at ran
  have full : ∀ s ∈ [(Text.ofArray #['a', 'b', 'c'], Query.forward 0 none),
      (.ofArray #['x', 'a', 'c'], .forward 0 (some 1)), (.ofArray #['a', 'b', 'c'], .backward 3)],
      s.1.Full := by
    simp [Text.full_ofArray]
  obtain ⟨reports, m, answered, alone⟩ := answerAll_eq_alone compiled _ full
  simp only [List.forall₂_cons_left_iff, List.forall₂_nil_left_iff, ran, Except.ok.injEq] at alone
  obtain ⟨_, _, rfl, ⟨_, _, rfl, ⟨_, _, rfl, rfl, rfl⟩, rfl⟩, rfl⟩ := alone
  exact ⟨r, m, _, _, rfl, rfl, full, compiled, answered⟩

end Regex

end CursorRegex
