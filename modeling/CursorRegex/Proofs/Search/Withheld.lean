import CursorRegex.Proofs.Search.Capacity
import CursorRegex.Proofs.Search.Independence
import CursorRegex.Proofs.Search.Twins

/-! # The limit on threads only withholds answers

A search under one limit on threads runs beside the same search under another: a scan is its own twin, so
the two tell the same or the one with less room says that it was too little (`Scan.eq_or_overflow`).  A
search that says so gives no match and says it last (`Scan.RunsTo.withheld`).  As some limit is always
enough, there is one answer that every search gives or withholds (`Regex.answer_or_overflow`). -/
set_option autoImplicit false

namespace CursorRegex

namespace Scan

variable {limit limit' start : Nat} {s : Scan} {bounded : Bool} {b b₁ : Board limit}
  {b' b₁' : Board limit'} {report report' : Report}

theorem twins_refl (ready : s.Ready) : s.Twins s (.refl s.dir) where
  ready := ready
  ready' := ready
  extent := rfl
  first := rfl
  upcoming _ _ := rfl
  begins _ _ := Link.threads_refl_iff.mpr rfl
  acts _ _ _ _ _ _ threads does does' := by
    cases Link.threads_refl_iff.mp threads
    cases does.unique does'
    exact Link.acts_refl _

theorem RunsTo.toward_eq (h : s.RunsTo start bounded b (report, b₁)) :
    report.log.map (·.toward s.dir) = report.log := by
  cases h <;> rfl

/-- Where a list was full, there is no match, and this is logged last. -/
theorem RunsTo.withheld (h : s.RunsTo start bounded b (report, b₁))
    (full : .listOverflow ∈ report.log) :
    report.found = none ∧ report.log.getLast? = some .listOverflow := by
  cases h with
  | first => cases full
  | second =>
    have wrapped := List.mem_singleton.mp full
    cases wrapped
  | firstOverflow | secondOverflow => exact ⟨rfl, rfl⟩

/-- With less room for threads, a search tells the same or that there was too little room. -/
theorem eq_or_overflow (ready : s.Ready) (within : start ≤ s.extent) (le : limit ≤ limit')
    (begins : s.Beside s (.refl s.dir) b b') (ran : s.run start bounded b = .ok (report, b₁))
    (ran' : s.run start bounded b' = .ok (report', b₁')) :
    report = report' ∨ .listOverflow ∈ report.log := by
  cases (twins_refl ready).alike begins within rfl (fun _ _ => rfl) ran ran' with
  | short _ full => exact Or.inr full
  | short' less _ => exact absurd le (Nat.not_le.mpr less)
  | same log found =>
    left
    rw [(runsTo_of_run ran).toward_eq] at log
    obtain ⟨found₁, log₁⟩ := report
    obtain ⟨found₂, log₂⟩ := report'
    cases log
    cases found with
    | none => rfl
    | some same =>
      cases same
      rfl

end Scan

namespace Regex

variable {limits : Limits} {pattern : String} {r : Regex} {text : Text} {query : Query} {o : Option Term}
  {few more : Nat} {report report' : Report}

def withThreads (threads : Nat) (r : Regex) : Regex :=
  { r with limits := { r.limits with threads } }

theorem compileWith_withThreads (compiled : compileWith limits pattern = .ok r) (threads : Nat) :
    compileWith { limits with threads } pattern = .ok (r.withThreads threads) := by
  obtain ⟨program, built, rfl⟩ := map_eq_ok.mp compiled
  have same : Program.compile { limits with threads } pattern = Program.compile limits pattern := rfl
  exact map_eq_ok.mpr ⟨program, same.trans built, rfl⟩

theorem eq_or_overflow (encodes : r.program.Encodes o) (full : text.Full) (le : few ≤ more)
    (searched : (r.withThreads few).answer text query = .ok report)
    (searched' : (r.withThreads more).answer text query = .ok report') :
    report = report' ∨ .listOverflow ∈ report.log := by
  obtain ⟨first, b, begins, ready, ran⟩ := exists_run (r := r.withThreads few) encodes full searched
  obtain ⟨first', b', begins', -, ran'⟩ := exists_run (r := r.withThreads more) encodes full searched'
  cases begins.symm.trans begins'
  have start : (r.scanOf text query first).Beside (r.scanOf text query first) (.refl query.dir)
      (r.withThreads few).board (r.withThreads more).board :=
    .start (r.withThreads few).sound_board (r.withThreads more).sound_board
      (r.withThreads few).not_mem_current_board (r.withThreads more).not_mem_current_board
      (r.withThreads few).not_mem_next_board (r.withThreads more).not_mem_next_board rfl rfl
  exact Scan.eq_or_overflow ready (query.start_le text) le start ran ran'

theorem withheld (encodes : r.program.Encodes o) (full : text.Full)
    (searched : r.answer text query = .ok report) (overflowed : .listOverflow ∈ report.log) :
    report.found = none ∧ report.log.getLast? = some .listOverflow := by
  obtain ⟨first, b, -, -, ran⟩ := exists_run encodes full searched
  exact (Scan.runsTo_of_run ran).withheld overflowed

theorem exists_unlimited (compiled : compileWith limits pattern = .ok r) (full : text.Full)
    (query : Query) : ∃ enough report, (r.withThreads enough).answer text query = .ok report ∧
      .listOverflow ∉ report.log := by
  let enough := r.program.slots query.dir
    (min ((r.program.half query.dir).card - 1) (query.extent text))
  obtain ⟨classes, tree, -, -, realizes⟩ :=
    compileWith_eq_ok (compileWith_withThreads compiled enough)
  obtain ⟨report, answered⟩ := realizes.exists_report full query
  obtain ⟨o, encodes, -⟩ := realizes
  obtain ⟨first, b, -, ready, ran⟩ := exists_run encodes full answered
  obtain ⟨program, built, rfl⟩ := map_eq_ok.mp compiled
  obtain ⟨accepting, contained⟩ := (Program.exists_selfContained built).2 query.dir
  obtain ⟨report', b', ran', quiet⟩ := (waits_board query first).exists_run ready contained
    (Nat.le_refl enough) (query.start_le text) query.bounded
  cases ran.symm.trans ran'
  exact ⟨enough, report, answered, quiet⟩

/-- There is one answer to a query, which every limit on threads that is high enough gives.  A lower one
gives it too, and then so does every limit in between, or there is no match and the full list is what is
logged last. -/
theorem answer_or_overflow (compiled : compileWith limits pattern = .ok r) (full : text.Full)
    (query : Query) :
    (∀ threads, compileWith { limits with threads } pattern = .ok (r.withThreads threads)) ∧
      ∃ unlimited, .listOverflow ∉ unlimited.log ∧
        (∃ enough, ∀ threads, enough ≤ threads →
          (r.withThreads threads).answer text query = .ok unlimited) ∧
        ∀ few more, few ≤ more → ∃ report, (r.withThreads few).answer text query = .ok report ∧
          (.listOverflow ∉ report.log →
            report = unlimited ∧ (r.withThreads more).answer text query = .ok unlimited) ∧
          (.listOverflow ∈ report.log →
            report.found = none ∧ report.log.getLast? = some .listOverflow) := by
  obtain ⟨classes, tree, -, -, realizes⟩ := compileWith_eq_ok compiled
  obtain ⟨o, encodes, same⟩ := realizes
  have answers : ∀ threads, ∃ report, (r.withThreads threads).answer text query = .ok report :=
    fun threads => Realizes.exists_report (r := r.withThreads threads) ⟨o, encodes, same⟩ full query
  obtain ⟨enough, unlimited, answered, quiet⟩ := exists_unlimited compiled full query
  -- What a search tells without an overflow it tells under any higher limit.
  have lasts : ∀ {few more report}, few ≤ more → (r.withThreads few).answer text query = .ok report →
      .listOverflow ∉ report.log → (r.withThreads more).answer text query = .ok report := by
    intro few more report le searched quiet
    obtain ⟨report', searched'⟩ := answers more
    rcases eq_or_overflow encodes full le searched searched' with same | overflowed
    · exact same ▸ searched'
    · exact absurd overflowed quiet
  refine ⟨compileWith_withThreads compiled, unlimited, quiet,
    ⟨enough, fun threads le => lasts le answered quiet⟩, fun few more le => ?_⟩
  obtain ⟨report, searched⟩ := answers few
  refine ⟨report, searched, fun settled => ?_, ?_⟩
  · have top := lasts (Nat.le_max_left few enough) searched settled
    have top' := lasts (Nat.le_max_right few enough) answered quiet
    cases top.symm.trans top'
    exact ⟨rfl, lasts le searched settled⟩
  · exact withheld (r := r.withThreads few) encodes full searched

/-- Under a limit of three threads the second lap of this search finds its list full.  Under any higher
limit it finds the one match there is. -/
theorem answer_or_overflow_second_lap : ∃ r text, text = .ofArray #['x', 'a', 'b', 'c', 'd'] ∧
    text.Full ∧ compileWith { threads := 3 } "(a|ab)(c|bcd)?" = .ok r ∧
    r.answer text (.forward 2 none) = .ok ⟨none, [.wrapped .forward 5, .listOverflow]⟩ ∧
    ∀ threads, 4 ≤ threads → (r.withThreads threads).answer text (.forward 2 none) =
      .ok ⟨some ⟨⟨1, 5⟩, #v[some ⟨1, 2⟩, some ⟨2, 5⟩, none, none, none, none, none, none, none]⟩,
        [.wrapped .forward 5]⟩ := by
  have ran : (compileWith { threads := 3 } "(a|ab)(c|bcd)?").map (fun r =>
      (r.answer (.ofArray #['x', 'a', 'b', 'c', 'd']) (.forward 2 none),
        (r.withThreads 4).answer (.ofArray #['x', 'a', 'b', 'c', 'd']) (.forward 2 none))) =
      .ok (.ok ⟨none, [.wrapped .forward 5, .listOverflow]⟩,
        .ok ⟨some ⟨⟨1, 5⟩,
          #v[some ⟨1, 2⟩, some ⟨2, 5⟩, none, none, none, none, none, none, none]⟩,
          [.wrapped .forward 5]⟩) := by
    decide +kernel
  obtain ⟨r, compiled, ran⟩ := map_eq_ok.mp ran
  obtain ⟨three, four⟩ := Prod.mk.inj ran
  have full := Text.full_ofArray #['x', 'a', 'b', 'c', 'd']
  obtain ⟨-, unlimited, -, -, gives⟩ := answer_or_overflow compiled full (.forward 2 none)
  refine ⟨r, _, rfl, full, compiled, three, fun threads le => ?_⟩
  obtain ⟨report, searched, settled, -⟩ := gives 4 threads le
  cases four.symm.trans searched
  obtain ⟨rfl, higher⟩ := settled (by decide)
  exact higher

end Regex

end CursorRegex
