import CursorRegex.Proofs.Pattern.Spelling
import CursorRegex.Proofs.Program.Acceptance
import CursorRegex.Proofs.Search.Choice

/-! # What a search tells

The first lap of a search begins attempts at the positions from the start on, the second at those
before it: no position is left out, and none is tried twice (`Scan.begins_ahead_iff`,
`Scan.begins_behind_iff`).  So the first lap chooses among the ranges ahead of the start, and a second
lap, which there is only if no range is ahead, among all of them (`Matcher.Sound.exists_search`). -/
set_option autoImplicit false

namespace CursorRegex

/-! ## Where attempts begin -/

namespace Scan

variable {s : Scan} {start seed : Nat}

theorem begins_ahead_iff (within : start ≤ s.extent) :
    s.Begins (fun _ => true) (s.leftAt start) 0 seed ↔
      seed ≤ s.extent ∧ s.dir.prefers seed start = false := by
  constructor
  · rintro ⟨left, -, bound, rfl, -⟩
    cases dir : s.dir <;> simp only [leftAt, pos, dir, Direction.prefers,
      decide_eq_false_iff_not] at bound ⊢ <;> omega
  · rintro ⟨inside, after⟩
    refine ⟨s.leftAt seed, Nat.zero_le _, ?_, ?_, rfl⟩
    · cases dir : s.dir <;> simp only [leftAt, dir, Direction.prefers,
        decide_eq_false_iff_not] at after ⊢ <;> omega
    · cases dir : s.dir <;> simp only [leftAt, pos, dir]
      omega

theorem begins_behind_iff :
    s.Begins (s.dir.prefers · start) s.extent 0 seed ↔
      seed ≤ s.extent ∧ s.dir.prefers seed start = true := by
  constructor
  · rintro ⟨left, -, bound, rfl, admitted⟩
    refine ⟨?_, admitted⟩
    cases dir : s.dir <;> simp only [pos, dir] <;> omega
  · rintro ⟨inside, before⟩
    refine ⟨s.leftAt seed, Nat.zero_le _, leftAt_le inside, ?_, before⟩
    cases dir : s.dir <;> simp only [leftAt, pos, dir]
    omega

end Scan

/-! ## Ranges ahead -/

def Direction.seedOf : Direction → Nat → Nat → Nat
  | .forward, i, _ => i
  | .backward, _, j => j

/-- The ranges for which an attempt begins no earlier than at `start`. -/
def Direction.Ahead (dir : Direction) (range : Nat → Nat → Prop) (start i j : Nat) : Prop :=
  range i j ∧ dir.prefers (dir.seedOf i j) start = false

/-- What a search may tell that chooses among some ranges.  It says nothing if a list was full. -/
inductive Tells (dir : Direction) (range : Nat → Nat → Prop) (start extent : Nat) (bounded : Bool) :
    Report → Prop where
  | ahead {found : Option Captures} (settled : found.isSome = true ∨ bounded = true)
      (choice : dir.Foremost (dir.Ahead range start) (found.map (·.whole))) :
      Tells dir range start extent bounded ⟨found, []⟩
  | around {found : Option Captures} (unbounded : bounded = false)
      (nothing : ∀ i j, ¬ dir.Ahead range start i j)
      (choice : dir.Foremost range (found.map (·.whole))) :
      Tells dir range start extent bounded ⟨found, [.wrapped dir extent]⟩
  | overflow {log : List Event} (full : .listOverflow ∈ log)
      (within : bounded = true → log = [.listOverflow]) : Tells dir range start extent bounded ⟨none, log⟩

namespace Tells

variable {dir : Direction} {range : Nat → Nat → Prop} {start extent i j : Nat} {report : Report}

theorem of_bounded (h : Tells dir range start extent true report)
    (quiet : .listOverflow ∉ report.log) :
    dir.Foremost (dir.Ahead range start) (report.found.map (·.whole)) := by
  cases h with
  | ahead settled choice => exact choice
  | around unbounded => cases unbounded
  | overflow full => exact absurd full quiet

/-- A search with one lap does not wrap around. -/
theorem not_wrapped (h : Tells dir range start extent true report) (dir' : Direction) (pos : Nat) :
    .wrapped dir' pos ∉ report.log := by
  cases h with
  | ahead => exact List.not_mem_nil
  | around unbounded => cases unbounded
  | overflow full within => simp [within rfl]

theorem of_ahead (h : Tells dir range start extent false report)
    (quiet : .listOverflow ∉ report.log) (ahead : dir.Ahead range start i j) :
    report.log = [] ∧ dir.Foremost (dir.Ahead range start) (report.found.map (·.whole)) := by
  cases h with
  | ahead settled choice => exact ⟨rfl, choice⟩
  | around unbounded nothing => exact absurd ahead (nothing i j)
  | overflow full => exact absurd full quiet

theorem of_none_ahead (h : Tells dir range start extent false report)
    (quiet : .listOverflow ∉ report.log) (nothing : ∀ i j, ¬ dir.Ahead range start i j) :
    report.log = [.wrapped dir extent] ∧ dir.Foremost range (report.found.map (·.whole)) := by
  cases h with
  | @ahead found settled choice =>
    cases found with
    | none => simp at settled
    | some m => exact absurd choice.holds (nothing _ _)
  | around unbounded nothing choice => exact ⟨rfl, choice⟩
  | overflow full => exact absurd full quiet

end Tells

namespace Regex

variable {r : Regex}

/-- The program encodes the tree, up to the order of stacked quantifiers. -/
def Realizes (r : Regex) (tree : Option Tree) : Prop :=
  ∃ o, r.program.Encodes o ∧ Option.Rel (fun e t => Tree.Rearranged (Term.tree e) t) o tree

theorem compileWith_eq_ok {limits : Limits} {pattern : String}
    (compiled : compileWith limits pattern = .ok r) :
    ∃ classes tree, (∀ classes' tree', Says pattern classes' tree' ↔
        classes' = classes ∧ tree' = tree) ∧
      r.program.classes = .ofList classes ∧ r.Realizes tree := by
  obtain ⟨program, built, rfl⟩ := map_eq_ok.mp compiled
  obtain ⟨⟨ts, classes⟩, o, tree, read, table, encodes, parses, same⟩ := Program.compile_eq_ok built
  have told : Says pattern classes tree := ⟨ts, Tokens.ofPattern_eq_ok_iff.mp read, parses⟩
  refine ⟨classes, tree, fun classes' tree' => ⟨fun other => other.unique told, ?_⟩, table, o,
    encodes, same⟩
  rintro ⟨rfl, rfl⟩
  exact told

end Regex

/-! ## Searches -/

namespace Scan

variable {s : Scan} {start : Nat} {range : Nat → Nat → Prop} {bounded : Bool} {report : Report}

theorem Answers.tells (within : start ≤ s.extent)
    (leads : ∀ seed e, seed ≤ s.extent → (s.Leads s.entry seed e ↔ s.dir.Between range seed e))
    (inside : ∀ i j, range i j → i ≤ j ∧ j ≤ s.extent) (h : s.Answers start bounded report) :
    Tells s.dir range start s.extent bounded report := by
  have low {seed e : Nat} (holds : s.dir.Between range seed e) : seed ≤ s.extent := by
    cases dir : s.dir with
    | forward =>
      rw [dir] at holds
      have ordered := inside seed e holds
      omega
    | backward =>
      rw [dir] at holds
      exact (inside e seed holds).2
  have ahead : ∀ seed e,
      s.Begins (fun _ => true) (s.leftAt start) 0 seed ∧ s.Leads s.entry seed e ↔
        s.dir.Between (s.dir.Ahead range start) seed e := by
    intro seed e
    have split : s.dir.Between (s.dir.Ahead range start) seed e ↔
        s.dir.Between range seed e ∧ s.dir.prefers seed start = false := by
      cases s.dir <;> exact Iff.rfl
    rw [begins_ahead_iff within, split]
    constructor
    · rintro ⟨⟨bound, after⟩, reaches⟩
      exact ⟨(leads seed e bound).mp reaches, after⟩
    · rintro ⟨holds, after⟩
      exact ⟨⟨low holds, after⟩, (leads seed e (low holds)).mpr holds⟩
  cases h with
  | first settled choice => exact .ahead settled (choice.foremost ahead)
  | second unbounded nothing choice =>
    have none_ahead := (nothing.foremost ahead).nothing
    refine .around unbounded none_ahead (choice.foremost fun seed e => ?_)
    rw [begins_behind_iff]
    constructor
    · rintro ⟨⟨bound, -⟩, reaches⟩
      exact (leads seed e bound).mp reaches
    · intro holds
      have reaches := (leads seed e (low holds)).mpr holds
      cases before : s.dir.prefers seed start with
      | true => exact ⟨⟨low holds, rfl⟩, reaches⟩
      | false =>
        have begins := (begins_ahead_iff within).mpr ⟨low holds, before⟩
        exact absurd reaches (nothing seed e begins)
  | firstOverflow => exact .overflow (by simp) fun _ => rfl
  | secondOverflow unbounded nothing =>
    exact .overflow (by simp) fun is => absurd (unbounded ▸ is) Bool.false_ne_true

end Scan

namespace Matcher

variable {r : Regex} {m : Matcher r} {tree : Option Tree} {text : Text} {extent start : Nat}

structure Sound (m : Matcher r) : Prop where
  current : m.current.Sound r.program.arena.size
  next : m.next.Sound r.program.arena.size

theorem sound_new : (new r).Sound := ⟨ThreadList.sound_empty _, ThreadList.sound_empty _⟩

/-- Whatever was searched before, a search ends and tells something. -/
theorem Sound.exists_search (sound : m.Sound) (dir : Direction) (realizes : r.Realizes tree)
    (full : text.Full) (inside : extent ≤ text.length) (whole : dir = .backward → extent = text.length)
    (within : start ≤ extent) (bounded : Bool) :
    ∃ report m', m.search dir text extent start bounded = .ok (report, m') ∧ m'.Sound ∧
      Tells dir (MatchesAt r.program.classes (text.take extent) tree) start extent bounded report := by
  obtain ⟨current, next⟩ := m
  obtain ⟨o, encodes, same⟩ := realizes
  obtain ⟨first, begins, isFirst⟩ := Arena.exists_firstChar (encodes.entry_lt dir)
  have ready := Regex.ready_scan encodes full inside whole isFirst
  have length : (text.take extent).length = extent := Text.length_take_of_le inside
  obtain ⟨report, b, run, sound', answers⟩ :=
    Scan.exists_answer (b := ⟨current.clear, next.clear, none⟩) ready within
      ⟨ThreadList.sound_clear sound.current, ThreadList.sound_clear sound.next⟩
      current.not_mem_clear next.not_mem_clear rfl bounded
  have searched : (Matcher.mk current next).search dir text extent start bounded =
      .ok (report, ⟨b.current, b.next⟩) :=
    bind_eq_ok.mpr ⟨first, begins, bind_eq_ok.mpr ⟨(report, b), run, rfl⟩⟩
  refine ⟨report, ⟨b.current, b.next⟩, searched, ⟨sound'.current, sound'.next⟩, ?_⟩
  refine answers.tells within (fun seed e low => ?_) fun i j range => ?_
  · refine (Regex.leads_scan_iff encodes full ?_).trans ?_
    · rwa [length]
    · cases dir <;> exact matchesAt_congr same _ _
  · have ordered := range.inside (Text.bounded_take full extent)
    rwa [length] at ordered

end Matcher

end CursorRegex
