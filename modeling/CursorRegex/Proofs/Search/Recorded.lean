import CursorRegex.Proofs.Program.Visits
import CursorRegex.Proofs.Search.Answer
import CursorRegex.Proofs.Search.Heredity
import CursorRegex.Proofs.Search.Queries

/-! # What a match records

A thread follows a path of the program, and its marks are the last edges of each group that the path met
(`Scan.Traced`).  This is all there is to know about the captures of a match: they come from one path,
which is well nested because traces of the term are, so a group that was opened was closed again, inside
the match and around a match of what is in the group (`Regex.captures_of_path`). -/
set_option autoImplicit false

namespace CursorRegex

/-! ## Marks along a path -/

def Direction.markOf (dir : Direction) (opened closed : Option Nat) : Mark :=
  match dir with
  | .forward => ⟨opened, closed⟩
  | .backward => ⟨closed, opened⟩

theorem Direction.set_openEdge (dir : Direction) (opened closed : Option Nat) (pos : Nat) :
    (dir.markOf opened closed).set dir.openEdge pos = dir.markOf (some pos) closed := by
  cases dir <;> rfl

theorem Direction.set_closeEdge (dir : Direction) (opened closed : Option Nat) (pos : Nat) :
    (dir.markOf opened closed).set dir.closeEdge pos = dir.markOf opened (some pos) := by
  cases dir <;> rfl

@[simp] theorem Direction.markOf_none (dir : Direction) : dir.markOf none none = .none := by
  cases dir <;> rfl

theorem Direction.markOf_some (dir : Direction) (opened closed : Nat) :
    dir.markOf (some opened) (some closed) =
      ⟨some (dir.spanOf opened closed).start, some (dir.spanOf opened closed).stop⟩ := by
  cases dir <;> rfl

/-- The marks are the last edges met on a trace. -/
def Records (a : Arena) (dir : Direction) (trace : List (Nat × Nat)) (m : Marks) : Prop :=
  ∀ k, (bound : k < 9) → m.marks[k] =
    dir.markOf (a.lastVisit (.openGroup (some (k + 1))) trace)
      (a.lastVisit (.closeGroup (some (k + 1))) trace)

namespace Records

variable {a : Arena} {dir : Direction} {trace : List (Nat × Nat)} {m m' : Marks} {i pos : Nat}
  {next number : Option Nat}

theorem nil (a : Arena) (dir : Direction) : Records a dir [] .none := by
  intro k bound
  simp [Marks.none, Arena.lastVisit_nil]

theorem passed {kind : Kind} (h : Records a dir trace m) (here : a.get? i = some ⟨kind, next⟩)
    (no_open : ∀ number, kind ≠ .openGroup number) (no_close : ∀ number, kind ≠ .closeGroup number) :
    Records a dir (trace ++ [(i, pos)]) m := by
  intro k bound
  rw [Arena.lastVisit_snoc here, Arena.lastVisit_snoc here, if_neg (no_open _), if_neg (no_close _)]
  exact h k bound

theorem opened (h : Records a dir trace m) (here : a.get? i = some ⟨.openGroup number, next⟩)
    (recorded : m.recordIf dir.openEdge number pos = .ok m') :
    Records a dir (trace ++ [(i, pos)]) m' := by
  intro k bound
  rw [Marks.getElem_recordIf recorded bound, Arena.lastVisit_snoc here, Arena.lastVisit_snoc here,
    h k bound]
  by_cases mine : number = some (k + 1) <;> simp [mine, Direction.set_openEdge]

theorem closed (h : Records a dir trace m) (here : a.get? i = some ⟨.closeGroup number, next⟩)
    (recorded : m.recordIf dir.closeEdge number pos = .ok m') :
    Records a dir (trace ++ [(i, pos)]) m' := by
  intro k bound
  rw [Marks.getElem_recordIf recorded bound, Arena.lastVisit_snoc here, Arena.lastVisit_snoc here,
    h k bound]
  by_cases mine : number = some (k + 1) <;> simp [mine, Direction.set_closeEdge]

end Records

namespace Scan

variable {left : Nat} {s : Scan} {t t' : Thread}

/-- A thread with `left` characters left has followed a path that its marks record. -/
def Traced (s : Scan) (left : Nat) (t : Thread) : Prop :=
  t.seed ≤ s.extent ∧ ∃ trace,
    s.program.arena.Path s.program.classes s.view s.dir s.entry t.seed trace t.inst (s.pos left) ∧
    Records s.program.arena s.dir trace t.marks

def Witnessed (s : Scan) (m : Captures) : Prop :=
  ∃ seed e trace marks r next, seed ≤ s.extent ∧
    s.program.arena.Path s.program.classes s.view s.dir s.entry seed trace r e ∧
    s.program.arena.get? r = some ⟨.accept, next⟩ ∧ Records s.program.arena s.dir trace marks ∧
    m = .ofMarks (s.dir.spanOf seed e) marks

theorem Traced.moves (ready : s.Ready) (bound : left ≤ s.extent) (traced : s.Traced left t)
    (moves : t.Moves s.program (s.cursor left) t') : s.Traced left t' := by
  obtain ⟨low, trace, path, records⟩ := traced
  obtain ⟨goes, seed⟩ := Moves.goes ready bound moves
  refine ⟨seed ▸ low, _, seed ▸ path.snoc goes, ?_⟩
  cases moves with
  | atom here | empty here | forkNext here | forkRight here => exact records.passed here nofun nofun
  | openGroup here recorded => exact records.opened here recorded
  | closeGroup here recorded => exact records.closed here recorded

theorem Traced.takes (ready : s.Ready) (bound : left ≤ s.extent) (traced : s.Traced left t)
    (takes : t.Takes s.program (s.cursor left) t') : ∃ k, left = k + 1 ∧ s.Traced k t' := by
  obtain ⟨low, trace, path, records⟩ := traced
  obtain ⟨⟨k, before, goes⟩, seed⟩ := Takes.goes ready bound takes
  refine ⟨k, before, seed ▸ low, _, seed ▸ path.snoc goes, ?_⟩
  cases takes with
  | atom here => exact records.passed here nofun nofun

theorem inherits_traced (ready : s.Ready) : s.Inherits s.Traced s.Witnessed := by
  refine ⟨fun left bound => ?_, fun left bound => ⟨?_, ?_, ?_⟩⟩
  · have low := pos_le ready bound
    rw [length_view ready] at low
    exact ⟨low, [], .nil _ _, .nil _ _⟩
  · exact fun t t' traced moves => traced.moves ready bound moves
  · exact fun t t' traced takes => traced.takes ready bound takes
  · rintro t m ⟨low, trace, path, records⟩ wins
    cases wins with
    | accept here => exact ⟨t.seed, s.pos left, trace, t.marks, t.inst, _, low, path, here, records, rfl⟩

end Scan

/-! ## Slots -/

/-- What the slot of group `k` holds when the match records a path: nothing, if the path never opens the
group, and else the span between the edges where it did so for the last time, which is in order, inside
the match, and a match of `body`. -/
inductive SlotOf (p : Program) (text : Text) (dir : Direction) (trace : List (Nat × Nat)) (m : Captures)
    (mark : Mark) (k : Nat) (body : Option Tree) : Prop where
  | unset (never : ∀ step ∈ trace, ¬ p.arena.IsAt (.openGroup (some k)) step.1)
      (unmarked : mark = .none) (empty : m.get? k = none)
  | set {here there : Nat} {span : Span} {t : Tree}
      (opened : p.arena.lastVisit (.openGroup (some k)) trace = some here)
      (closed : p.arena.lastVisit (.closeGroup (some k)) trace = some there)
      (ordered : span = dir.spanOf here there ∧ span.start ≤ span.stop)
      (marked : mark = ⟨some span.start, some span.stop⟩) (full : m.get? k = some span)
      (inside : m.whole.start ≤ span.start ∧ span.stop ≤ m.whole.stop)
      (group : body = some t) (reads : t.Matches p.classes text span.start span.stop) :
      SlotOf p text dir trace m mark k body

/-- A trace without edges of the group leaves its slot empty. -/
theorem SlotOf.of_unvisited {p : Program} {text : Text} {dir : Direction} {trace : List (Nat × Nat)}
    {m : Captures} {mark : Mark} {k : Nat} {body : Option Tree} (slot : m.get? k = mark.span?)
    (marked : mark = dir.markOf (p.arena.lastVisit (.openGroup (some k)) trace)
      (p.arena.lastVisit (.closeGroup (some k)) trace))
    (opened : p.arena.lastVisit (.openGroup (some k)) trace = none)
    (closed : p.arena.lastVisit (.closeGroup (some k)) trace = none) :
    SlotOf p text dir trace m mark k body := by
  rw [opened, closed, dir.markOf_none] at marked
  refine .unset (Arena.lastVisit_eq_none_iff.mp opened) marked ?_
  rw [slot, marked]
  rfl

theorem Direction.spanOf_ordered {dir : Direction} {range : Nat → Nat → Prop} {here there : Nat}
    (h : dir.Between range here there) :
    range (dir.spanOf here there).start (dir.spanOf here there).stop := by
  cases dir <;> exact h

/-- Marks of an accepting path fill the slots as the path went. -/
theorem slotOf_of_path {p : Program} {tree : Option Tree} {text : Text} {dir : Direction}
    {seed e r k : Nat} {next : Option Nat} {trace : List (Nat × Nat)} {marks : Marks}
    (encodes : p.Encodes (tree.map (·.term 0))) (text_bounded : text.Bounded)
    (low : seed ≤ text.length)
    (path : p.arena.Path p.classes text dir (p.entry dir) seed trace r e)
    (accepts : p.arena.get? r = some ⟨.accept, next⟩) (records : Records p.arena dir trace marks)
    (bound : k < 9) :
    SlotOf p text dir trace (.ofMarks (dir.spanOf seed e) marks) marks.marks[k] (k + 1)
      ((Tree.groupsOf tree)[k]?.map (·.2)) := by
  have high := path.le_length text_bounded low
  have mark := records k bound
  have slot := Captures.get?_ofMarks (dir.spanOf seed e) marks bound
  obtain ⟨lo, entered, programs⟩ := encodes.halves dir
  rw [entered] at path
  cases tree with
  | none =>
    obtain ⟨rfl, -⟩ := path.eq_nil_of_accept programs
    exact .of_unvisited slot mark Arena.lastVisit_nil Arena.lastVisit_nil
  | some t =>
    obtain ⟨tr, mid, rest, rfl, runs, onward⟩ := programs.1.splits accepts path
    obtain ⟨rfl, rfl⟩ := onward.eq_nil_of_accept programs.2
    rw [List.append_nil] at records mark ⊢
    cases runs.keeps programs.1 (t.unnested_term 0 (k + 1)) low high with
    | untouched opened closed => exact .of_unvisited slot mark opened closed
    | @enclosed here there body opened closed member inner before after =>
      obtain ⟨-, opening, body, found, rfl⟩ := Tree.mem_groups_term member
      have reads := Direction.spanOf_ordered inner
      have ordered := (Tree.Matches.inside text_bounded reads).1
      have marked : marks.marks[k] =
          ⟨some (dir.spanOf here there).start, some (dir.spanOf here there).stop⟩ := by
        rw [mark, opened, closed, dir.markOf_some]
      refine .set opened closed ⟨rfl, ordered⟩ marked ?_ ?_ ?_
        (((body.rearranged_term (k + 1)).matches_iff _ _).mp reads)
      · rw [slot, marked, Mark.span?, if_pos ordered]
      · cases dir with
        | forward => exact ⟨before, after⟩
        | backward => exact ⟨after, before⟩
      · rw [Tree.groupsOf, Option.elim_some]
        rw [Nat.zero_add, Nat.add_sub_cancel] at found
        rw [found]
        rfl

namespace Regex

variable {limits : Limits} {pattern : String} {r : Regex} {text : Text} {query : Query}

/-- The captures of a match come from one path of the program over the whole match.  The slot of each
group holds the span between the edges that the path met last. -/
theorem captures_of_path {report : Report} {m : Captures}
    (compiled : compileWith limits pattern = .ok r) (full : text.Full)
    (searched : r.answer text query = .ok report) (found : report.found = some m) :
    ∃ ts classes tree, Spells 0 0 pattern.toList ts classes ∧ Parses ts tree ∧
      r.program.classes = .ofList classes ∧
      Token.openings ts = (Tree.groupsOf tree).map (·.1) ∧
      ∃ seed e trace marks,
        r.program.AcceptingPath (text.take (query.extent text)) query.dir seed e trace ∧
        m = .ofMarks (query.dir.spanOf seed e) marks ∧
        ∀ k, (bound : k < 9) →
          SlotOf r.program (text.take (query.extent text)) query.dir trace m marks.marks[k] (k + 1)
            ((Tree.groupsOf tree)[k]?.map (·.2)) := by
  obtain ⟨⟨ts, classes⟩, tree, read, parses, table, encodes⟩ := exists_tree compiled
  obtain ⟨first, b, -, ready, run⟩ := exists_run encodes full searched
  have witnessed := (Scan.inherits_traced ready).of_run ready (query.start_le text) r.sound_board
    r.not_mem_current_board r.not_mem_next_board rfl run m found
  obtain ⟨seed, e, trace, marks, end_, next, low, path, accepts, records, rfl⟩ := witnessed
  have length := Text.length_take_of_le (query.extent_le text)
  refine ⟨ts, classes, tree, Tokens.ofPattern_eq_ok_iff.mp read, parses, table, parses.openings_eq,
    seed, e, trace, marks, ⟨end_, next, path, accepts⟩, rfl, fun k bound => ?_⟩
  exact slotOf_of_path encodes (Text.bounded_take full _) (length.symm ▸ low) path accepts records bound

/-- The second pass through a loop leaves the inner group as the first one left it. -/
theorem captures_of_path_in_loop : ∃ text r report m trace,
    text = .ofArray #['a', 'b'] ∧ text.Full ∧ compileWith {} "((a)|b)+" = .ok r ∧
    r.answer text (.forward 0 none) = .ok report ∧ report.found = some m ∧ m.whole = ⟨0, 2⟩ ∧
    r.program.AcceptingPath text .forward 0 2 trace ∧
    r.program.arena.lastVisit (.openGroup (some 1)) trace = some 1 ∧ m.get? 1 = some ⟨1, 2⟩ ∧
    r.program.arena.lastVisit (.openGroup (some 2)) trace = some 0 ∧ m.get? 2 = some ⟨0, 1⟩ := by
  have ran : (compileWith {} "((a)|b)+").map (·.answer (.ofArray #['a', 'b']) (.forward 0 none)) =
      .ok (.ok ⟨some ⟨⟨0, 2⟩, #v[some ⟨1, 2⟩, some ⟨0, 1⟩, none, none, none, none, none, none, none]⟩,
        []⟩) := by
    decide +kernel
  obtain ⟨r, compiled, ran⟩ := map_eq_ok.mp ran
  have full := Text.full_ofArray #['a', 'b']
  obtain ⟨-, -, tree, -, -, -, -, seed, e, trace, marks, path, is, slots⟩ :=
    captures_of_path compiled full ran rfl
  have whole : (⟨0, 2⟩ : Span) = ⟨seed, e⟩ := congrArg (·.whole) is
  obtain ⟨rfl, rfl⟩ := Span.mk.inj whole
  have path : r.program.AcceptingPath (Text.ofArray #['a', 'b']) .forward 0 2 trace :=
    full.take_length ▸ path
  refine ⟨_, r, _, _, trace, rfl, full, compiled, ran, rfl, rfl, path, ?_, rfl, ?_, rfl⟩
  · cases slots 0 (by decide) with
    | unset _ _ empty => cases empty
    | set opened closed ordered _ filled =>
      cases filled
      cases ordered.1
      exact opened
  · cases slots 1 (by decide) with
    | unset _ _ empty => cases empty
    | set opened closed ordered _ filled =>
      cases filled
      cases ordered.1
      exact opened

end Regex

end CursorRegex
