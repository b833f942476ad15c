import CursorRegex.Proofs.Program.Mirrored
import CursorRegex.Proofs.Search.Queries
import CursorRegex.Proofs.Search.Twins

/-! # Searching backward is searching the mirror forward

A backward search with a pattern and a forward search with its mirror in the reversed text are twins:
what lies behind a position in one text lies ahead of it in the other, and the two programs are the same
but for where their instructions lie.  So the searches tell the same, with every position counted from
the other end of the text (`Regex.searchBackward_mirror`). -/
set_option autoImplicit false

namespace CursorRegex

/-! ## Reversed texts -/

namespace Text

def reverse (text : Text) : Text :=
  ⟨text.length, fun pos => if pos < text.length then text.charAt? (text.length - (pos + 1)) else none⟩

variable {text : Text} {pos : Nat}

theorem charAt?_reverse (bound : pos < text.length) :
    text.reverse.charAt? (text.length - (pos + 1)) = text.charAt? pos := by
  have inside : text.length - (pos + 1) < text.length := by omega
  have back : text.length - (text.length - (pos + 1) + 1) = pos := by omega
  rw [reverse]
  simp only [inside, if_true, back]

theorem Full.reverse (full : text.Full) : text.reverse.Full := by
  intro pos
  change (if pos < text.length then _ else none : Option Char).isSome ↔ pos < text.length
  by_cases bound : pos < text.length
  · rw [if_pos bound, full]
    omega
  · simp [bound]

end Text

/-! ## Mirrored positions -/

def Span.Mirrors (n : Nat) (s s' : Span) : Prop := s.start + s'.stop = n ∧ s.stop + s'.start = n

/-- Captures with the same ranges in the reversed text, for groups that are paired. -/
structure Captures.Mirrors (n : Nat) (pairs : List (Nat × Nat)) (m m' : Captures) : Prop where
  whole : m.whole.Mirrors n m'.whole
  groups : ∀ k k', (k, k') ∈ pairs → Option.Rel (Span.Mirrors n) (m.get? k) (m'.get? k')

def Edge.mirror : Edge → Edge
  | .left => .right
  | .right => .left

structure Mark.Mirrors (n : Nat) (m m' : Mark) : Prop where
  left : Option.Rel (· + · = n) m.left m'.right
  right : Option.Rel (· + · = n) m.right m'.left

namespace Mark.Mirrors

variable {n pos pos' : Nat} {m m' : Mark}

theorem set (h : m.Mirrors n m') (sum : pos + pos' = n) (edge : Edge) :
    (m.set edge pos).Mirrors n (m'.set edge.mirror pos') := by
  cases edge with
  | left => exact ⟨.some sum, h.right⟩
  | right => exact ⟨h.left, .some sum⟩

theorem span? (h : m.Mirrors n m') : Option.Rel (Span.Mirrors n) m.span? m'.span? := by
  obtain ⟨left, right⟩ := m
  obtain ⟨left', right'⟩ := m'
  obtain ⟨start, stop⟩ := h
  dsimp only at start stop
  cases start with
  | none => cases stop <;> exact .none
  | some start =>
    cases stop with
    | none => exact .none
    | some stop =>
      simp only [Mark.span?]
      split
      · rw [if_pos (by omega)]
        exact .some ⟨start, stop⟩
      · rw [if_neg (by omega)]
        exact .none

end Mark.Mirrors

def Marks.Mirrors (n : Nat) (pairs : List (Nat × Nat)) (m m' : Marks) : Prop :=
  ∀ k k', (bound : k < 9) → (bound' : k' < 9) → (k + 1, k' + 1) ∈ pairs →
    m.marks[k].Mirrors n m'.marks[k']

structure Paired (pairs : List (Nat × Nat)) : Prop where
  left : ∀ {k k'}, (k, k') ∈ pairs → 0 < k ∧ k ≤ 9
  right : ∀ {k k'}, (k, k') ∈ pairs → 0 < k' ∧ k' ≤ 9
  unique : ∀ {j j' k k'}, (j, j') ∈ pairs → (k, k') ∈ pairs → (j = k ↔ j' = k')

theorem Paired.recorded {pairs : List (Nat × Nat)} {k k' : Nat} (paired : Paired pairs)
    (member : (k, k') ∈ pairs) : Recorded (some k) ∧ Recorded (some k') := by
  constructor
  · rintro _ ⟨⟩
    exact paired.left member
  · rintro _ ⟨⟩
    exact paired.right member

namespace Marks

variable {n pos pos' : Nat} {pairs : List (Nat × Nat)} {m m' : Marks}

theorem mirrors_none (n : Nat) (pairs : List (Nat × Nat)) : Mirrors n pairs .none .none := by
  intro k k' bound bound' _
  simp only [Marks.none, Vector.getElem_replicate]
  exact ⟨.none, .none⟩

theorem Mirrors.exists_record {k k' : Nat} {edge edge' : Edge} (h : m.Mirrors n pairs m')
    (paired : Paired pairs) (member : (k, k') ∈ pairs) (sum : pos + pos' = n)
    (opposite : edge' = edge.mirror) :
    ∃ m₁ m₁', m.recordIf edge (some k) pos = .ok m₁ ∧ m'.recordIf edge' (some k') pos' = .ok m₁' ∧
      m₁.Mirrors n pairs m₁' := by
  subst opposite
  obtain ⟨m₁, recorded⟩ := recordIf_eq_ok edge (paired.recorded member).1 pos m
  obtain ⟨m₁', recorded'⟩ := recordIf_eq_ok edge.mirror (paired.recorded member).2 pos' m'
  refine ⟨m₁, m₁', recorded, recorded', ?_⟩
  intro j j' bound bound' other
  rw [getElem_recordIf recorded bound, getElem_recordIf recorded' bound']
  have same := paired.unique member other
  by_cases here : k = j + 1
  · rw [if_pos (congrArg some here), if_pos (congrArg some (same.mp here))]
    exact (h j j' bound bound' other).set sum edge
  · have there : k' ≠ j' + 1 := mt same.mpr here
    rw [if_neg (by simpa using here), if_neg (by simpa using there)]
    exact h j j' bound bound' other

theorem Mirrors.captures {s s' : Span} (h : m.Mirrors n pairs m') (paired : Paired pairs)
    (whole : s.Mirrors n s') : (Captures.ofMarks s m).Mirrors n pairs (.ofMarks s' m') := by
  refine ⟨whole, fun k k' member => ?_⟩
  obtain ⟨low, high⟩ := paired.left member
  obtain ⟨low', high'⟩ := paired.right member
  obtain ⟨j, rfl⟩ := Nat.exists_eq_add_one_of_ne_zero (Nat.ne_of_gt low)
  obtain ⟨j', rfl⟩ := Nat.exists_eq_add_one_of_ne_zero (Nat.ne_of_gt low')
  rw [Captures.get?_ofMarks s m high, Captures.get?_ofMarks s' m' high']
  exact (h j j' high high' member).span?

end Marks

/-! ## Instructions that do the same -/

/-- Which of two positions comes first backward comes first forward from the other end. -/
theorem Direction.prefers_mirror {n a a' b b' : Nat} (sum : a + a' = n) (sum' : b + b' = n) :
    backward.prefers a b = forward.prefers a' b' := by
  simp only [prefers, decide_eq_decide]
  omega

theorem Captures.Mirrors.better_eq {n : Nat} {pairs : List (Nat × Nat)} {m m' k k' : Captures}
    (mirrors : m.Mirrors n pairs m') (mirrors' : k.Mirrors n pairs k') :
    m.better .backward k = m'.better .forward k' := by
  obtain ⟨start, stop⟩ := mirrors.whole
  obtain ⟨start', stop'⟩ := mirrors'.whole
  rw [Bool.eq_iff_iff]
  simp only [better, Bool.or_eq_true, Bool.and_eq_true, decide_eq_true_eq, beq_iff_eq]
  omega

/-- What corresponds in a backward search and in a forward search of the reversed text. -/
def Link.mirror (n : Nat) (pairs : List (Nat × Nat)) (R : Nat → Nat → Prop)
    (unique : ∀ {i i' j j'}, R i i' → R j j' → (i = j ↔ i' = j')) : Link .backward .forward where
  inst := R
  seed pos pos' := pos + pos' = n
  marks := Marks.Mirrors n pairs
  captures := Captures.Mirrors n pairs
  inst_iff := unique
  prefers_eq := Direction.prefers_mirror
  better_eq := Captures.Mirrors.better_eq

theorem Atom.Mirrors.verdict_eq {classes classes' : ClassTable} {c c' : Cursor} {x x' : Atom}
    (h : x.Mirrors classes classes' x') (ahead : c.ahead = c'.ahead) :
    c.verdict classes x = c'.verdict classes' x' := by
  obtain ⟨same, no_start, no_end⟩ := h
  cases same with
  | char | any => rw [Cursor.verdict, Cursor.verdict, ahead]
  | set same =>
    rw [Cursor.verdict, Cursor.verdict, ahead]
    cases c'.ahead with
    | none => rfl
    | some y => simp only [same y]
  | lineStart => exact absurd rfl no_start
  | lineEnd => exact absurd rfl no_end

structure Cursor.Mirrors (n : Nat) (c c' : Cursor) : Prop where
  dir : c.dir = .backward
  dir' : c'.dir = .forward
  pos : c.pos + c'.pos = n
  ahead : c.ahead = c'.ahead

namespace Cursor.Mirrors

variable {n : Nat} {c c' : Cursor}

theorem openEdge_eq (h : c.Mirrors n c') : c'.dir.openEdge = c.dir.openEdge.mirror := by
  rw [h.dir, h.dir']
  rfl

theorem closeEdge_eq (h : c.Mirrors n c') : c'.dir.closeEdge = c.dir.closeEdge.mirror := by
  rw [h.dir, h.dir']
  rfl

theorem acts {pairs : List (Nat × Nat)} {R : Nat → Nat → Prop}
    {unique : ∀ {i i' j j'}, R i i' → R j j' → (i = j ↔ i' = j')} {p p' : Program} {t t' : Thread}
    {a a' : Act} (cursors : c.Mirrors n c') (judges : Judges p c)
    (paired : Paired pairs) (threads : (Link.mirror n pairs R unique).Threads t t')
    (same : p.arena.Corresponds (Atom.Mirrors p.classes p'.classes) (fun k k' => (k, k') ∈ pairs)
      p'.arena R t.inst t'.inst)
    (does : t.Does p c a) (does' : t'.Does p' c' a') : (Link.mirror n pairs R unique).Acts a a' := by
  obtain ⟨inst, seed, marks⟩ := threads
  cases same with
  | @atom x x' j j' here here' same link =>
    obtain ⟨v, verdict⟩ := judges _ _ _ here
    have verdict' := (same.verdict_eq cursors.ahead).symm.trans verdict
    cases v with
    | pass =>
      cases does.unique (.move (.atom here verdict) (.atom here verdict))
      cases does'.unique (.move (.atom here' verdict') (.atom here' verdict'))
      exact .move ⟨link, seed, marks⟩
    | take =>
      cases does.unique (.take (.atom here verdict))
      cases does'.unique (.take (.atom here' verdict'))
      exact .take ⟨link, seed, marks⟩
    | stop =>
      cases does.unique (.stop here verdict)
      cases does'.unique (.stop here' verdict')
      exact .stop
  | openGroup here here' member link =>
    obtain ⟨m, m', recorded, recorded', marks'⟩ :=
      Marks.Mirrors.exists_record marks paired member cursors.pos cursors.openEdge_eq
    cases does.unique (.move (.openGroup here recorded) (.openGroup here))
    cases does'.unique (.move (.openGroup here' recorded') (.openGroup here'))
    exact .move ⟨link, seed, marks'⟩
  | closeGroup here here' member link =>
    obtain ⟨m, m', recorded, recorded', marks'⟩ :=
      Marks.Mirrors.exists_record marks paired member cursors.pos cursors.closeEdge_eq
    cases does.unique (.move (.closeGroup here recorded) (.closeGroup here))
    cases does'.unique (.move (.closeGroup here' recorded') (.closeGroup here'))
    exact .move ⟨link, seed, marks'⟩
  | fork here here' later link =>
    cases does.unique (.fork here)
    cases does'.unique (.fork here')
    exact .fork ⟨later, seed, marks⟩ ⟨link, seed, marks⟩
  | accept here here' =>
    cases does.unique (.win (.accept here))
    cases does'.unique (.win (.accept here'))
    refine .win (Marks.Mirrors.captures marks paired ?_)
    rw [cursors.dir, cursors.dir']
    exact ⟨cursors.pos, seed⟩

end Cursor.Mirrors

/-! ## Mirrored searches -/

theorem Arena.Corresponds.firstChar_eq {classes classes' : ClassTable} {pairs R : Nat → Nat → Prop}
    {a a' : Arena} {i i' : Nat} (h : a.Corresponds (Atom.Mirrors classes classes') pairs a' R i i') :
    a.firstChar i = a'.firstChar i' := by
  cases h with
  | atom here here' same =>
    rw [firstChar, firstChar, here, here']
    cases same.1 <;> rfl
  | openGroup here here' | closeGroup here here' | fork here here' | accept here here' =>
    rw [firstChar, firstChar, here, here']

namespace Regex

variable {limits limits' : Limits} {pattern pattern' : String} {r r' : Regex} {text : Text}
  {start left : Nat} {first : Option Char}

theorem upcoming_reverse (bound : left ≤ text.length) :
    (r.scanOf text (.backward start) first).upcoming left =
      (r'.scanOf text.reverse (.forward (text.length - start) none) first).upcoming left := by
  change _ = (text.reverse.take text.length).charAt? (text.length - left)
  cases left with
  | zero =>
    rw [Nat.sub_zero, Text.charAt?_take_of_le (Nat.le_refl _)]
    rfl
  | succ left =>
    change (text.take text.length).charAt? left = _
    rw [Text.charAt?_take_of_lt bound, Text.charAt?_take_of_lt (by omega), Text.charAt?_reverse bound]

theorem twins_mirror {pairs : List (Nat × Nat)} {R : Nat → Nat → Prop}
    (unique : ∀ {i i' j j'}, R i i' → R j j' → (i = j ↔ i' = j')) (paired : Paired pairs)
    (entries : R r.program.backward r'.program.forward)
    (same : ∀ {i i'}, R i i' → r.program.arena.Corresponds
      (Atom.Mirrors r.program.classes r'.program.classes) (fun k k' => (k, k') ∈ pairs)
      r'.program.arena R i i')
    (ready : (r.scanOf text (.backward start) first).Ready)
    (ready' : (r'.scanOf text.reverse (.forward (text.length - start) none) first).Ready) :
    (r.scanOf text (.backward start) first).Twins
      (r'.scanOf text.reverse (.forward (text.length - start) none) first)
      (Link.mirror text.length pairs R unique) where
  ready := ready
  ready' := ready'
  extent := rfl
  first := rfl
  upcoming _ bound := upcoming_reverse bound
  begins left bound := ⟨entries, Nat.add_sub_of_le bound, Marks.mirrors_none text.length pairs⟩
  acts left bound _ _ _ _ threads does does' := by
    have cursors : ((r.scanOf text (.backward start) first).cursor left).Mirrors text.length
        ((r'.scanOf text.reverse (.forward (text.length - start) none) first).cursor left) :=
      ⟨rfl, rfl, Nat.add_sub_of_le bound, upcoming_reverse bound⟩
    exact cursors.acts (Scan.judges ready bound) paired threads (same threads.inst) does does'

/-- The program of a pattern codes the term of the tree that the pattern has. -/
theorem encodes_of_told {classes : List CharClass} {tree : Option Tree}
    (compiled : compileWith limits pattern = .ok r) (told : Says pattern classes tree) :
    r.program.classes = .ofList classes ∧ r.program.Encodes (tree.map (·.term 0)) := by
  obtain ⟨tokens, tree', read, parses, table, encodes⟩ := exists_tree compiled
  obtain ⟨rfl, rfl⟩ := told.unique ⟨tokens.list, Tokens.ofPattern_eq_ok_iff.mp read, parses⟩
  exact ⟨table, encodes⟩

theorem limits_eq (compiled : compileWith limits pattern = .ok r) : r.limits = limits := by
  obtain ⟨program, -, rfl⟩ := map_eq_ok.mp compiled
  rfl

theorem paired_mirrorPairsOf {classes classes' : ClassTable} {tree tree' : Option Tree}
    (mirror : Option.Rel (Tree.IsMirror classes classes') tree tree') :
    Paired (Tree.mirrorPairsOf tree) := by
  cases mirror with
  | none => exact ⟨nofun, nofun, nofun⟩
  | @some t t' mirror =>
    refine ⟨fun member => ?_, fun member => ?_, Tree.mirrorPairs_unique⟩
    · have bounds := Tree.mem_mirrorPairs member
      have few := mirror.few
      omega
    · have bounds := Tree.mem_mirrorPairs member
      have few := mirror.few
      omega

theorem rel_mirrors_term {classes classes' : ClassTable} {tree tree' : Option Tree}
    (mirror : Option.Rel (Tree.IsMirror classes classes') tree tree') :
    Option.Rel (Term.Mirrors (Atom.Mirrors classes classes')
        fun k k' => (k, k') ∈ Tree.mirrorPairsOf tree)
      (tree.map (·.term 0)) (tree'.map (·.term 0)) := by
  cases mirror with
  | none => exact .none
  | some mirror => exact .some mirror.mirrors_term

/-- Searching backward with a pattern is searching forward with its mirror in the reversed text.  The
searches log the same and find the same, in ranges that are counted from the other end of the text, for
the match and for each group and the group of the mirror that it is paired with. -/
theorem searchBackward_mirror {classes classes' : List CharClass} {tree tree' : Option Tree}
    (compiled : compileWith limits pattern = .ok r)
    (compiled' : compileWith limits' pattern' = .ok r') (threads : limits.threads = limits'.threads)
    (told : Says pattern classes tree) (told' : Says pattern' classes' tree')
    (mirror : Option.Rel (Tree.IsMirror (.ofList classes) (.ofList classes')) tree tree')
    (full : text.Full) (within : start ≤ text.length) :
    ∃ report report', r.searchBackward text start = .ok report ∧
      r'.searchForward text.reverse (text.length - start) none = .ok report' ∧
      report'.log = report.log.map (·.toward .forward) ∧
      Option.Rel (Captures.Mirrors text.length (Tree.mirrorPairsOf tree)) report.found
        report'.found := by
  obtain ⟨table, encodes⟩ := encodes_of_told compiled told
  obtain ⟨table', encodes'⟩ := encodes_of_told compiled' told'
  obtain ⟨_, _, -, -, realizes⟩ := compileWith_eq_ok compiled
  obtain ⟨_, _, -, -, realizes'⟩ := compileWith_eq_ok compiled'
  obtain ⟨report, searched⟩ := realizes.exists_report full (.backward start)
  obtain ⟨report', searched'⟩ :=
    realizes'.exists_report full.reverse (.forward (text.length - start) none)
  refine ⟨report, report', searched, searched', ?_⟩
  obtain ⟨first, b, begins, ready, ran⟩ := exists_run encodes full searched
  obtain ⟨first', b', begins', ready', ran'⟩ := exists_run encodes' full.reverse searched'
  obtain ⟨lo, entry, programs⟩ := encodes.halves .backward
  obtain ⟨lo', entry', programs'⟩ := encodes'.halves .forward
  rw [← table, ← table'] at mirror
  obtain ⟨R, unique, entries, same⟩ :=
    Arena.Programs.exists_twins (rel_mirrors_term mirror) programs programs'
  rw [← entry, ← entry'] at entries
  cases begins.symm.trans ((same entries).firstChar_eq.trans begins')
  have twins := twins_mirror unique (paired_mirrorPairsOf mirror) entries same ready ready'
  have starts : (Query.backward start).start text = start := Nat.min_eq_left within
  have starts' : (Query.forward (text.length - start) none).start text.reverse = text.length - start :=
    Nat.min_eq_left (Nat.sub_le _ _)
  rw [starts] at ran
  rw [starts'] at ran'
  have ahead : (r.scanOf text (.backward start) first).leftAt start =
      (r'.scanOf text.reverse (.forward (text.length - start) none) first).leftAt
        (text.length - start) := (Nat.sub_sub_self within).symm
  have behind : ∀ place, place ≤ text.length → Direction.backward.prefers place start =
      Direction.forward.prefers (text.length - place) (text.length - start) := fun _ bound =>
    Direction.prefers_mirror (Nat.add_sub_of_le bound) (Nat.add_sub_of_le within)
  have alike := twins.alike (.start r.sound_board r'.sound_board r.not_mem_current_board
    r'.not_mem_current_board r.not_mem_next_board r'.not_mem_next_board rfl rfl) within ahead behind
    ran ran'
  have rooms : r.limits.threads = r'.limits.threads := by
    rw [limits_eq compiled, limits_eq compiled', threads]
  cases alike with
  | short less | short' less => exact absurd (rooms ▸ less) (Nat.lt_irrefl _)
  | same log found => exact ⟨log, found⟩

theorem told_of_read {classes : List CharClass} {tree : Option Tree}
    (h : (Tokens.ofPattern pattern).map
      (fun tokens => (tokens.classes, TreeReader.read tokens.list)) = .ok (classes, some tree)) :
    Says pattern classes tree := by
  obtain ⟨tokens, read, same⟩ := map_eq_ok.mp h
  obtain ⟨rfl, parsed⟩ := Prod.mk.inj same
  exact ⟨tokens.list, Tokens.ofPattern_eq_ok_iff.mp read, TreeReader.parses_of_read parsed⟩

/-- Both searches wrap around, and the mirror opens the second group first. -/
theorem searchBackward_mirror_two_groups : ∃ text r r' classes classes' tree tree' report report' m m',
    text = .ofArray #['z', 'b', 'd', 'd', 'y'] ∧ text.Full ∧
    compileWith {} "([ab]|c)(d*)[xy]" = .ok r ∧ compileWith {} "[xy](d*)([ab]|c)" = .ok r' ∧
    Says "([ab]|c)(d*)[xy]" classes (some tree) ∧ Says "[xy](d*)([ab]|c)" classes' (some tree') ∧
    tree.IsMirror (.ofList classes) (.ofList classes') tree' ∧ tree.mirrorPairs = [(2, 1), (1, 2)] ∧
    r.searchBackward text 2 = .ok report ∧ r'.searchForward text.reverse 3 none = .ok report' ∧
    report.log = [.wrapped .backward 5] ∧ report'.log = [.wrapped .forward 5] ∧
    report.found = some m ∧ report'.found = some m' ∧
    m.Mirrors 5 tree.mirrorPairs m' ∧ m.whole = ⟨1, 5⟩ ∧ m'.whole = ⟨0, 4⟩ ∧
    m.get? 1 = some ⟨1, 2⟩ ∧ m'.get? 2 = some ⟨3, 4⟩ ∧ m.get? 2 = some ⟨2, 4⟩ ∧
    m'.get? 1 = some ⟨1, 3⟩ := by
  have ran : (compileWith {} "([ab]|c)(d*)[xy]").map
      (·.searchBackward (.ofArray #['z', 'b', 'd', 'd', 'y']) 2) =
      .ok (.ok ⟨some ⟨⟨1, 5⟩, #v[some ⟨1, 2⟩, some ⟨2, 4⟩, none, none, none, none, none, none, none]⟩,
        [.wrapped .backward 5]⟩) := by
    decide +kernel
  have ran' : (compileWith {} "[xy](d*)([ab]|c)").map
      (·.searchForward (Text.ofArray #['z', 'b', 'd', 'd', 'y']).reverse 3 none) =
      .ok (.ok ⟨some ⟨⟨0, 4⟩, #v[some ⟨1, 3⟩, some ⟨3, 4⟩, none, none, none, none, none, none, none]⟩,
        [.wrapped .forward 5]⟩) := by
    decide +kernel
  have told : Says "([ab]|c)(d*)[xy]" [⟨[.char 'a', .char 'b']⟩, ⟨[.char 'x', .char 'y']⟩]
      (some (.sequence
        (.sequence (.group ⟨0, 1⟩ (.alternate (.atom (.set 0 false)) (.atom (.char 'c'))))
          (.group ⟨8, 9⟩ (.repeated .star (.atom (.char 'd')))))
        (.atom (.set 1 false)))) := told_of_read (by decide +kernel)
  have told' : Says "[xy](d*)([ab]|c)" [⟨[.char 'x', .char 'y']⟩, ⟨[.char 'a', .char 'b']⟩]
      (some (.sequence
        (.sequence (.atom (.set 0 false)) (.group ⟨4, 5⟩ (.repeated .star (.atom (.char 'd')))))
        (.group ⟨8, 9⟩ (.alternate (.atom (.set 1 false)) (.atom (.char 'c')))))) :=
    told_of_read (by decide +kernel)
  have mirror : Tree.IsMirror (.ofList [⟨[.char 'a', .char 'b']⟩, ⟨[.char 'x', .char 'y']⟩])
      (.ofList [⟨[.char 'x', .char 'y']⟩, ⟨[.char 'a', .char 'b']⟩])
      (.sequence
        (.sequence (.group ⟨0, 1⟩ (.alternate (.atom (.set 0 false)) (.atom (.char 'c'))))
          (.group ⟨8, 9⟩ (.repeated .star (.atom (.char 'd')))))
        (.atom (.set 1 false)))
      (.sequence
        (.sequence (.atom (.set 0 false)) (.group ⟨4, 5⟩ (.repeated .star (.atom (.char 'd')))))
        (.group ⟨8, 9⟩ (.alternate (.atom (.set 1 false)) (.atom (.char 'c'))))) := by
    refine ⟨?_, by simp [Tree.Unanchored], by decide⟩
    exact .sequence
      (.sequence (.atom (.set fun _ => rfl)) (.group _ _ (.repeated _ (.atom (.char _)))))
      (.group _ _ (.alternate (.atom (.set fun _ => rfl)) (.atom (.char _))))
  obtain ⟨r, compiled, ran⟩ := map_eq_ok.mp ran
  obtain ⟨r', compiled', ran'⟩ := map_eq_ok.mp ran'
  have full := Text.full_ofArray #['z', 'b', 'd', 'd', 'y']
  obtain ⟨report, report', searched, searched', logs, found⟩ :=
    searchBackward_mirror compiled compiled' rfl told told' (.some mirror) full
      (show 2 ≤ 5 by decide)
  cases searched.symm.trans ran
  cases searched'.symm.trans ran'
  cases found with
  | some captures =>
    exact ⟨_, r, r', _, _, _, _, _, _, _, _, rfl, full, compiled, compiled', told, told', mirror, rfl, ran,
      ran', rfl, rfl, rfl, rfl, captures, rfl, rfl, rfl, rfl, rfl, rfl⟩

end Regex

end CursorRegex
