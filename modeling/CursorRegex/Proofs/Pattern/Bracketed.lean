import CursorRegex.Proofs.Pattern.Spelling
import CursorRegex.Search.Meaning

/-! # A bracket expression in its pattern

What decides on a bracket expression is only what stands behind its opening bracket.  The characters in
front end outside brackets and behind whole escapes (`EndsOutside`), and reading gets past them whatever
follows (`EndsOutside.getsPast`).  Then either the rest begins with what a bracket expression is spelled
like, and reading goes on behind it, or reading ends with an error that tells an empty expression from a
malformed one (`Bracket.read_eq_empty_iff`).  An error behind the expression is told of a later byte
(`Tokens.start_le_of_error`).

The class of an expression has the characters that its items cover (`CharClass.accepts_ofItems`). -/
set_option autoImplicit false

namespace CursorRegex

/-! ## Classes -/

theorem CharClass.contains_iff_covers (items : List ClassItem) (c : Char) :
    (CharClass.mk items).contains c = true ↔ Covers items c := by
  rw [contains, List.any_eq_true]
  constructor
  · rintro ⟨item, member, inside⟩
    cases item with
    | char x =>
      have same : x = c := by simpa [ClassItem.contains] using inside
      exact Or.inl (same ▸ member)
    | range lo hi =>
      rw [ClassItem.contains, Bool.and_eq_true, decide_eq_true_iff, decide_eq_true_iff] at inside
      exact Or.inr ⟨lo, hi, member, inside.1, inside.2⟩
  · rintro (member | ⟨lo, hi, member, above, below⟩)
    · exact ⟨_, member, by simp [ClassItem.contains]⟩
    · refine ⟨_, member, ?_⟩
      rw [ClassItem.contains, Bool.and_eq_true, decide_eq_true_iff, decide_eq_true_iff]
      exact ⟨above, below⟩

theorem covers_char_cons (x : Char) (items : List ClassItem) (c : Char) :
    Covers (.char x :: items) c ↔ c = x ∨ Covers items c := by
  simp only [Covers, List.mem_cons, ClassItem.char.injEq, reduceCtorEq, false_or, or_assoc]

namespace CharClass

variable {cls : CharClass} {c : Char}

theorem accepts_false_iff : cls.accepts false c = true ↔ Covers cls.items c := by
  rw [accepts, Bool.bne_false]
  exact contains_iff_covers cls.items c

theorem accepts_true_iff : cls.accepts true c = true ↔ ¬ Covers cls.items c := by
  rw [accepts, Bool.bne_true, Bool.not_eq_true', ← Bool.not_eq_true]
  exact not_congr (contains_iff_covers cls.items c)

/-- A negated class has what its items do not cover, and never the newline. -/
theorem accepts_ofItems (negated : Bool) (items : List ClassItem) (c : Char) :
    (ofItems negated items).accepts negated c = true ↔
      if negated then c ≠ '\n' ∧ ¬ Covers items c else Covers items c := by
  cases negated with
  | false => exact accepts_false_iff
  | true =>
    rw [accepts_true_iff, ofItems, if_pos rfl, if_pos rfl, covers_char_cons, not_or]

end CharClass

/-! ## What stands in front -/

/-- The characters end outside brackets and behind whole escapes, and hold `k` bracket expressions. -/
inductive EndsOutside : Nat → List Char → Prop where
  | nil : EndsOutside 0 []
  | plain {k : Nat} {c : Char} {cs : List Char} (unescaped : c ≠ '\\') (unbracketed : c ≠ '[')
      (more : EndsOutside k cs) : EndsOutside k (c :: cs)
  | escaped {k : Nat} {c : Char} {cs : List Char} (more : EndsOutside k cs) : EndsOutside k ('\\' :: c :: cs)
  | bracket {k : Nat} {negated : Bool} {inside cs : List Char} {items : List ClassItem}
      (spelled : SpellsInside inside negated items) (more : EndsOutside k cs) :
      EndsOutside (k + 1) ('[' :: inside ++ ']' :: cs)

def Atom.reference? : Atom → Option (Nat × Bool)
  | .set id negated => some (id, negated)
  | .char _ | .any | .lineStart | .lineEnd => none

def TokenKind.atom? : TokenKind → Option Atom
  | .atom a => some a
  | .quantifier _ | .bar | .openParen | .closeParen => none

namespace Tokens

def references (ts : List Token) : List (Nat × Bool) :=
  (ts.filterMap (·.kind.atom?)).filterMap Atom.reference?

theorem references_cons (t : Token) (ts : List Token) :
    references (t :: ts) = (t.kind.atom?.bind Atom.reference?).toList ++ references ts := by
  rw [references, references, List.filterMap_filterMap, List.filterMap_filterMap, List.filterMap_cons]
  cases t.kind.atom?.bind Atom.reference? <;> rfl

theorem references_append (ts us : List Token) :
    references (ts ++ us) = references ts ++ references us := by
  rw [references, List.filterMap_append, List.filterMap_append, references, references]

def prepend (ts : List Token) (classes : List CharClass) (tokens : Tokens) : Tokens :=
  ⟨ts ++ tokens.list, classes ++ tokens.classes⟩

theorem map_prepend_prepend (ts us : List Token) (classes more : List CharClass)
    (x : Except SyntaxError Tokens) :
    (x.map (prepend us more)).map (prepend ts classes) =
      x.map (prepend (ts ++ us) (classes ++ more)) := by
  cases x with
  | error e => rfl
  | ok tokens => simp only [Except.map, prepend, List.append_assoc]

def GetsPast (offset id : Nat) (front : List Char) (ts : List Token) (classes : List CharClass) : Prop :=
  ∀ length back, read length id (Glyph.readAll offset (front ++ back)) =
    (read length (id + classes.length) (Glyph.readAll (offset + utf8Length front) back)).map
      (prepend ts classes)

section

variable (offset id : Nat)

theorem getsPast_nil : GetsPast offset id [] [] [] := by
  intro length back
  have same : ∀ x : Except SyntaxError Tokens, x.map (prepend [] []) = x := by
    intro x
    cases x <;> rfl
  rw [same]
  rfl

variable {offset id} in
theorem GetsPast.append {front mid : List Char} {ts us : List Token} {classes more : List CharClass}
    (h : GetsPast offset id front ts classes)
    (next : GetsPast (offset + utf8Length front) (id + classes.length) mid us more) :
    GetsPast offset id (front ++ mid) (ts ++ us) (classes ++ more) := by
  intro length back
  rw [List.append_assoc, h, next, map_prepend_prepend, utf8Length_append, List.length_append,
    Nat.add_assoc, Nat.add_assoc]

theorem getsPast_plain {c : Char} {kind : TokenKind} (means : Signifies c kind) :
    GetsPast offset id [c] [⟨⟨offset, offset + c.utf8Size⟩, kind⟩] [] := by
  intro length back
  obtain ⟨unescaped, unbracketed, rfl⟩ := Shape.signifies_iff.mp means
  rw [List.singleton_append, Glyph.readAll_plain unescaped, read, if_neg (by simpa using unbracketed)]
  rfl

theorem getsPast_escaped {c d : Char} (means : Escapes c d) : GetsPast offset id ['\\', c]
    [⟨⟨offset, offset + utf8Length ['\\', c]⟩, .atom (.char d)⟩] [] := by
  intro length back
  rw [List.cons_append, List.singleton_append, Glyph.readAll_escaped, read, if_neg (by simp),
    ← Shape.escapes_iff.mp means]
  rfl

theorem read_opening (length : Nat) (after : List Char) :
    read length id (Glyph.readAll offset ('[' :: after)) =
      match Bracket.read (Glyph.readAll (offset + '['.utf8Size) after) with
      | .error flaw => .error (flaw.toSyntaxError offset length)
      | .ok b => (read length (id + 1) b.body.rest).map (consBracket offset id b) := by
  rw [Glyph.readAll_plain (by decide), read, if_pos rfl]
  split
  next read => rw [read]
  next read => rw [read]

theorem getsPast_bracket {inside : List Char} {negated : Bool} {items : List ClassItem}
    (spelled : SpellsInside inside negated items) :
    GetsPast offset id ('[' :: inside ++ [']'])
      [⟨⟨offset, offset + utf8Length ('[' :: inside ++ [']'])⟩, .atom (.set id negated)⟩]
      [⟨if negated then .char '\n' :: items else items⟩] := by
  intro length back
  rw [List.append_assoc, List.cons_append, List.singleton_append, read_opening,
    Bracket.read_of_spells spelled, List.cons_append, utf8Length_cons, ← Nat.add_assoc]
  rfl

end

end Tokens

theorem Signifies.reference? {c : Char} {kind : TokenKind} (means : Signifies c kind) :
    kind.atom?.bind Atom.reference? = none := by
  cases means <;> rfl

/-- What is in front brings a class, and a reference to it, for each bracket expression. -/
theorem EndsOutside.getsPast {k : Nat} {before : List Char} (h : EndsOutside k before) (offset id : Nat) :
    ∃ ts classes, classes.length = k ∧ (Tokens.references ts).length = k ∧
      Tokens.GetsPast offset id before ts classes := by
  induction h generalizing offset id with
  | nil => exact ⟨[], [], rfl, rfl, Tokens.getsPast_nil offset id⟩
  | @plain k c cs unescaped unbracketed more ih =>
    obtain ⟨ts, classes, count, count', past⟩ := ih (offset + utf8Length [c]) id
    have means := Shape.signifies unescaped unbracketed
    refine ⟨_, _, count, ?_, (Tokens.getsPast_plain offset id means).append past⟩
    rw [Tokens.references_append, Tokens.references_cons, means.reference?]
    exact count'
  | @escaped k c cs more ih =>
    obtain ⟨ts, classes, count, count', past⟩ := ih (offset + utf8Length ['\\', c]) id
    refine ⟨_, _, count, ?_, (Tokens.getsPast_escaped offset id (Shape.escapes c)).append past⟩
    rw [Tokens.references_append]
    exact count'
  | @bracket k negated inside cs items spelled more ih =>
    obtain ⟨ts, classes, count, count', past⟩ :=
      ih (offset + utf8Length ('[' :: inside ++ [']'])) (id + 1)
    have whole : '[' :: inside ++ ']' :: cs = ('[' :: inside ++ [']']) ++ cs := by simp
    rw [whole]
    refine ⟨_, _, ?_, ?_, (Tokens.getsPast_bracket offset id spelled).append past⟩
    · rw [List.length_append, count]
      exact Nat.add_comm 1 k
    · rw [Tokens.references_append, List.length_append, count']
      exact Nat.add_comm 1 k

/-! ## What is told of an expression -/

theorem BracketBody.read_ne_empty (gs : List Glyph) (stop : Nat) : read gs ≠ .error (.empty stop) := by
  fun_induction read gs with
  | case1 | case2 | case3 | case4 | case5 | case6 | case7 | case8 => simp
  | case9 low lo role mid dash high gs role' ih => exact fun told => ih (map_eq_error.mp told)
  | case10 low lo role mid dash high gs hi role' ih => exact fun told => ih (map_eq_error.mp told)
  | case11 one c role mid gs ne ih => exact fun told => ih (map_eq_error.mp told)

/-- An expression is told to be empty if its closing bracket comes before any item. -/
theorem Bracket.read_eq_empty_iff {offset : Nat} {cs : List Char} :
    (∃ stop, read (Glyph.readAll offset cs) = .error (.empty stop)) ↔
      ∃ rest, cs = ']' :: rest ∨ cs = '^' :: ']' :: rest := by
  have closes_at_once : ∀ offset cs body, BracketBody.read (Glyph.readAll offset cs) = .ok body →
      body.items = [] → ∃ rest, cs = ']' :: rest := by
    intro offset cs body found none
    obtain ⟨inside, rest, rfl, spelled, -⟩ := BracketBody.spelled found
    rw [none] at spelled
    cases spelled
    exact ⟨rest, rfl⟩
  constructor
  · rintro ⟨stop, told⟩
    unfold read at told
    dsimp only at told
    split at told
    next flaw found =>
      cases told
      exact absurd found (BracketBody.read_ne_empty _ _)
    next body found =>
      split at told
      next none =>
        by_cases caret : beginsNegated (Glyph.readAll offset cs) = true
        · cases cs with
          | nil => cases caret
          | cons c cs =>
            have first : c = '^' := by simpa using beginsNegated_readAll.mp caret
            subst first
            rw [if_pos caret, Glyph.readAll_plain (by decide), List.tail_cons] at found
            obtain ⟨rest, rfl⟩ := closes_at_once _ _ _ found none
            exact ⟨rest, Or.inr rfl⟩
        · rw [if_neg caret] at found
          obtain ⟨rest, rfl⟩ := closes_at_once _ _ _ found none
          exact ⟨rest, Or.inl rfl⟩
      · cases told
  · rintro ⟨rest, rfl | rfl⟩
    · have plain : beginsNegated (Glyph.readAll offset (']' :: rest)) = false := by
        rw [← Bool.not_eq_true, beginsNegated_readAll]
        simp
      have closed := SpellsItems.nil.read offset rest
      rw [List.nil_append] at closed
      unfold read
      simp [plain, closed]
    · have caret : beginsNegated (Glyph.readAll offset ('^' :: ']' :: rest)) = true :=
        beginsNegated_readAll.mpr rfl
      have closed := SpellsItems.nil.read (offset + '^'.utf8Size) rest
      rw [List.nil_append] at closed
      unfold read
      simp only [caret, if_true]
      rw [Glyph.readAll_plain (by decide), List.tail_cons, closed]
      simp

/-- An error is told of a byte that was still to be read. -/
theorem Tokens.start_le_of_error {length offset id : Nat} {cs : List Char} {e : SyntaxError}
    (told : read length id (Glyph.readAll offset cs) = .error e) : offset ≤ e.span.start := by
  generalize cut : Glyph.readAll offset cs = gs at told
  fun_induction read length id gs generalizing offset cs e with
  | case1 => cases told
  | case2 id g rest opens flaw bracket =>
    cases told
    obtain ⟨cs', rfl, span, -⟩ := Glyph.readAll_eq_cons cut
    rw [span]
    cases flaw <;> exact Nat.le_refl _
  | case3 id g rest opens b bracket ih =>
    obtain ⟨cs', rfl, span, rfl, -⟩ := Glyph.readAll_eq_cons cut
    obtain ⟨inside, left, rfl, -, stop, behind⟩ := Bracket.spelled bracket
    have later := ih behind.symm (map_eq_error.mp told)
    omega
  | case4 id g rest plain ih =>
    obtain ⟨cs', rfl, -, rfl, -⟩ := Glyph.readAll_eq_cons cut
    have later := ih rfl (map_eq_error.mp told)
    omega

/-! ## The expression behind `before` -/

def WellBracketed (after : List Char) : Prop :=
  ∃ inside negated items rest, after = inside ++ ']' :: rest ∧ SpellsInside inside negated items

def ClosesAtOnce (after : List Char) : Prop := ∃ rest, after = ']' :: rest ∨ after = '^' :: ']' :: rest

namespace Tokens

variable {pattern : String} {before after : List Char} {k : Nat}

/-- An expression that is spelled well is read as its class and the reference to it. -/
theorem ofPattern_of_spells {inside rest : List Char} {negated : Bool} {items : List ClassItem}
    (here : pattern.toList = before ++ '[' :: (inside ++ ']' :: rest)) (outside : EndsOutside k before)
    (spelled : SpellsInside inside negated items) :
    (∀ e, ofPattern pattern = .error e → utf8Length before < e.span.start) ∧
      ∀ tokens, ofPattern pattern = .ok tokens →
        tokens.classes[k]? = some ⟨if negated then .char '\n' :: items else items⟩ ∧
          (references tokens.list)[k]? = some (k, negated) := by
  obtain ⟨ts, classes, count, count', past⟩ := outside.getsPast 0 0
  have whole : pattern.toList = before ++ ('[' :: inside ++ [']']) ++ rest := by simp [here]
  have read := past.append (getsPast_bracket _ _ spelled) pattern.utf8ByteSize rest
  rw [← whole] at read
  change ofPattern pattern = _ at read
  rw [read]
  refine ⟨fun e told => ?_, fun tokens found => ?_⟩
  · have later := start_le_of_error (map_eq_error.mp told)
    rw [utf8Length_append, List.cons_append, utf8Length_cons] at later
    have one_byte := Char.utf8Size_pos '['
    omega
  · obtain ⟨inner, -, rfl⟩ := map_eq_ok.mp found
    rw [Nat.zero_add, count]
    constructor
    · simp only [prepend, List.append_assoc, List.getElem?_append_right (Nat.le_of_eq count), count]
      simp
    · simp only [prepend, references_append, List.append_assoc,
        List.getElem?_append_right (Nat.le_of_eq count'), count']
      simp [references, TokenKind.atom?, Atom.reference?]

/-- What is not spelled so ends the reading. -/
theorem ofPattern_of_not_spells (here : pattern.toList = before ++ '[' :: after)
    (outside : EndsOutside k before) (broken : ¬ WellBracketed after) :
    ∃ stop flaw, ofPattern pattern = .error ⟨⟨utf8Length before, stop⟩, flaw⟩ ∧
      (ClosesAtOnce after → flaw = .emptyClass) ∧
      (¬ ClosesAtOnce after → flaw = .unterminatedClass ∨ flaw = .misplacedDash) := by
  obtain ⟨ts, classes, -, -, past⟩ := outside.getsPast 0 0
  have read := past pattern.utf8ByteSize ('[' :: after)
  rw [← here, read_opening, Nat.zero_add] at read
  change ofPattern pattern = _ at read
  have at_once : (∃ stop, Bracket.read (Glyph.readAll (utf8Length before + '['.utf8Size) after) =
      .error (.empty stop)) ↔ ClosesAtOnce after := Bracket.read_eq_empty_iff
  cases found : Bracket.read (Glyph.readAll (utf8Length before + '['.utf8Size) after) with
  | ok b =>
    obtain ⟨inside, rest, split, spelled, -⟩ := Bracket.spelled found
    exact absurd ⟨inside, _, _, rest, split, spelled⟩ broken
  | error flaw =>
    rw [found] at read at_once
    rw [← at_once]
    cases flaw <;> exact ⟨_, _, read, by simp⟩

end Tokens

end CursorRegex
