import CursorRegex.Proofs.Pattern.Misspelled
import CursorRegex.Proofs.Pattern.Origins

/-! # What stands at a span

The tokens of a pattern are spelled one behind the other, so the span of each covers the characters it is
spelled with (`Spells.exists_split`), and a token that is no atom is a single character, neither escaped
nor inside brackets.  `Shows` says for every flaw what the characters at its span are.  The flaws of
bracket expressions end the reading of tokens (`Tokens.shown_of_error`); those of parentheses and of
operators stem from tokens (`Odd.shown`, `Arises.shown`). -/
set_option autoImplicit false

namespace CursorRegex

/-! ## Spans -/

/-- The span covers `text`, which stands in the pattern between `before` and `after`. -/
structure Span.Cuts (span : Span) (pattern : String) (before text after : List Char) : Prop where
  whole : pattern.toList = before ++ text ++ after
  eq : span = ⟨utf8Length before, utf8Length (before ++ text)⟩

theorem utf8ByteSize_ofList (cs : List Char) : (String.ofList cs).utf8ByteSize = utf8Length cs := by
  induction cs with
  | nil => rfl
  | cons c cs ih => simp [String.ofList_cons, ih, utf8Length_cons]

theorem isValid_utf8Length {pattern : String} {before after : List Char}
    (whole : pattern.toList = before ++ after) :
    (String.Pos.Raw.mk (utf8Length before)).IsValid pattern := by
  rw [String.Pos.Raw.isValid_iff_exists_append]
  refine ⟨.ofList before, .ofList after, ?_, ?_⟩
  · rw [← String.ofList_append, ← whole, String.ofList_toList]
  · rw [← utf8ByteSize_ofList before]
    rfl

namespace Span.Cuts

variable {span : Span} {pattern : String} {before text after : List Char}

theorem start_le_stop (h : span.Cuts pattern before text after) : span.start ≤ span.stop := by
  rw [h.eq, utf8Length_append]
  exact Nat.le_add_right _ _

theorem isValid_start (h : span.Cuts pattern before text after) :
    (String.Pos.Raw.mk span.start).IsValid pattern := by
  have whole := h.whole
  rw [List.append_assoc] at whole
  rw [h.eq]
  exact isValid_utf8Length whole

theorem isValid_stop (h : span.Cuts pattern before text after) :
    (String.Pos.Raw.mk span.stop).IsValid pattern := by
  rw [h.eq]
  exact isValid_utf8Length h.whole

theorem stop_le (h : span.Cuts pattern before text after) : span.stop ≤ pattern.utf8ByteSize :=
  h.isValid_stop.le_rawEndPos

end Span.Cuts

/-! ## Tokens -/

/-- Every token that is no atom is a character that is neither escaped nor inside brackets. -/
def Bare (offset : Nat) (cs : List Char) (ts : List Token) : Prop :=
  ∀ t ∈ ts, t.kind.atom? = none → ∃ k before c after, cs = before ++ c :: after ∧ EndsOutside k before ∧
    t.span = ⟨offset + utf8Length before, offset + utf8Length (before ++ [c])⟩ ∧ Signifies c t.kind

/-- The characters `before`, `text` and `after` spell the tokens in front of `t`, itself, and those
behind it. -/
structure Splits (offset id : Nat) (before text after : List Char) (front : List Token) (t : Token)
    (back : List Token) : Prop where
  outside : ∃ k, EndsOutside k before
  front : ∃ classes, Spells offset id before front classes
  here : ∃ id classes, Spells (offset + utf8Length before) id text [t] classes
  back : ∃ id classes, Spells (offset + utf8Length (before ++ text)) id after back classes
  span : t.span = ⟨offset + utf8Length before, offset + utf8Length (before ++ text)⟩
  bare : t.kind.atom? = none → ∃ c, text = [c] ∧ Signifies c t.kind

namespace Splits

variable {offset id : Nat} {before text after : List Char} {front back : List Token} {t : Token}
  {classes : List CharClass}

theorem first (here : Spells offset id text [t] classes)
    (behind : ∃ id classes, Spells (offset + utf8Length text) id after back classes)
    (span : t.span = ⟨offset, offset + utf8Length text⟩)
    (bare : t.kind.atom? = none → ∃ c, text = [c] ∧ Signifies c t.kind) :
    Splits offset id [] text after [] t back :=
  ⟨⟨0, .nil⟩, ⟨[], .nil⟩, ⟨id, classes, here⟩, behind, span, bare⟩

theorem behind {one : List Char} {u : Token} {more : Nat}
    (h : Splits (offset + utf8Length one) more before text after front t back)
    (outside : ∀ k, EndsOutside k before → ∃ k, EndsOutside k (one ++ before))
    (spelled : ∀ classes, Spells (offset + utf8Length one) more before front classes →
      ∃ classes, Spells offset id (one ++ before) (u :: front) classes) :
    Splits offset id (one ++ before) text after (u :: front) t back := by
  have add : ∀ cs, offset + utf8Length (one ++ cs) = offset + utf8Length one + utf8Length cs := by
    intro cs
    rw [utf8Length_append, Nat.add_assoc]
  obtain ⟨⟨k, ends⟩, ⟨classes, spells⟩, here, back, span, bare⟩ := h
  refine ⟨outside k ends, spelled classes spells, ?_, ?_, ?_, bare⟩
  · rw [add]
    exact here
  · rw [List.append_assoc, add]
    exact back
  · rw [List.append_assoc, add, add]
    exact span

end Splits

theorem Spells.exists_split {offset id : Nat} {cs : List Char} {front back : List Token} {t : Token}
    {classes : List CharClass} (h : Spells offset id cs (front ++ t :: back) classes) :
    ∃ before text after, cs = before ++ text ++ after ∧ Splits offset id before text after front t back := by
  generalize split : front ++ t :: back = ts at h
  induction h generalizing front with
  | nil => cases front <;> cases split
  | @plain offset id c kind cs ts classes means more ih =>
    cases front with
    | nil =>
      cases split
      exact ⟨[], [c], cs, rfl, .first (.plain means .nil) ⟨_, _, more⟩ rfl fun _ => ⟨c, rfl, means⟩⟩
    | cons u front =>
      obtain ⟨rfl, rfl⟩ := List.cons.inj split
      obtain ⟨before, text, after, rfl, splits⟩ := ih rfl
      have splits : Splits (offset + utf8Length [c]) id before text after front t back := splits
      refine ⟨[c] ++ before, text, after, by simp, splits.behind (fun k ends => ?_) fun classes spells => ?_⟩
      · obtain ⟨unescaped, unbracketed, -⟩ := Shape.signifies_iff.mp means
        exact ⟨k, .plain unescaped unbracketed ends⟩
      · exact ⟨classes, .plain means spells⟩
  | @escaped offset id c d cs ts classes means more ih =>
    cases front with
    | nil =>
      cases split
      exact ⟨[], ['\\', c], cs, rfl, .first (.escaped means .nil) ⟨_, _, more⟩ rfl nofun⟩
    | cons u front =>
      obtain ⟨rfl, rfl⟩ := List.cons.inj split
      obtain ⟨before, text, after, rfl, splits⟩ := ih rfl
      refine ⟨['\\', c] ++ before, text, after, by simp,
        splits.behind (fun k ends => ?_) fun classes spells => ?_⟩
      · exact ⟨k, .escaped ends⟩
      · exact ⟨classes, .escaped means spells⟩
  | @dangling offset id =>
    cases front with
    | nil =>
      cases split
      exact ⟨[], ['\\'], [], rfl, .first .dangling ⟨id, [], .nil⟩ rfl nofun⟩
    | cons u front => cases front <;> cases split
  | @bracket offset id negated inside cs items ts classes spelled more ih =>
    cases front with
    | nil =>
      cases split
      exact ⟨[], '[' :: inside ++ [']'], cs, by simp, .first (.bracket spelled .nil) ⟨_, _, more⟩ rfl nofun⟩
    | cons u front =>
      obtain ⟨rfl, rfl⟩ := List.cons.inj split
      obtain ⟨before, text, after, rfl, splits⟩ := ih rfl
      have whole : '[' :: inside ++ [']'] ++ before = '[' :: inside ++ ']' :: before := by simp
      refine ⟨'[' :: inside ++ [']'] ++ before, text, after, by simp,
        splits.behind (fun k ends => ?_) fun classes spells => ?_⟩
      · rw [whole]
        exact ⟨k + 1, .bracket spelled ends⟩
      · rw [whole]
        exact ⟨_, .bracket spelled spells⟩

theorem Spells.bare {offset id : Nat} {cs : List Char} {ts : List Token} {classes : List CharClass}
    (h : Spells offset id cs ts classes) : Bare offset cs ts := by
  intro t member not_atom
  obtain ⟨front, back, rfl⟩ := List.append_of_mem member
  obtain ⟨before, text, after, rfl, splits⟩ := h.exists_split
  obtain ⟨k, outside⟩ := splits.outside
  obtain ⟨c, rfl, means⟩ := splits.bare not_atom
  exact ⟨k, before, c, after, by simp, outside, splits.span, means⟩

/-! ## What the characters show -/

/-- The pattern goes wrong at `text`, between `before` and `after`, with this flaw. -/
inductive Shows (before text after : List Char) : Flaw → Prop where
  /-- A parenthesis closes nothing: all that are opened in front of it are closed there. -/
  | unmatchedClose {k : Nat} {front : List Token} {classes : List CharClass} (is : text = [')'])
      (outside : EndsOutside k before) (spelled : Spells 0 0 before front classes)
      (bare : Bare 0 before front) (closed : Balanced front) : Shows before text after .unmatchedClose
  /-- A parenthesis is never closed, and all that are opened behind it are. -/
  | unmatchedOpen {k id : Nat} {back : List Token} {classes : List CharClass} (is : text = ['('])
      (outside : EndsOutside k before)
      (spelled : Spells (utf8Length (before ++ text)) id after back classes)
      (bare : Bare (utf8Length (before ++ text)) after back) (never : ¬ Closes back)
      (last : ∀ mid t rest, back = mid ++ t :: rest → t.kind = .openParen → Closes rest) :
      Shows before text after .unmatchedOpen
  /-- The character says the operator that is named. -/
  | missingOperand {k : Nat} {c : Char} {kind : TokenKind} {op : Operator} (is : text = [c])
      (outside : EndsOutside k before) (means : Signifies c kind) (operator : kind.operator? = some op)
      (written : op.symbol? = some c) : Shows before text after (.missingOperand c)
  /-- An operand begins, and is to be joined to what is in front of it. -/
  | malformed {k id : Nat} {t : Token} {classes : List CharClass} (outside : EndsOutside k before)
      (spelled : Spells (utf8Length before) id text [t] classes)
      (operand : t.kind = .openParen ∨ ∃ a, t.kind = .atom a) : Shows before text after .malformed
  /-- A bracket opens an expression that is not spelled well.  The text is what was read of it, and that
  is all where the expression only lacks its end. -/
  | bracket {k : Nat} {inside : List Char} {flaw : Flaw} (is : text = '[' :: inside)
      (outside : EndsOutside k before) (broken : ¬ WellBracketed (inside ++ after))
      (wrong : Misspelled inside after flaw) (ends : BeginsBracket (inside ++ after) → after = []) :
      Shows before text after flaw

def SyntaxError.Shown (pattern : String) (e : SyntaxError) : Prop :=
  ∃ before text after, e.span.Cuts pattern before text after ∧ Shows before text after e.flaw

namespace Tokens

theorem exists_bracket_of_error {length offset id : Nat} {cs : List Char} {e : SyntaxError}
    (told : read length id (Glyph.readAll offset cs) = .error e) :
    ∃ k before after flaw, cs = before ++ '[' :: after ∧ EndsOutside k before ∧
      Bracket.read (Glyph.readAll (offset + utf8Length before + '['.utf8Size) after) = .error flaw ∧
      e = flaw.toSyntaxError (offset + utf8Length before) length := by
  generalize cut : Glyph.readAll offset cs = gs at told
  fun_induction read length id gs generalizing offset cs e with
  | case1 => cases told
  | case2 id g rest opens flaw bracket =>
    cases told
    obtain ⟨after, rfl, span, rfl, -⟩ := Glyph.readAll_eq_cons cut
    rw [opens] at bracket ⊢
    rw [span]
    exact ⟨0, [], after, flaw, rfl, .nil, bracket, rfl⟩
  | case3 id g rest opens b bracket ih =>
    obtain ⟨cs', rfl, -, rfl, -⟩ := Glyph.readAll_eq_cons cut
    obtain ⟨inside, left, rfl, spelled, stop, behind⟩ := Bracket.spelled bracket
    obtain ⟨k, before, after, flaw, rfl, outside, wrong, rfl⟩ := ih behind.symm (map_eq_error.mp told)
    have bytes : offset + utf8Length ('[' :: inside ++ ']' :: before) =
        b.body.stop + utf8Length before := by
      rw [stop, opens]
      simp only [Shape.spell, List.cons_append, utf8Length_append, utf8Length_cons, utf8Length]
      omega
    refine ⟨k + 1, '[' :: inside ++ ']' :: before, after, flaw, ?_, .bracket spelled outside, ?_, ?_⟩
    · rw [opens]
      simp [Shape.spell]
    · rw [bytes]
      exact wrong
    · rw [bytes]
  | case4 id g rest plain ih =>
    obtain ⟨cs', rfl, -, rfl, unescaped, last⟩ := Glyph.readAll_eq_cons cut
    obtain ⟨k, before, after, flaw, rfl, outside, wrong, rfl⟩ := ih rfl (map_eq_error.mp told)
    have bytes : offset + utf8Length (g.shape.spell ++ before) =
        offset + utf8Length g.shape.spell + utf8Length before := by
      rw [utf8Length_append, Nat.add_assoc]
    refine ⟨k, g.shape.spell ++ before, after, flaw, by simp, ?_, ?_, ?_⟩
    · cases shape : g.shape with
      | plain c =>
        rw [shape] at plain unescaped
        exact .plain (by simpa using unescaped) (by simpa using plain) outside
      | escaped c => exact .escaped outside
      | dangling => cases before <;> cases last shape
    · rw [bytes]
      exact wrong
    · rw [bytes]

/-- What ends the reading of tokens is a bracket expression, and it is shown. -/
theorem shown_of_error {pattern : String} {e : SyntaxError} (told : ofPattern pattern = .error e) :
    e.Shown pattern := by
  obtain ⟨k, before, behind, flaw, whole, outside, wrong, rfl⟩ := exists_bracket_of_error told
  rw [Nat.zero_add] at wrong ⊢
  have length : pattern.utf8ByteSize = utf8Length before + utf8Length ('[' :: behind) := by
    rw [← utf8Length_append, ← whole, ← utf8ByteSize_ofList, String.ofList_toList]
  have broken := Bracket.not_wellBracketed wrong
  obtain ⟨inside, after, wrong, rfl, misspelled, eq⟩ := Bracket.misspelled wrong length
  rw [eq]
  refine ⟨before, '[' :: inside, after, ⟨by simp [whole], ?_⟩,
    .bracket rfl outside broken misspelled misspelled.eq_nil⟩
  rw [utf8Length_append]

end Tokens

/-! ## Errors of tokens -/

section

variable {pattern : String} {ts : List Token} {classes : List CharClass}

theorem Splits.cuts {before text after : List Char} {front back : List Token} {t : Token}
    (h : Splits 0 0 before text after front t back) (whole : pattern.toList = before ++ text ++ after) :
    t.span.Cuts pattern before text after := by
  refine ⟨whole, ?_⟩
  rw [h.span, Nat.zero_add, Nat.zero_add]

theorem Signifies.symbol?_of_operator? {c : Char} {kind : TokenKind} {op : Operator}
    (means : Signifies c kind) (operator : kind.operator? = some op) : op.symbol? = some c := by
  cases means <;> cases operator <;> rfl

theorem Odd.shown {e : SyntaxError} (h : Odd ts e) (spelled : Spells 0 0 pattern.toList ts classes) :
    e.Shown pattern := by
  cases h with
  | @closing front back t here is closed =>
    subst here
    obtain ⟨before, text, after, whole, splits⟩ := spelled.exists_split
    obtain ⟨k, outside⟩ := splits.outside
    obtain ⟨classes, spells⟩ := splits.front
    obtain ⟨c, text_eq, means⟩ := splits.bare (by rw [is]; rfl)
    rw [is] at means
    cases means
    exact ⟨before, text, after, splits.cuts whole,
      .unmatchedClose text_eq outside spells spells.bare closed⟩
  | @opening front back t here is closed =>
    subst here
    obtain ⟨before, text, after, whole, splits⟩ := spelled.exists_split
    obtain ⟨k, outside⟩ := splits.outside
    obtain ⟨id, classes, spells⟩ := splits.back
    obtain ⟨c, text_eq, means⟩ := splits.bare (by rw [is]; rfl)
    rw [is] at means
    cases means
    rw [Nat.zero_add] at spells
    refine ⟨before, text, after, splits.cuts whole, .unmatchedOpen text_eq outside spells spells.bare
      closed.not_closes fun mid u rest split opens => ?_⟩
    rw [split] at closed
    exact closed.closes opens

theorem Arises.shown {p : Pending} (h : Arises ts p) (spelled : Spells 0 0 pattern.toList ts classes) :
    p.missingOperand.Shown pattern := by
  obtain ⟨t, member, same, stands⟩ := h
  obtain ⟨front, back, rfl⟩ := List.append_of_mem member
  obtain ⟨before, text, after, whole, splits⟩ := spelled.exists_split
  obtain ⟨k, outside⟩ := splits.outside
  have cuts : p.missingOperand.span.Cuts pattern before text after := by
    rw [Pending.missingOperand, same]
    exact splits.cuts whole
  refine ⟨before, text, after, cuts, ?_⟩
  rcases stands with operator | ⟨concat, operand⟩
  · have not_atom : t.kind.atom? = none := by
      cases kind : t.kind with
      | atom a =>
        rw [kind] at operator
        cases operator
      | quantifier | bar | openParen | closeParen => rfl
    obtain ⟨c, text_eq, means⟩ := splits.bare not_atom
    have written := means.symbol?_of_operator? operator
    simp only [Pending.missingOperand, written]
    exact .missingOperand text_eq outside means operator written
  · obtain ⟨id, classes, spells⟩ := splits.here
    rw [Nat.zero_add] at spells
    rw [Pending.missingOperand, concat]
    exact .malformed outside spells operand

end

end CursorRegex
