import CursorRegex.Proofs.Outcome
import CursorRegex.Proofs.Pattern.TreeReader

/-! # How patterns are spelled

The syntax of a pattern in terms of its characters.  A character stands for itself unless it is
special; a backslash takes away what is special about the character behind it, makes a newline of an
`n`, and at the end of the pattern stands for itself.  The table of the special characters is `Signifies`,
that of the escapes `Escapes`, and neither knows how patterns are read: `Shape.escapes_iff` and
`Shape.signifies_iff` compare them with what the reader makes of a glyph.

`Spells` says which tokens the characters spell, and reading a pattern finds these tokens and no others
(`Tokens.ofPattern_eq_ok_iff`).  With the grammar of tokens, a pattern says at most one thing
(`Says.unique`). -/
set_option autoImplicit false

namespace CursorRegex

def utf8Length : List Char → Nat
  | [] => 0
  | c :: cs => c.utf8Size + utf8Length cs

/-- What a character behind a backslash stands for, inside brackets and outside. -/
inductive Escapes : Char → Char → Prop where
  | newline : Escapes 'n' '\n'
  | itself {c : Char} (ne : c ≠ 'n') : Escapes c c

/-- What a character stands for outside brackets and with no backslash in front.  A backslash and an
opening bracket stand for nothing by themselves. -/
inductive Signifies : Char → TokenKind → Prop where
  | star : Signifies '*' (.quantifier .star)
  | plus : Signifies '+' (.quantifier .plus)
  | quest : Signifies '?' (.quantifier .quest)
  | bar : Signifies '|' .bar
  | openParen : Signifies '(' .openParen
  | closeParen : Signifies ')' .closeParen
  | dot : Signifies '.' (.atom .any)
  | caret : Signifies '^' (.atom .lineStart)
  | dollar : Signifies '$' (.atom .lineEnd)
  | literal {c : Char} (usual : c ∉ ['\\', '[', '*', '+', '?', '|', '(', ')', '.', '^', '$']) :
      Signifies c (.atom (.char c))

/-- The characters that stand for `c` in a bracket expression, at a place where those in `special` do
not stand for themselves. -/
inductive Denotes (special : List Char) : List Char → Char → Prop where
  | plain {c : Char} (unescaped : c ≠ '\\') (usual : c ∉ special) : Denotes special [c] c
  | escaped {c d : Char} (means : Escapes c d) : Denotes special ['\\', c] d

/-- The items of a bracket expression.  A dash is special, except as the upper end of a range. -/
inductive SpellsItems : List Char → List ClassItem → Prop where
  | nil : SpellsItems [] []
  | char {one cs : List Char} {c : Char} {items : List ClassItem} (denotes : Denotes [']', '-'] one c)
      (more : SpellsItems cs items) : SpellsItems (one ++ cs) (.char c :: items)
  | range {low high cs : List Char} {lo hi : Char} {items : List ClassItem}
      (lower : Denotes [']', '-'] low lo) (upper : Denotes [']'] high hi)
      (more : SpellsItems cs items) : SpellsItems (low ++ '-' :: high ++ cs) (.range lo hi :: items)

/-- What stands between the brackets.  A caret in front negates, and there is at least one item. -/
inductive SpellsInside : List Char → Bool → List ClassItem → Prop where
  | positive {cs : List Char} {items : List ClassItem} (spelled : SpellsItems cs items)
      (filled : items ≠ []) (front : cs.head? ≠ some '^') : SpellsInside cs false items
  | negated {cs : List Char} {items : List ClassItem} (spelled : SpellsItems cs items)
      (filled : items ≠ []) : SpellsInside ('^' :: cs) true items

/-- The characters from byte `offset` on spell tokens, with classes that are numbered from `id` on.  The
class of a negated expression lists the newline in front of its items. -/
inductive Spells : Nat → Nat → List Char → List Token → List CharClass → Prop where
  | nil {offset id : Nat} : Spells offset id [] [] []
  | plain {offset id : Nat} {c : Char} {kind : TokenKind} {cs : List Char} {ts : List Token}
      {classes : List CharClass} (means : Signifies c kind)
      (more : Spells (offset + c.utf8Size) id cs ts classes) :
      Spells offset id (c :: cs) (⟨⟨offset, offset + c.utf8Size⟩, kind⟩ :: ts) classes
  | escaped {offset id : Nat} {c d : Char} {cs : List Char} {ts : List Token}
      {classes : List CharClass} (means : Escapes c d)
      (more : Spells (offset + utf8Length ['\\', c]) id cs ts classes) :
      Spells offset id ('\\' :: c :: cs)
        (⟨⟨offset, offset + utf8Length ['\\', c]⟩, .atom (.char d)⟩ :: ts) classes
  | dangling {offset id : Nat} :
      Spells offset id ['\\'] [⟨⟨offset, offset + utf8Length ['\\']⟩, .atom (.char '\\')⟩] []
  | bracket {offset id : Nat} {negated : Bool} {inside cs : List Char} {items : List ClassItem}
      {ts : List Token} {classes : List CharClass} (spelled : SpellsInside inside negated items)
      (more : Spells (offset + utf8Length ('[' :: inside ++ [']'])) (id + 1) cs ts classes) :
      Spells offset id ('[' :: inside ++ ']' :: cs)
        (⟨⟨offset, offset + utf8Length ('[' :: inside ++ [']'])⟩, .atom (.set id negated)⟩ :: ts)
        (⟨if negated then .char '\n' :: items else items⟩ :: classes)

theorem utf8Length_cons (c : Char) (cs : List Char) :
    utf8Length (c :: cs) = c.utf8Size + utf8Length cs := by
  rfl

theorem utf8Length_append (cs ds : List Char) :
    utf8Length (cs ++ ds) = utf8Length cs + utf8Length ds := by
  induction cs with
  | nil => exact (Nat.zero_add _).symm
  | cons c cs ih => rw [List.cons_append, utf8Length_cons, ih, utf8Length_cons, Nat.add_assoc]

theorem Denotes.mono {special fewer : List Char} {cs : List Char} {c : Char}
    (h : Denotes special cs c) (le : ∀ x ∈ fewer, x ∈ special) : Denotes fewer cs c := by
  cases h with
  | plain unescaped usual => exact .plain unescaped fun member => usual (le c member)
  | escaped means => exact .escaped means

/-! ## The reader's tables -/

namespace Shape

variable {c d : Char} {kind : TokenKind}

theorem escapes_iff : Escapes c d ↔ (escaped c).value = d := by
  rw [value]
  constructor
  · intro means
    cases means with
    | newline => rfl
    | itself ne => exact if_neg ne
  · intro same
    by_cases letter : c = 'n'
    · rw [if_pos letter] at same
      rw [letter, ← same]
      exact .newline
    · rw [if_neg letter] at same
      rw [← same]
      exact .itself letter

theorem escapes (c : Char) : Escapes c (escaped c).value := escapes_iff.mpr rfl

theorem signifies (unescaped : c ≠ '\\') (unbracketed : c ≠ '[') :
    Signifies c (plain c).tokenKind := by
  unfold tokenKind
  split
  case h_10 star plus quest bar opens closes dot caret dollar =>
    refine .literal ?_
    simp_all
  all_goals rename_i same; cases same; constructor

/-- The special characters are those of the table, and all others stand for themselves. -/
theorem signifies_iff :
    Signifies c kind ↔ c ≠ '\\' ∧ c ≠ '[' ∧ (plain c).tokenKind = kind := by
  constructor
  · intro means
    cases means with
    | literal usual =>
      simp only [List.mem_cons, List.not_mem_nil, or_false, not_or] at usual
      refine ⟨usual.1, usual.2.1, ?_⟩
      unfold tokenKind
      split
      case h_10 => rfl
      all_goals rename_i same; cases same; simp at usual
    | star | plus | quest | bar | openParen | closeParen | dot | caret | dollar =>
      exact ⟨by decide, by decide, rfl⟩
  · rintro ⟨unescaped, unbracketed, rfl⟩
    exact signifies unescaped unbracketed

end Shape

/-! ## Glyphs -/

namespace Glyph

variable {offset : Nat} {c : Char} {cs rest : List Char}

theorem readAll_plain (unescaped : c ≠ '\\') :
    readAll offset (c :: cs) =
      ⟨⟨offset, offset + c.utf8Size⟩, .plain c⟩ :: readAll (offset + c.utf8Size) cs := by
  cases cs with
  | nil => rw [readAll, readAll, if_neg unescaped]
  | cons d ds => rw [readAll, if_neg unescaped]

theorem readAll_escaped : readAll offset ('\\' :: c :: cs) =
    ⟨⟨offset, offset + utf8Length ['\\', c]⟩, .escaped c⟩ ::
      readAll (offset + utf8Length ['\\', c]) cs := by
  rw [readAll, if_pos rfl]
  simp [utf8Length, Nat.add_assoc]

theorem readAll_dangling : readAll offset ['\\'] =
    [⟨⟨offset, offset + utf8Length ['\\']⟩, .dangling⟩] := by
  rw [readAll, if_pos rfl]
  simp [utf8Length]

theorem readAll_eq_nil (h : readAll offset cs = []) : cs = [] := by
  have spelled := flatMap_spell_readAll offset cs
  rw [h] at spelled
  exact spelled.symm

theorem readAll_eq_cons {g : Glyph} {gs : List Glyph} (cut : readAll offset cs = g :: gs) :
    ∃ rest, cs = g.shape.spell ++ rest ∧
      g.span = ⟨offset, offset + utf8Length g.shape.spell⟩ ∧
      gs = readAll (offset + utf8Length g.shape.spell) rest ∧ g.shape ≠ .plain '\\' ∧
      (g.shape = .dangling → rest = []) := by
  cases cs with
  | nil => cases cut
  | cons c cs =>
    by_cases escape : c = '\\'
    · subst escape
      cases cs with
      | nil =>
        rw [readAll_dangling] at cut
        cases cut
        exact ⟨[], rfl, rfl, rfl, nofun, fun _ => rfl⟩
      | cons d ds =>
        rw [readAll_escaped] at cut
        cases cut
        exact ⟨ds, rfl, rfl, rfl, nofun, nofun⟩
    · rw [readAll_plain escape] at cut
      cases cut
      refine ⟨cs, rfl, ?_, ?_, ?_, nofun⟩
      · simp [Shape.spell, utf8Length]
      · simp [Shape.spell, utf8Length]
      · simpa using escape

end Glyph

namespace Shape

variable {shape : Shape} {c : Char}

theorem eq_of_closing (h : shape.bracketRole = .closing) : shape = .plain ']' := by
  unfold bracketRole at h
  split at h <;> first | rfl | cases h

theorem eq_of_dash (h : shape.bracketRole = .dash) : shape = .plain '-' := by
  unfold bracketRole at h
  split at h <;> first | rfl | cases h

theorem denotes_of_literal (cut : shape ≠ .plain '\\') (h : shape.bracketRole = .literal c) :
    Denotes [']', '-'] shape.spell c := by
  unfold bracketRole at h
  split at h
  case h_4 close dash broken =>
    cases h
    cases shape with
    | plain c =>
      refine .plain (by simpa using cut) ?_
      have ne : c ≠ ']' := fun same => close (same ▸ rfl)
      have ne' : c ≠ '-' := fun same => dash (same ▸ rfl)
      simp [ne, ne']
    | escaped c => exact .escaped (escapes c)
    | dangling => exact absurd rfl broken
  all_goals cases h

end Shape

/-- What denotes a character is cut off as one glyph. -/
theorem Denotes.exists_glyph {special cs : List Char} {c : Char} (h : Denotes special cs c)
    (offset : Nat) (rest : List Char) :
    ∃ shape, Glyph.readAll offset (cs ++ rest) =
        ⟨⟨offset, offset + utf8Length cs⟩, shape⟩ :: Glyph.readAll (offset + utf8Length cs) rest ∧
      shape.value = c ∧ shape ≠ .dangling ∧ ∀ x ∈ special, shape ≠ .plain x := by
  cases h with
  | plain unescaped usual =>
    refine ⟨.plain c, ?_, rfl, nofun, ?_⟩
    · rw [List.singleton_append, Glyph.readAll_plain unescaped]
      simp [utf8Length]
    · intro x member same
      cases same
      exact usual member
  | @escaped c d means =>
    exact ⟨.escaped c, Glyph.readAll_escaped, Shape.escapes_iff.mp means, nofun, fun _ _ => nofun⟩

theorem Shape.bracketRole_eq_literal {shape : Shape} (whole : shape ≠ .dangling)
    (usual : ∀ x ∈ [']', '-'], shape ≠ .plain x) : shape.bracketRole = .literal shape.value := by
  unfold bracketRole
  split
  · exact absurd rfl (usual ']' (by simp))
  · exact absurd rfl (usual '-' (by simp))
  · exact absurd rfl whole
  · rfl

/-! ## Brackets -/

namespace SpellsItems

variable {cs : List Char} {items : List ClassItem}

/-- Items do not begin with a dash, and neither does the bracket behind them. -/
theorem exists_glyph (h : SpellsItems cs items) (offset : Nat) (rest : List Char) :
    ∃ g gs, Glyph.readAll offset (cs ++ ']' :: rest) = g :: gs ∧ g.shape ≠ .plain '-' := by
  cases h with
  | nil => exact ⟨_, _, Glyph.readAll_plain (by decide), nofun⟩
  | char denotes more =>
    rw [List.append_assoc]
    obtain ⟨shape, cut, -, -, usual⟩ := denotes.exists_glyph offset (_ ++ ']' :: rest)
    exact ⟨_, _, cut, usual '-' (by simp)⟩
  | range lower upper more =>
    rw [List.append_assoc, List.append_assoc]
    obtain ⟨shape, cut, -, -, usual⟩ := lower.exists_glyph offset (_ ++ (_ ++ ']' :: rest))
    exact ⟨_, _, cut, usual '-' (by simp)⟩

theorem read (h : SpellsItems cs items) (offset : Nat) (rest : List Char) :
    BracketBody.read (Glyph.readAll offset (cs ++ ']' :: rest)) =
      .ok ⟨items, offset + utf8Length (cs ++ [']']),
        Glyph.readAll (offset + utf8Length (cs ++ [']'])) rest⟩ := by
  induction h generalizing offset with
  | nil =>
    rw [List.nil_append, Glyph.readAll_plain (by decide), BracketBody.read]
    rfl
  | @char one cs c items denotes more ih =>
    obtain ⟨shape, cut, value, whole, usual⟩ := denotes.exists_glyph offset (cs ++ ']' :: rest)
    obtain ⟨mid, gs, next, ne⟩ := more.exists_glyph (offset + utf8Length one) rest
    have read := ih (offset + utf8Length one)
    have role := Shape.bracketRole_eq_literal whole usual
    rw [List.append_assoc, cut, BracketBody.read]
    simp only [role, value]
    rw [next] at read ⊢
    simp only [if_neg ne, read, Except.map, BracketBody.cons, utf8Length_append, Nat.add_assoc]
  | @range low high cs lo hi items lower upper more ih =>
    obtain ⟨shape, cut, value, whole, usual⟩ :=
      lower.exists_glyph offset ('-' :: (high ++ (cs ++ ']' :: rest)))
    obtain ⟨top, cut', value', whole', usual'⟩ :=
      upper.exists_glyph (offset + utf8Length low + '-'.utf8Size) (cs ++ ']' :: rest)
    have read := ih (offset + utf8Length low + '-'.utf8Size + utf8Length high)
    have role := Shape.bracketRole_eq_literal whole usual
    have assoc : low ++ '-' :: high ++ cs ++ ']' :: rest =
        low ++ ('-' :: (high ++ (cs ++ ']' :: rest))) := by simp
    rw [assoc, cut, Glyph.readAll_plain (by decide), cut', BracketBody.read]
    simp only [role, value, if_true]
    have close : top ≠ .plain ']' := usual' ']' (by simp)
    by_cases dash : top = .plain '-'
    · subst dash
      have same : '-' = hi := value'
      subst same
      simp only [Shape.bracketRole]
      rw [read]
      simp only [Except.map, BracketBody.cons, utf8Length_append, utf8Length_cons, Nat.add_assoc]
    · have role' := Shape.bracketRole_eq_literal whole' (by
        intro x member
        simp only [List.mem_cons, List.not_mem_nil, or_false] at member
        rcases member with rfl | rfl
        · exact close
        · exact dash)
      simp only [role', value']
      rw [read]
      simp only [Except.map, BracketBody.cons, utf8Length_append, utf8Length_cons, Nat.add_assoc]

end SpellsItems

namespace BracketBody

variable {offset : Nat} {cs : List Char} {body : BracketBody}

def Spelled (offset : Nat) (cs : List Char) (body : BracketBody) : Prop :=
  ∃ inside rest, cs = inside ++ ']' :: rest ∧ SpellsItems inside body.items ∧
    body.stop = offset + utf8Length (inside ++ [']']) ∧ body.rest = Glyph.readAll body.stop rest

theorem Spelled.char {one : List Char} {c : Char} (denotes : Denotes [']', '-'] one c)
    (h : body.Spelled (offset + utf8Length one) cs) :
    (body.cons (.char c)).Spelled offset (one ++ cs) := by
  obtain ⟨inside, rest, rfl, items, stop, left⟩ := h
  refine ⟨one ++ inside, rest, by simp, .char denotes items, ?_, left⟩
  rw [List.append_assoc, utf8Length_append, ← Nat.add_assoc]
  exact stop

theorem Spelled.range {low high : List Char} {lo hi : Char} (lower : Denotes [']', '-'] low lo)
    (upper : Denotes [']'] high hi)
    (h : body.Spelled (offset + utf8Length (low ++ '-' :: high)) cs) :
    (body.cons (.range lo hi)).Spelled offset (low ++ '-' :: high ++ cs) := by
  obtain ⟨inside, rest, rfl, items, stop, left⟩ := h
  refine ⟨low ++ '-' :: high ++ inside, rest, by simp, .range lower upper items, ?_, left⟩
  rw [List.append_assoc, utf8Length_append, ← Nat.add_assoc]
  exact stop

theorem readAll_eq_range {low mid high : Glyph} {gs : List Glyph}
    (cut : Glyph.readAll offset cs = low :: mid :: high :: gs) (dash : mid.shape = .plain '-') :
    ∃ rest, cs = low.shape.spell ++ '-' :: high.shape.spell ++ rest ∧
      gs = Glyph.readAll (offset + utf8Length (low.shape.spell ++ '-' :: high.shape.spell)) rest ∧
      low.shape ≠ .plain '\\' ∧ high.shape ≠ .plain '\\' := by
  obtain ⟨cs', rfl, -, cut', ne, -⟩ := Glyph.readAll_eq_cons cut
  obtain ⟨cs'', rfl, -, cut'', -, -⟩ := Glyph.readAll_eq_cons cut'.symm
  obtain ⟨rest, rfl, -, rfl, ne', -⟩ := Glyph.readAll_eq_cons cut''.symm
  have between : mid.shape.spell = ['-'] := by rw [dash, Shape.spell]
  rw [between]
  refine ⟨rest, by simp, ?_, ne, ne'⟩
  rw [utf8Length_append, utf8Length_cons]
  simp only [utf8Length, Nat.add_assoc, Nat.add_zero]

/-- What is read as the inside of a bracket expression is spelled so. -/
theorem spelled (read : BracketBody.read (Glyph.readAll offset cs) = .ok body) :
    body.Spelled offset cs := by
  generalize cut : Glyph.readAll offset cs = gs at read
  fun_induction BracketBody.read gs generalizing offset cs body with
  | case1 | case3 | case4 | case5 | case6 | case7 | case8 => cases read
  | case2 g rest role =>
    cases read
    obtain ⟨cs', rfl, span, rfl, -, -⟩ := Glyph.readAll_eq_cons cut
    rw [Shape.eq_of_closing role] at span ⊢
    exact ⟨[], cs', rfl, .nil, by rw [span]; rfl, by rw [span]⟩
  | case9 low lo role mid dash high gs role' ih =>
    obtain ⟨inner, inside, rfl⟩ := map_eq_ok.mp read
    obtain ⟨rest, rfl, rfl, ne, -⟩ := readAll_eq_range cut dash
    have upper : Denotes [']'] high.shape.spell '-' := by
      rw [Shape.eq_of_dash role']
      exact .plain (by decide) (by decide)
    exact (ih rfl inside).range (Shape.denotes_of_literal ne role) upper
  | case10 low lo role mid dash high gs hi role' ih =>
    obtain ⟨inner, inside, rfl⟩ := map_eq_ok.mp read
    obtain ⟨rest, rfl, rfl, ne, ne'⟩ := readAll_eq_range cut dash
    have upper : Denotes [']'] high.shape.spell hi :=
      (Shape.denotes_of_literal ne' role').mono (by simp)
    exact (ih rfl inside).range (Shape.denotes_of_literal ne role) upper
  | case11 one c role mid gs ne ih =>
    obtain ⟨inner, inside, rfl⟩ := map_eq_ok.mp read
    obtain ⟨rest, rfl, -, cut', unescaped, -⟩ := Glyph.readAll_eq_cons cut
    exact (ih cut'.symm inside).char (Shape.denotes_of_literal unescaped role)

end BracketBody

namespace Bracket

variable {offset : Nat} {cs : List Char}

theorem beginsNegated_readAll :
    beginsNegated (Glyph.readAll offset cs) = true ↔ cs.head? = some '^' := by
  cases cs with
  | nil => simp [Glyph.readAll, beginsNegated]
  | cons c cs =>
    by_cases escape : c = '\\'
    · subst escape
      cases cs with
      | nil => simp [Glyph.readAll_dangling, beginsNegated]
      | cons d ds => simp [Glyph.readAll_escaped, beginsNegated]
    · simp [Glyph.readAll_plain escape, beginsNegated]

theorem read_of_spells {inside : List Char} {negated : Bool} {items : List ClassItem}
    (h : SpellsInside inside negated items) (offset : Nat) (rest : List Char) :
    read (Glyph.readAll offset (inside ++ ']' :: rest)) =
      .ok ⟨negated, items, offset + utf8Length (inside ++ [']']),
        Glyph.readAll (offset + utf8Length (inside ++ [']'])) rest⟩ := by
  cases h with
  | positive spelled filled front =>
    have plain : beginsNegated (Glyph.readAll offset (inside ++ ']' :: rest)) = false := by
      rw [← Bool.not_eq_true, beginsNegated_readAll]
      cases inside with
      | nil => simp
      | cons c cs => simpa using front
    unfold read
    simp [plain, spelled.read, filled]
  | @negated cs _ spelled filled =>
    have caret : beginsNegated (Glyph.readAll offset ('^' :: cs ++ ']' :: rest)) = true :=
      beginsNegated_readAll.mpr rfl
    unfold read
    simp only [caret, if_true]
    rw [List.cons_append, Glyph.readAll_plain (by decide), List.tail_cons, spelled.read]
    simp only [if_neg filled, List.cons_append, utf8Length_cons, Nat.add_assoc]

theorem spelled {b : Bracket} (h : read (Glyph.readAll offset cs) = .ok b) :
    ∃ inside rest, cs = inside ++ ']' :: rest ∧ SpellsInside inside b.negated b.body.items ∧
      b.body.stop = offset + utf8Length (inside ++ [']']) ∧
      b.body.rest = Glyph.readAll b.body.stop rest := by
  unfold read at h
  dsimp only at h
  split at h
  · cases h
  next body read =>
    split at h
    · cases h
    next filled =>
      cases h
      by_cases caret : beginsNegated (Glyph.readAll offset cs) = true
      · cases cs with
        | nil => cases caret
        | cons c cs =>
          have first : c = '^' := by simpa using beginsNegated_readAll.mp caret
          subst first
          rw [if_pos caret, Glyph.readAll_plain (by decide), List.tail_cons] at read
          obtain ⟨inside, rest, rfl, items, stop, left⟩ := BracketBody.spelled read
          rw [caret]
          refine ⟨'^' :: inside, rest, rfl, .negated items filled, ?_, left⟩
          rw [stop, List.cons_append, utf8Length_cons, ← Nat.add_assoc]
      · rw [if_neg caret] at read
        obtain ⟨inside, rest, rfl, items, stop, left⟩ := BracketBody.spelled read
        rw [Bool.eq_false_iff.mpr caret]
        refine ⟨inside, rest, rfl, .positive items filled fun front => caret ?_, stop, left⟩
        rw [beginsNegated_readAll]
        cases inside with
        | nil => cases front
        | cons c cs => exact front

end Bracket

/-! ## Patterns -/

namespace Tokens

theorem read_of_spells {offset id : Nat} {cs : List Char} {ts : List Token}
    {classes : List CharClass} (h : Spells offset id cs ts classes) (length : Nat) :
    read length id (Glyph.readAll offset cs) = .ok ⟨ts, classes⟩ := by
  induction h with
  | nil => rw [Glyph.readAll, read]
  | plain means more ih =>
    obtain ⟨unescaped, unbracketed, rfl⟩ := Shape.signifies_iff.mp means
    rw [Glyph.readAll_plain unescaped, read, if_neg (by simpa using unbracketed), ih]
    rfl
  | escaped means more ih =>
    rw [Glyph.readAll_escaped, read, if_neg (by simp), ih, ← Shape.escapes_iff.mp means]
    rfl
  | dangling =>
    rw [Glyph.readAll_dangling, read, if_neg (by simp), read]
    rfl
  | @bracket offset id negated inside cs items ts classes spelled more ih =>
    rw [List.cons_append, utf8Length_cons, ← Nat.add_assoc] at ih
    rw [List.cons_append, List.cons_append, utf8Length_cons, ← Nat.add_assoc,
      Glyph.readAll_plain (by decide), read, if_pos rfl]
    have bracket := Bracket.read_of_spells spelled (offset + '['.utf8Size) cs
    split
    next read => rw [bracket] at read; cases read
    next read =>
      rw [bracket] at read
      cases read
      rw [ih]
      rfl

theorem spelled {length offset id : Nat} {cs : List Char} {tokens : Tokens}
    (h : read length id (Glyph.readAll offset cs) = .ok tokens) :
    Spells offset id cs tokens.list tokens.classes := by
  generalize cut : Glyph.readAll offset cs = gs at h
  fun_induction read length id gs generalizing offset cs tokens with
  | case1 id =>
    cases h
    rw [Glyph.readAll_eq_nil cut]
    exact .nil
  | case2 => cases h
  | case3 id g rest opens b bracket ih =>
    obtain ⟨inner, read, rfl⟩ := map_eq_ok.mp h
    obtain ⟨cs', rfl, span, rfl, -, -⟩ := Glyph.readAll_eq_cons cut
    rw [opens] at span bracket ⊢
    obtain ⟨inside, left, rfl, spelled, stop, behind⟩ := Bracket.spelled bracket
    have whole : b.body.stop = offset + utf8Length ('[' :: inside ++ [']']) := by
      rw [stop, List.cons_append, utf8Length_cons, ← Nat.add_assoc]
      rfl
    have more := ih behind.symm read
    rw [whole] at more
    have token := Spells.bracket spelled more
    rw [← whole] at token
    rw [consBracket, span]
    exact token
  | case4 id g rest plain ih =>
    obtain ⟨inner, read, rfl⟩ := map_eq_ok.mp h
    obtain ⟨cs', rfl, span, rfl, unescaped, last⟩ := Glyph.readAll_eq_cons cut
    have more := ih rfl read
    rw [cons, span]
    cases shape : g.shape with
    | plain c =>
      rw [shape] at plain unescaped more
      exact .plain (Shape.signifies (by simpa using unescaped) (by simpa using plain)) more
    | escaped c =>
      rw [shape] at more
      exact .escaped (Shape.escapes c) more
    | dangling =>
      obtain ⟨list, classes⟩ := inner
      rw [last shape] at more ⊢
      cases more
      exact .dangling

/-- Reading a pattern finds the tokens that it spells. -/
theorem ofPattern_eq_ok_iff {pattern : String} {ts : List Token} {classes : List CharClass} :
    ofPattern pattern = .ok ⟨ts, classes⟩ ↔ Spells 0 0 pattern.toList ts classes := by
  constructor
  · intro h
    exact spelled h
  · intro h
    exact read_of_spells h pattern.utf8ByteSize

end Tokens

/-- By its syntax the pattern has this tree, and these are the classes that the tree refers to. -/
def Says (pattern : String) (classes : List CharClass) (tree : Option Tree) : Prop :=
  ∃ ts, Spells 0 0 pattern.toList ts classes ∧ Parses ts tree

theorem Says.unique {pattern : String} {classes classes' : List CharClass}
    {tree tree' : Option Tree} (h : Says pattern classes tree) (h' : Says pattern classes' tree') :
    classes = classes' ∧ tree = tree' := by
  obtain ⟨ts, spells, parses⟩ := h
  obtain ⟨ts', spells', parses'⟩ := h'
  have read := Tokens.ofPattern_eq_ok_iff.mpr spells
  rw [Tokens.ofPattern_eq_ok_iff.mpr spells'] at read
  cases read
  exact ⟨rfl, parses.unique parses'⟩

end CursorRegex
