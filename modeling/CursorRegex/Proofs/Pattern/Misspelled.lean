import CursorRegex.Proofs.Pattern.Bracketed

/-! # Where a bracket expression goes wrong

An expression that is not spelled well is told by what is read of it.  Where what stands behind the bracket
could still be continued to an expression (`BeginsBracket`), the pattern ends too early, and all that is
left of it was read.  A dash out of place ends the reading at the character that no continuation can
mend.  The third flaw is that nothing stands between the brackets (`Bracket.misspelled`). -/
set_option autoImplicit false

namespace CursorRegex

/-- These characters behind an opening bracket can be continued to an expression that is spelled well. -/
def BeginsBracket (inside : List Char) : Prop := ∃ more, WellBracketed (inside ++ more)

/-- What is wrong with a bracket expression of which `inside` is read and `after` is not. -/
inductive Misspelled : List Char → List Char → Flaw → Prop where
  /-- The pattern ends before the expression does. -/
  | unterminated {inside : List Char} (begins : BeginsBracket inside) (open_still : ¬ WellBracketed inside) :
      Misspelled inside [] .unterminatedClass
  /-- A dash stands where an item has to begin, or right before the closing bracket. -/
  | misplacedDash {inside after : List Char} {c : Char} (begins : BeginsBracket inside)
      (stuck : ¬ BeginsBracket (inside ++ [c]))
      (dash : c = '-' ∨ c = ']' ∧ ∃ items, inside = items ++ ['-']) :
      Misspelled (inside ++ [c]) after .misplacedDash
  | empty {inside after : List Char} (nothing : inside = [']'] ∨ inside = ['^', ']']) :
      Misspelled inside after .emptyClass

/-! ## Glyphs -/

namespace Glyph

variable {offset : Nat} {cs : List Char} {g : Glyph} {front back : List Glyph}

theorem readAll_spell (span : g.span = ⟨offset, offset + utf8Length g.shape.spell⟩)
    (cut : g.shape ≠ .plain '\\') (whole : g.shape ≠ .dangling) (more : List Char) :
    readAll offset (g.shape.spell ++ more) =
      g :: readAll (offset + utf8Length g.shape.spell) more := by
  obtain ⟨at_bytes, shape⟩ := g
  dsimp only at span cut whole
  subst span
  cases shape with
  | plain c =>
    have unescaped : c ≠ '\\' := fun same => cut (same ▸ rfl)
    rw [Shape.spell, List.singleton_append, readAll_plain unescaped]
    rfl
  | escaped c => exact readAll_escaped
  | dangling => exact absurd rfl whole

/-- Where the glyphs split, the characters do, and the first of them are cut in the same way whatever
comes behind. -/
theorem readAll_eq_append (cut : readAll offset cs = front ++ g :: back) (whole : g.shape ≠ .dangling) :
    ∃ before after, cs = before ++ g.shape.spell ++ after ∧ readAll offset before = front ∧
      g.span.stop = offset + utf8Length (before ++ g.shape.spell) ∧
      ∀ more, readAll offset (before ++ g.shape.spell ++ more) = front ++ g ::
        readAll (offset + utf8Length (before ++ g.shape.spell)) more := by
  induction front generalizing offset cs with
  | nil =>
    obtain ⟨after, rfl, span, -, ne, -⟩ := readAll_eq_cons cut
    exact ⟨[], after, rfl, rfl, by rw [span]; rfl, readAll_spell span ne whole⟩
  | cons first front ih =>
    obtain ⟨rest, rfl, span, cut', ne, ends⟩ := readAll_eq_cons cut
    have whole_first : first.shape ≠ .dangling := by
      intro last
      rw [ends last] at cut'
      exact absurd cut' (by simp [readAll])
    obtain ⟨before, after, rfl, front_eq, stop, same⟩ := ih cut'.symm
    have add : ∀ more, offset + utf8Length (first.shape.spell ++ more) =
        offset + utf8Length first.shape.spell + utf8Length more := by
      intro more
      rw [utf8Length_append, Nat.add_assoc]
    refine ⟨first.shape.spell ++ before, after, by simp only [List.append_assoc], ?_, ?_, fun more => ?_⟩
    · rw [readAll_spell span ne whole_first, front_eq]
    · rw [List.append_assoc, add, stop]
    · rw [List.append_assoc, List.append_assoc, readAll_spell span ne whole_first, ← List.append_assoc,
        same, List.append_assoc, add]
      rfl

end Glyph

theorem Shape.eq_of_broken {shape : Shape} (h : shape.bracketRole = .broken) : shape = .dangling := by
  unfold bracketRole at h
  split at h <;> first | rfl | cases h

/-! ## Items -/

namespace BracketBody

variable {offset stop : Nat} {cs : List Char}

/-- The reading stops at a dash out of place or at a bracket behind a dash.  What comes behind does not
matter, and what comes in front only lacks its end. -/
def Offends (stop : Nat) (gs : List Glyph) : Prop :=
  ∃ front g back, gs = front ++ g :: back ∧ g.span.stop = stop ∧
    (g.shape = .plain '-' ∨
      g.shape = .plain ']' ∧ ∃ items mid, front = items ++ [mid] ∧ mid.shape = .plain '-') ∧
    read front = .error .unterminated ∧ ∀ more, read (front ++ g :: more) = .error (.misplacedDash stop)

/-- An item in front changes nothing, where it passes on what is wrong behind it. -/
theorem Offends.behind {gs : List Glyph} (h : Offends stop gs) (starts : Glyph → Prop)
    (item : List Glyph) (first : ∀ g ∈ gs.head?, starts g)
    (passes : ∀ gs flaw, (∀ g ∈ gs.head?, starts g) → read gs = .error flaw →
      read (item ++ gs) = .error flaw) : Offends stop (item ++ gs) := by
  obtain ⟨front, g, back, rfl, stops, is, before, same⟩ := h
  have first_front : ∀ u ∈ front.head?, starts u := by
    cases front with
    | nil => exact nofun
    | cons u front => exact first
  have first_more : ∀ more, ∀ u ∈ (front ++ g :: more).head?, starts u := by
    intro more
    cases front with
    | nil => exact first
    | cons u front => exact first
  refine ⟨item ++ front, g, back, (List.append_assoc _ _ _).symm, stops, is.imp_right ?_, ?_, fun more => ?_⟩
  · rintro ⟨closing, items, mid, rfl, dash⟩
    exact ⟨closing, item ++ items, mid, (List.append_assoc _ _ _).symm, dash⟩
  · exact passes front .unterminated first_front before
  · rw [List.append_assoc]
    exact passes _ _ (first_more more) (same more)

theorem offends_of_misplacedDash {gs : List Glyph} (told : read gs = .error (.misplacedDash stop)) :
    Offends stop gs := by
  fun_induction read gs with
  | case1 | case2 | case4 | case5 | case6 | case8 => cases told
  | case3 g rest role =>
    cases told
    refine ⟨[], g, rest, rfl, rfl, Or.inl (Shape.eq_of_dash role), rfl, fun more => ?_⟩
    rw [List.nil_append, read]
    simp only [role]
  | case7 low lo role mid dash top gs role' =>
    cases told
    refine ⟨[low, mid], top, gs, rfl, rfl, Or.inr ⟨Shape.eq_of_closing role', [low], mid, rfl, dash⟩,
      ?_, fun more => ?_⟩
    · rw [read]
      simp only [role, dash, if_true]
    · rw [List.cons_append, List.singleton_append, read]
      simp only [role, dash, if_true, role']
  | case9 low lo role mid dash high gs role' ih =>
    refine (ih (map_eq_error.mp told)).behind (fun _ => True) [low, mid, high]
      (fun _ _ => trivial) fun more flaw _ fails => ?_
    rw [List.cons_append, List.cons_append, List.singleton_append, read]
    simp only [role, dash, if_true, role', fails]
    rfl
  | case10 low lo role mid dash high gs hi role' ih =>
    refine (ih (map_eq_error.mp told)).behind (fun _ => True) [low, mid, high]
      (fun _ _ => trivial) fun more flaw _ fails => ?_
    rw [List.cons_append, List.cons_append, List.singleton_append, read]
    simp only [role, dash, if_true, role', fails]
    rfl
  | case11 one c role mid gs ne ih =>
    refine (ih (map_eq_error.mp told)).behind (·.shape ≠ .plain '-') [one]
      ?_ fun more flaw first fails => ?_
    · rintro _ ⟨⟩
      exact ne
    · rw [List.singleton_append, read]
      simp only [role]
      cases more with
      | nil => exact fails
      | cons u more =>
        dsimp only
        rw [if_neg (first u rfl), fails]
        rfl

/-- In characters: `before` only lacks its end, and with `c` behind it nothing helps. -/
theorem exists_stuck {offset : Nat} {cs : List Char}
    (told : read (Glyph.readAll offset cs) = .error (.misplacedDash stop)) :
    ∃ before c after, cs = before ++ [c] ++ after ∧ stop = offset + utf8Length (before ++ [c]) ∧
      (c = '-' ∨ c = ']' ∧ ∃ items, before = items ++ ['-']) ∧
      read (Glyph.readAll offset before) = .error .unterminated ∧
      ∀ more, read (Glyph.readAll offset (before ++ [c] ++ more)) = .error (.misplacedDash stop) := by
  obtain ⟨front, g, back, cut, stops, is, lacks, same⟩ := offends_of_misplacedDash told
  obtain ⟨c, shape, dash⟩ : ∃ c, g.shape = .plain c ∧ (c = '-' ∨ c = ']' ∧
      ∃ items mid, front = items ++ [mid] ∧ mid.shape = .plain '-') := by
    rcases is with dash | ⟨closing, behind⟩
    · exact ⟨'-', dash, Or.inl rfl⟩
    · exact ⟨']', closing, Or.inr ⟨rfl, behind⟩⟩
  have plain_whole : ∀ c, Shape.plain c ≠ .dangling := nofun
  have whole : g.shape ≠ .dangling := shape ▸ plain_whole c
  obtain ⟨before, after, rfl, cut', stop_eq, cut_more⟩ := Glyph.readAll_eq_append cut whole
  rw [shape, Shape.spell] at stop_eq cut_more ⊢
  refine ⟨before, c, after, rfl, stops.symm.trans stop_eq, dash.imp_right ?_, cut' ▸ lacks, fun more => ?_⟩
  · rintro ⟨closing, items, mid, split, dash'⟩
    have whole_mid : mid.shape ≠ .dangling := dash' ▸ plain_whole '-'
    obtain ⟨front', rest, rfl, -, -, again⟩ := Glyph.readAll_eq_append (cut'.trans split) whole_mid
    have last := (again rest).symm.trans (cut'.trans split)
    have none_left := (List.cons.inj (List.append_cancel_left last)).2
    rw [dash', Shape.spell, Glyph.readAll_eq_nil none_left]
    exact ⟨closing, front', List.append_nil _⟩
  · rw [cut_more, same]

theorem exists_more {offset : Nat} {cs : List Char}
    (told : read (Glyph.readAll offset cs) = .error .unterminated) :
    ∃ more items, SpellsItems (cs ++ more) items ∧ items ≠ [] := by
  have letter : Denotes [']', '-'] ['a'] 'a' := .plain (by decide) (by decide)
  have bracket : Escapes ']' ']' := .itself (by decide)
  generalize cut : Glyph.readAll offset cs = gs at told
  fun_induction read gs generalizing offset cs with
  | case1 =>
    have one := SpellsItems.char letter .nil
    rw [Glyph.readAll_eq_nil cut]
    exact ⟨['a'], [.char 'a'], one, List.cons_ne_nil _ _⟩
  | case2 | case3 | case7 => cases told
  | case4 g rest role =>
    obtain ⟨rest, rfl, -, -, -, ends⟩ := Glyph.readAll_eq_cons cut
    have last := Shape.eq_of_broken role
    have one := SpellsItems.char (.escaped bracket) .nil
    rw [ends last, last]
    exact ⟨[']'], [.char ']'], one, List.cons_ne_nil _ _⟩
  | case5 g lo role =>
    obtain ⟨rest, rfl, -, cut', ne, -⟩ := Glyph.readAll_eq_cons cut
    rw [Glyph.readAll_eq_nil cut'.symm]
    refine ⟨[], [.char lo], ?_, List.cons_ne_nil _ _⟩
    rw [List.append_nil]
    exact .char (Shape.denotes_of_literal ne role) .nil
  | case6 low lo role mid dash =>
    obtain ⟨rest, rfl, -, cut', ne, -⟩ := Glyph.readAll_eq_cons cut
    obtain ⟨rest', rfl, -, cut'', -, -⟩ := Glyph.readAll_eq_cons cut'.symm
    rw [Glyph.readAll_eq_nil cut''.symm, dash]
    have range := SpellsItems.range (Shape.denotes_of_literal ne role) (letter.mono (by simp)) .nil
    refine ⟨['a'], [.range lo 'a'], ?_, List.cons_ne_nil _ _⟩
    simpa [Shape.spell] using range
  | case8 low lo role mid dash top gs role' =>
    obtain ⟨rest, rfl, -, cut', ne, -⟩ := Glyph.readAll_eq_cons cut
    obtain ⟨rest', rfl, -, cut'', -, -⟩ := Glyph.readAll_eq_cons cut'.symm
    obtain ⟨rest'', rfl, -, -, -, ends⟩ := Glyph.readAll_eq_cons cut''.symm
    have last := Shape.eq_of_broken role'
    rw [ends last, last, dash]
    have range := SpellsItems.range (Shape.denotes_of_literal ne role) (.escaped bracket) .nil
    refine ⟨[']'], [.range lo ']'], ?_, List.cons_ne_nil _ _⟩
    simpa [Shape.spell] using range
  | case9 low lo role mid dash high gs role' ih =>
    obtain ⟨rest, rfl, rfl, ne, -⟩ := readAll_eq_range cut dash
    obtain ⟨more, items, spelled, -⟩ := ih rfl (map_eq_error.mp told)
    have upper : Denotes [']'] high.shape.spell '-' := by
      rw [Shape.eq_of_dash role']
      exact .plain (by decide) (by decide)
    refine ⟨more, .range lo '-' :: items, ?_, List.cons_ne_nil _ _⟩
    rw [List.append_assoc]
    exact .range (Shape.denotes_of_literal ne role) upper spelled
  | case10 low lo role mid dash high gs hi role' ih =>
    obtain ⟨rest, rfl, rfl, ne, ne'⟩ := readAll_eq_range cut dash
    obtain ⟨more, items, spelled, -⟩ := ih rfl (map_eq_error.mp told)
    have upper : Denotes [']'] high.shape.spell hi :=
      (Shape.denotes_of_literal ne' role').mono (by simp)
    refine ⟨more, .range lo hi :: items, ?_, List.cons_ne_nil _ _⟩
    rw [List.append_assoc]
    exact .range (Shape.denotes_of_literal ne role) upper spelled
  | case11 one c role mid gs ne ih =>
    obtain ⟨rest, rfl, -, cut', unescaped, -⟩ := Glyph.readAll_eq_cons cut
    obtain ⟨more, items, spelled, -⟩ := ih cut'.symm (map_eq_error.mp told)
    refine ⟨more, .char c :: items, ?_, List.cons_ne_nil _ _⟩
    rw [List.append_assoc]
    exact .char (Shape.denotes_of_literal unescaped role) spelled

end BracketBody

/-! ## Whole expressions -/

namespace Bracket

variable {offset : Nat} {cs : List Char} {flaw : BracketFlaw}

def ofBody (negated : Bool) (body : BracketBody) : Except BracketFlaw Bracket :=
  if body.items = [] then .error (.empty body.stop) else .ok ⟨negated, body⟩

theorem read_eq (gs : List Glyph) : read gs =
    BracketBody.read (if beginsNegated gs then gs.tail else gs) >>= ofBody (beginsNegated gs) := by
  unfold read
  dsimp only
  cases BracketBody.read (if beginsNegated gs then gs.tail else gs) <;> rfl

theorem ofBody_eq_error {negated : Bool} {x : Except BracketFlaw BracketBody}
    (told : x >>= ofBody negated = .error flaw) :
    x = .error flaw ∨ ∃ body, x = .ok body ∧ body.items = [] ∧ flaw = .empty body.stop := by
  cases x with
  | error flaw' =>
    cases told
    exact Or.inl rfl
  | ok body =>
    have told : ofBody negated body = .error flaw := told
    unfold ofBody at told
    split at told
    next none =>
      cases told
      exact Or.inr ⟨body, rfl, none, rfl⟩
    · cases told

def Caret (caret items : List Char) : Prop := caret = ['^'] ∨ caret = [] ∧ items.head? ≠ some '^'

theorem exists_caret (cs : List Char) : ∃ caret items, cs = caret ++ items ∧ Caret caret items := by
  by_cases first : cs.head? = some '^'
  · obtain ⟨items, rfl⟩ := List.head?_eq_some_iff.mp first
    exact ⟨['^'], items, rfl, Or.inl rfl⟩
  · exact ⟨[], cs, rfl, Or.inr ⟨rfl, first⟩⟩

namespace Caret

variable {caret items more : List Char}

theorem front (h : Caret caret (items ++ more)) : Caret caret items := by
  refine h.imp_right fun ⟨bare, first⟩ => ⟨bare, fun same => first ?_⟩
  obtain ⟨rest, rfl⟩ := List.head?_eq_some_iff.mp same
  rfl

theorem other (h : Caret caret (items ++ more)) (some_items : items ≠ []) (more' : List Char) :
    Caret caret (items ++ more') := by
  refine h.imp_right fun ⟨bare, first⟩ => ⟨bare, ?_⟩
  cases items with
  | nil => exact absurd rfl some_items
  | cons c items => exact first

theorem read_eq (h : Caret caret items) (offset : Nat) : ∃ negated,
    read (Glyph.readAll offset (caret ++ items)) =
      BracketBody.read (Glyph.readAll (offset + utf8Length caret) items) >>= ofBody negated := by
  rw [Bracket.read_eq]
  rcases h with rfl | ⟨rfl, plain⟩
  · have caret : beginsNegated (Glyph.readAll offset (['^'] ++ items)) = true :=
      beginsNegated_readAll.mpr rfl
    refine ⟨true, ?_⟩
    rw [caret, if_pos rfl, List.singleton_append, Glyph.readAll_plain (by decide), List.tail_cons]
    rfl
  · have none : beginsNegated (Glyph.readAll offset ([] ++ items)) = false := by
      rwa [← Bool.not_eq_true, beginsNegated_readAll]
    refine ⟨false, ?_⟩
    rw [none, if_neg Bool.false_ne_true]
    rfl

theorem beginsBracket (h : Caret caret items)
    (told : BracketBody.read (Glyph.readAll offset items) = .error .unterminated) :
    BeginsBracket (caret ++ items) := by
  obtain ⟨more, found, spelled, filled⟩ := BracketBody.exists_more told
  rcases h with rfl | ⟨rfl, plain⟩
  · exact ⟨more ++ [']'], '^' :: (items ++ more), true, found, [], by simp, .negated spelled filled⟩
  · cases items with
    | nil =>
      have one := SpellsItems.char (.plain (by decide) (by decide) : Denotes [']', '-'] ['a'] 'a') .nil
      exact ⟨['a', ']'], ['a'], false, _, [], rfl, .positive one nofun (by decide)⟩
    | cons c items =>
      exact ⟨more ++ [']'], c :: items ++ more, false, found, [], by simp,
        .positive spelled filled plain⟩

end Caret

/-- What is told of an expression shows that it is not spelled well. -/
theorem not_wellBracketed (told : read (Glyph.readAll offset cs) = .error flaw) : ¬ WellBracketed cs := by
  rintro ⟨inside, negated, items, rest, rfl, spelled⟩
  rw [read_of_spells spelled] at told
  cases told

theorem not_beginsBracket_of_closesAtOnce {after : List Char} (closes : ClosesAtOnce after) :
    ¬ BeginsBracket after := by
  rintro ⟨more, well⟩
  have closes_more : ClosesAtOnce (after ++ more) := by
    obtain ⟨rest, rfl | rfl⟩ := closes
    · exact ⟨rest ++ more, Or.inl rfl⟩
    · exact ⟨rest ++ more, Or.inr rfl⟩
  obtain ⟨stop, told⟩ := (@read_eq_empty_iff 0 (after ++ more)).mpr closes_more
  exact not_wellBracketed told well

/-- What is told of an expression is what is wrong with it, and the span shows what was read. -/
theorem misspelled {start length : Nat} (told : read (Glyph.readAll (start + '['.utf8Size) cs) = .error flaw)
    (whole : length = start + utf8Length ('[' :: cs)) :
    ∃ inside after wrong, cs = inside ++ after ∧ Misspelled inside after wrong ∧
      flaw.toSyntaxError start length = ⟨⟨start, start + utf8Length ('[' :: inside)⟩, wrong⟩ := by
  have broken := not_wellBracketed told
  obtain ⟨caret, items, rfl, front⟩ := exists_caret cs
  obtain ⟨negated, read_items⟩ := front.read_eq (start + '['.utf8Size)
  rw [read_items] at told
  have bytes : ∀ cs, start + '['.utf8Size + utf8Length caret + utf8Length cs =
      start + utf8Length ('[' :: (caret ++ cs)) := by
    intro cs
    rw [utf8Length_cons, utf8Length_append]
    omega
  rcases ofBody_eq_error told with told | ⟨body, found, none, rfl⟩
  · cases flaw with
    | unterminated =>
      have begins := front.beginsBracket told
      exact ⟨caret ++ items, [], _, (List.append_nil _).symm, .unterminated begins broken, by
        rw [whole]; rfl⟩
    | empty stop => exact absurd told (BracketBody.read_ne_empty _ _)
    | misplacedDash stop =>
      obtain ⟨before, c, after, rfl, stops, dash, lacks, same⟩ := BracketBody.exists_stuck told
      have front' := front
      rw [List.append_assoc] at front'
      refine ⟨caret ++ before ++ [c], after, _, by simp, .misplacedDash ?_ ?_ ?_, ?_⟩
      · exact front'.front.beginsBracket lacks
      · rintro ⟨more, well⟩
        obtain ⟨negated', read_more⟩ := (front.other (by simp) more).read_eq (start + '['.utf8Size)
        rw [same] at read_more
        exact not_wellBracketed read_more (by simpa using well)
      · refine dash.imp_right fun ⟨closing, items, split⟩ => ⟨closing, caret ++ items, ?_⟩
        rw [split, List.append_assoc]
      · rw [BracketFlaw.toSyntaxError, stops, bytes, List.append_assoc]
  · obtain ⟨inside, rest, rfl, spelled, stops, -⟩ := BracketBody.spelled found
    rw [none] at spelled
    cases spelled
    refine ⟨caret ++ [']'], rest, _, by simp, .empty ?_, ?_⟩
    · rcases front with rfl | ⟨rfl, -⟩
      · exact Or.inr rfl
      · exact Or.inl rfl
    · rw [BracketFlaw.toSyntaxError, stops, bytes]
      rfl

end Bracket

/-- Where the expression could still be continued, all that is left of the pattern was read. -/
theorem Misspelled.eq_nil {inside after : List Char} {flaw : Flaw} (h : Misspelled inside after flaw)
    (begins : BeginsBracket (inside ++ after)) : after = [] := by
  cases h with
  | unterminated => rfl
  | misplacedDash begins_before stuck =>
    obtain ⟨more, well⟩ := begins
    rw [List.append_assoc] at well
    exact absurd ⟨_, well⟩ stuck
  | empty nothing =>
    refine absurd begins (Bracket.not_beginsBracket_of_closesAtOnce ⟨after, ?_⟩)
    exact nothing.imp (congrArg (· ++ after)) (congrArg (· ++ after))

end CursorRegex
