import CursorRegex.Proofs.Pattern.Bracketed
import CursorRegex.Proofs.Program.Accounting
import CursorRegex.Search.Cursor

/-! # Which classes a program refers to

The leaves of a tree are the atoms among its tokens, in their order, and stacked quantifiers do not change
it (`Derives.atoms`, `Tree.Rearranged.atoms_eq`).  Assembling lays the atoms of a term down in the same
order in both directions; only links tell the directions apart.  So both halves of a program hold the atoms
of the pattern from first to last (`Program.atoms_of_compile`), and the k-th reference to a class is that of
the k-th bracket expression (`Program.compile_bracket`). -/
set_option autoImplicit false

namespace CursorRegex

/-! ## Leaves -/

def Kind.atom? : Kind → Option Atom
  | .atom a => some a
  | .openGroup _ | .closeGroup _ | .fork _ | .empty | .accept => none

def Tree.atoms : Tree → List Atom
  | .atom a => [a]
  | .group _ body => body.atoms
  | .repeated _ body => body.atoms
  | .sequence fst snd => fst.atoms ++ snd.atoms
  | .alternate fst snd => fst.atoms ++ snd.atoms

theorem Tree.Rearranged.atoms_eq {t u : Tree} (h : Rearranged t u) : t.atoms = u.atoms := by
  induction h with
  | refl => rfl
  | trans _ _ ih ih' => exact ih.trans ih'
  | swap => rfl
  | group _ _ ih => exact ih
  | repeated _ _ ih => exact ih
  | sequence _ _ ih ih' | alternate _ _ ih ih' => exact congrArg₂ (· ++ ·) ih ih'

theorem Derives.atoms {level : Level} {ts : List Token} {t : Tree} (h : Derives level ts t) :
    ts.filterMap (·.kind.atom?) = t.atoms := by
  induction h with
  | atom => rfl
  | single _ ih | repetition _ ih | concatenation _ ih => exact ih
  | @group ts t opening closing inner ih =>
    have inside : (ts ++ [Token.mk closing .closeParen]).filterMap (·.kind.atom?) = t.atoms := by
      rw [List.filterMap_append, ih]
      exact List.append_nil _
    exact inside
  | repeated _ _ _ ih =>
    rw [List.filterMap_append, ih]
    exact List.append_nil _
  | sequence _ _ ih ih' => rw [List.filterMap_append, ih, ih', Tree.atoms]
  | alternate _ _ _ ih ih' =>
    rw [List.filterMap_append, ih, List.filterMap_cons, TokenKind.atom?, ih', Tree.atoms]

theorem Term.atoms_code (e : Term) (dir : Direction) (lo : Nat) (next : Option Nat) :
    (e.code dir lo next).filterMap (·.kind.atom?) = e.tree.atoms := by
  induction e generalizing lo next with
  | atom a => rfl
  | group opening number body ih =>
    rw [code, List.filterMap_append, ih]
    exact List.append_nil _
  | repeated q body ih =>
    cases q with
    | star | plus =>
      rw [code, List.filterMap_append, ih]
      · exact List.append_nil _
      · simp
    | quest =>
      rw [code, List.filterMap_append, ih]
      exact List.append_nil _
  | sequence fst snd ih ih' =>
    cases dir with
    | forward | backward => rw [code, List.filterMap_append, ih, ih', tree, Tree.atoms]
  | alternate fst snd ih ih' =>
    rw [code, List.filterMap_append, List.filterMap_append, ih, ih', tree, Tree.atoms]
    exact congrArg _ (List.append_nil _)

theorem atoms_programCode (dir : Direction) (lo : Nat) (t : Option Tree) :
    (programCode dir lo (t.map (·.term 0))).filterMap (·.kind.atom?) =
      t.elim [] Tree.atoms := by
  cases t with
  | none => rfl
  | some t =>
    rw [Option.map_some, programCode, List.filterMap_append, Term.atoms_code,
      (t.rearranged_term 0).atoms_eq]
    exact List.append_nil _

/-! ## Both halves -/

namespace Program

variable {limits : Limits} {pattern : String} {p : Program}

def instructions (p : Program) : Direction → List Instruction
  | .forward => p.arena.insts.toList.take p.split
  | .backward => p.arena.insts.toList.drop p.split

def references (p : Program) (dir : Direction) : List (Nat × Bool) :=
  ((p.instructions dir).filterMap (·.kind.atom?)).filterMap Atom.reference?

theorem atoms_of_compile {tokens : Tokens} (read : Tokens.ofPattern pattern = .ok tokens)
    (compiled : compile limits pattern = .ok p) (dir : Direction) :
    (p.instructions dir).filterMap (·.kind.atom?) = tokens.list.filterMap (·.kind.atom?) := by
  have built := mapError_eq_ok.mp ((compile_eq limits read).symm.trans compiled)
  have refer := Tokens.refers_ofPattern read
  obtain ⟨o, kinds, yields, same, length, twice⟩ := Arena.bareKinds_of_compile refer built
  obtain ⟨t, found, rfl⟩ := read_of_yields yields
  have bare : ∀ insts : List Instruction,
      (insts.map (·.kind.bare)).filterMap Kind.atom? = insts.filterMap (·.kind.atom?) := by
    intro insts
    rw [List.filterMap_map]
    refine List.filterMap_congr fun inst _ => ?_
    cases kind : inst.kind <;> simp [kind, Kind.bare, Kind.atom?]
  have half : (p.instructions dir).map (·.kind.bare) = kinds := by
    have all : p.arena.insts.toList.map (·.kind.bare) = kinds ++ kinds := twice
    cases dir with
    | forward => rw [instructions, List.map_take, all, List.take_left' length]
    | backward => rw [instructions, List.map_drop, all, List.drop_left' length]
  have leaves : t.elim [] Tree.atoms = tokens.list.filterMap (·.kind.atom?) := by
    have parses := TreeReader.parses_of_read found
    cases t with
    | none =>
      have nothing : tokens.list = [] := parses
      rw [nothing]
      rfl
    | some t =>
      have derives : Derives .alternation tokens.list t := parses
      exact derives.atoms.symm
  calc (p.instructions dir).filterMap (·.kind.atom?)
    _ = kinds.filterMap Kind.atom? := by rw [← half, bare]
    _ = t.elim [] Tree.atoms := by rw [same, bare, atoms_programCode]
    _ = tokens.list.filterMap (·.kind.atom?) := leaves

/-- An opening bracket that is not escaped and not inside brackets, behind `k` bracket expressions, is
accepted if a bracket expression is spelled there.  Then both halves of the program have a reference to entry
`k` of the class table as their `k`-th, and what it takes is what the items say.  Else the error is told of
the expression, which is empty if it closes before any item, and malformed otherwise. -/
theorem compile_bracket (limits : Limits) {before after : List Char} {k : Nat}
    (here : pattern.toList = before ++ '[' :: after) (outside : EndsOutside k before) :
    (WellBracketed after ↔
      ∀ e, Tokens.ofPattern pattern = .error e → utf8Length before < e.span.start) ∧
    (¬ WellBracketed after → ∃ stop flaw,
      compile limits pattern = .error ⟨pattern, .illFormed ⟨⟨utf8Length before, stop⟩, flaw⟩⟩ ∧
      (ClosesAtOnce after → flaw = .emptyClass) ∧
      (¬ ClosesAtOnce after → flaw = .unterminatedClass ∨ flaw = .misplacedDash)) ∧
    ∀ inside negated items rest p, after = inside ++ ']' :: rest → SpellsInside inside negated items →
      compile limits pattern = .ok p →
        (∀ dir, (p.references dir)[k]? = some (k, negated)) ∧
        ∀ (cursor : Cursor) c, cursor.ahead = some c → ∃ taken,
          cursor.verdict p.classes (.set k negated) = .ok (Cursor.takeIf taken) ∧
            (taken = true ↔ if negated then c ≠ '\n' ∧ ¬ Covers items c else Covers items c) := by
  refine ⟨⟨?_, fun later => ?_⟩, fun broken => ?_, ?_⟩
  · rintro ⟨inside, negated, items, rest, rfl, spelled⟩
    exact (Tokens.ofPattern_of_spells here outside spelled).1
  · by_contra broken
    obtain ⟨stop, flaw, told, -⟩ := Tokens.ofPattern_of_not_spells here outside broken
    exact Nat.lt_irrefl _ (later _ told)
  · obtain ⟨stop, flaw, told, kind⟩ := Tokens.ofPattern_of_not_spells here outside broken
    refine ⟨stop, flaw, ?_, kind⟩
    rw [compile, told]
    rfl
  · rintro inside negated items rest p rfl spelled compiled
    obtain ⟨tokens, t, read, classes, -⟩ := exists_tree_of_compile compiled
    obtain ⟨entry, refers⟩ := (Tokens.ofPattern_of_spells here outside spelled).2 tokens read
    refine ⟨fun dir => ?_, fun cursor c ahead => ?_⟩
    · rw [references, atoms_of_compile read compiled]
      exact refers
    · refine ⟨(CharClass.ofItems negated items).accepts negated c, ?_,
        CharClass.accepts_ofItems negated items c⟩
      rw [Cursor.verdict, ahead, classes]
      simp only [ClassTable.accepts, ClassTable.ofList, List.getElem?_toArray, entry]
      rfl

/-- Behind an escaped bracket and a range that ends at a dash, the first caret negates and the second is an
item. -/
theorem compile_bracket_second_caret : ∃ p, compile {} "\\[[+--][^^]" = .ok p ∧
    (∀ dir, (p.references dir)[1]? = some (1, true)) ∧
    ∀ (cursor : Cursor) c, cursor.ahead = some c → ∃ taken,
      cursor.verdict p.classes (.set 1 true) = .ok (Cursor.takeIf taken) ∧
        (taken = true ↔ c ≠ '\n' ∧ ¬ Covers [.char '^'] c) := by
  have dash : SpellsInside ['+', '-', '-'] false [.range '+' '-'] :=
    .positive (.range (.plain (by decide) (by decide)) (.plain (by decide) (by decide)) .nil)
      (by decide) (by decide)
  have caret : SpellsInside ['^', '^'] true [.char '^'] :=
    .negated (.char (.plain (by decide) (by decide)) .nil) (by decide)
  have outside : EndsOutside 1 ['\\', '[', '[', '+', '-', '-', ']'] := .escaped (.bracket dash .nil)
  have here : "\\[[+--][^^]".toList = ['\\', '[', '[', '+', '-', '-', ']'] ++ '[' :: ['^', '^', ']'] := by
    decide +kernel
  have ends : (compile {} "\\[[+--][^^]").toBool = true := by decide +kernel
  cases compiled : compile {} "\\[[+--][^^]" with
  | error e =>
    rw [compiled] at ends
    cases ends
  | ok p =>
    obtain ⟨-, -, accepted⟩ := compile_bracket {} here outside
    exact ⟨p, rfl, accepted ['^', '^'] true _ [] p rfl caret compiled⟩

end Program

end CursorRegex
