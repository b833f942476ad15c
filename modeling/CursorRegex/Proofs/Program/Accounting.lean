import CursorRegex.Proofs.Program.Admitted
import CursorRegex.Proofs.Program.Growth
import CursorRegex.Proofs.Program.Halves

/-! # What a program costs

Both halves of a program have as many instructions as the tokens of its pattern bring, and one more
(`Token.programSize`), and hold the same kinds of instructions in the same places, up to where forks
lead (`Arena.bareKinds_of_compile`).  So the limit on instructions is exact: a pattern that has a tree
compiles if and only if twice that number is within it (`compiles_iff_fits`). -/
set_option autoImplicit false

namespace CursorRegex

def Token.programSize (toks : List Token) : Nat := totalSize toks + 1

/-! ## Kinds of instructions -/

def Kind.bare : Kind → Kind
  | .fork _ => .fork 0
  | kind => kind

/-- Links and the targets of forks are all that direction and place have an influence on. -/
theorem Term.bare_code (e : Term) (dir dir' : Direction) (lo lo' : Nat) (next next' : Option Nat) :
    (e.code dir lo next).map (·.kind.bare) = (e.code dir' lo' next').map (·.kind.bare) := by
  induction e generalizing lo lo' next next' with
  | atom a => rfl
  | group opening number body ih =>
    simp only [code, List.map_append, ih lo lo' _ (some (lo' + body.size))]
    rfl
  | repeated q body ih =>
    cases q with
    | star | plus =>
      simp only [code, List.map_append, ih lo lo' _ (some (lo' + body.size))]
      rfl
    | quest =>
      simp only [code, List.map_append, ih lo lo' _ (some (lo' + body.size + 1))]
      rfl
  | sequence fst snd ih ih' =>
    cases dir <;> cases dir' <;> simp only [code, List.map_append] <;>
      exact congrArg₂ (· ++ ·) (ih _ _ _ _) (ih' _ _ _ _)
  | alternate fst snd ih ih' =>
    simp only [code, List.map_append]
    exact congrArg₂ (· ++ ·) (ih _ _ _ _) (congrArg₂ (· ++ ·) (ih' _ _ _ _) rfl)

theorem bare_programCode (o : Option Term) (dir dir' : Direction) (lo lo' : Nat) :
    (programCode dir lo o).map (·.kind.bare) = (programCode dir' lo' o).map (·.kind.bare) := by
  cases o with
  | none => rfl
  | some e =>
    simp only [programCode, List.map_append]
    exact congrArg₂ (· ++ ·) (e.bare_code dir dir' lo lo' _ _) rfl

namespace Arena

def bareKinds (a : Arena) : List Kind := a.insts.toList.map (·.kind.bare)

theorem length_bareKinds (a : Arena) : a.bareKinds.length = a.size := by
  rw [bareKinds, List.length_map, Array.length_toList]
  rfl

theorem getElem?_bareKinds (a : Arena) (i : Nat) :
    a.bareKinds[i]? = (a.get? i).map (·.kind.bare) := by
  rw [bareKinds, List.getElem?_map, Array.getElem?_toList]
  rfl

theorem Shortens.bareKinds {start : Nat} {classes : ClassTable} {a a' : Arena} (h : a.Shortens start a')
    (closed : a.Closed classes) : a'.bareKinds = a.bareKinds := by
  refine List.ext_getElem? fun i => ?_
  rw [getElem?_bareKinds, getElem?_bareKinds]
  cases here' : a'.get? i with
  | none =>
    have above : a'.size ≤ i := Array.getElem?_eq_none_iff.mp here'
    rw [h.size] at above
    rw [get?, Array.getElem?_eq_none_iff.mpr above]
  | some inst =>
    obtain ⟨next, here, -⟩ := h.same_kind closed here'
    rw [here]
    rfl

theorem bareKinds_of_compile {limits : Limits} {length : Nat} {tokens : Tokens} {p : Program}
    (refer : Tokens.Refer (.ofList tokens.classes) tokens.list)
    (h : Program.ofTokens limits length tokens = .ok p) :
    ∃ o kinds, (Polish.ofTokens limits.stack length tokens.list).Yields o ∧
      kinds = (programCode .forward 0 o).map (·.kind.bare) ∧ kinds.length = p.split ∧
      p.arena.bareKinds = kinds ++ kinds := by
  obtain ⟨⟨forward, a⟩, first, h⟩ := bind_eq_ok.mp h
  obtain ⟨⟨backward, a'⟩, second, h⟩ := bind_eq_ok.mp h
  cases h
  obtain ⟨-, -, -, -, closed, -⟩ := Program.build_eq_ok (Arena.closed_nil _) refer first
  obtain ⟨o, raw, yields, -, insts, raw_closed, shortens⟩ :=
    Program.exists_shortens_of_build (Arena.closed_nil _) refer first
  obtain ⟨o', raw', yields', -, insts', raw_closed', shortens'⟩ :=
    Program.exists_shortens_of_build closed refer second
  cases yields.unique yields'
  have front : a.bareKinds = (programCode .forward 0 o).map (·.kind.bare) := by
    rw [shortens.bareKinds raw_closed, bareKinds, insts]
    rfl
  refine ⟨o, a.bareKinds, yields, front, a.length_bareKinds, ?_⟩
  calc a'.bareKinds = raw'.bareKinds := shortens'.bareKinds raw_closed'
    _ = a.bareKinds ++ (programCode .backward a.size o).map (·.kind.bare) := by
      rw [bareKinds, insts', List.map_append]
      rfl
    _ = a.bareKinds ++ a.bareKinds := by
      rw [bare_programCode o .backward .forward a.size 0, ← front]

end Arena

/-! ## The limit on instructions -/

namespace Program

variable {limits : Limits} {pattern : String}

theorem sized_ofTokens (limits : Limits) (length : Nat) (tokens : Tokens) :
    Sized limits.instructions (fun p : Program => p.arena.size) (2 * Token.programSize tokens.list)
      (ofTokens limits length tokens) := by
  have first : Sized limits.instructions (fun made : Nat × Arena => made.2.size)
      (Token.programSize tokens.list)
      (build limits .forward (Polish.ofTokens limits.stack length tokens.list) .nil) := by
    have sized := sized_build (Nat.zero_le limits.instructions) (a := .nil) .forward length tokens.list
    rwa [show Arena.nil.size = 0 from rfl, Nat.zero_add] at sized
  refine first.bind (by omega) fun made size fits => ?_
  rw [← size] at fits
  have second := sized_build fits .backward length tokens.list
  have both : made.2.size + Token.totalSize tokens.list + 1 = 2 * Token.programSize tokens.list := by
    rw [size, Token.programSize]
    omega
  rw [both] at second
  exact second.bind (Nat.le_refl _) fun made' size' fits' => ⟨size', fits'⟩

theorem split_of_ofTokens {length : Nat} {tokens : Tokens} {p : Program}
    (h : ofTokens limits length tokens = .ok p) : p.split = Token.programSize tokens.list := by
  obtain ⟨⟨forward, a⟩, first, h⟩ := bind_eq_ok.mp h
  obtain ⟨⟨backward, a'⟩, second, h⟩ := bind_eq_ok.mp h
  cases h
  have sized := sized_build (Nat.zero_le limits.instructions) (a := .nil) .forward length tokens.list
  rw [first] at sized
  exact sized.1.trans (congrArg (· + 1) (Nat.zero_add _))

/-- Once the program for one direction is there, only the limit on instructions can keep the other from
being built. -/
theorem build_backward {length : Nat} {classes : ClassTable} {toks : List Token} {made : Nat × Arena}
    (refer : Tokens.Refer classes toks)
    (h : build limits .forward (Polish.ofTokens limits.stack length toks) .nil = .ok made) :
    (∃ made', build limits .backward (Polish.ofTokens limits.stack length toks) made.2 = .ok made') ∨
      build limits .backward (Polish.ofTokens limits.stack length toks) made.2 =
        .error (.programTooLong limits.instructions) := by
  obtain ⟨entry, a⟩ := made
  obtain ⟨o, yields, -, -, closed, -⟩ := build_eq_ok (Arena.closed_nil _) refer h
  obtain ⟨t, read, -⟩ := read_of_yields yields
  have sized := sized_build (Nat.zero_le limits.instructions) (a := .nil) .forward length toks
  rw [h] at sized
  have fits : a.size ≤ limits.instructions := sized.1.trans_le sized.2
  have level : Concludes (fun cause => cause.isOverflow = false) (fun _ => True)
      (build limits .backward (Polish.ofTokens limits.stack length toks) a) := by
    obtain ⟨made, run, -⟩ := bind_eq_ok.mp h
    refine (Assembly.level_run (Nat.zero_le _) fits .backward run).bind ?_
    intro made' _
    dsimp only
    split
    · trivial
    · rfl
  have attains : Attains _ (build limits .backward (Polish.ofTokens limits.stack length toks) a) :=
    attains_build closed refer read
  have sized' := sized_build fits .backward length toks
  dsimp only
  cases built : build limits .backward (Polish.ofTokens limits.stack length toks) a with
  | ok made' => exact Or.inl ⟨made', rfl⟩
  | error cause =>
    right
    rw [built] at level attains sized'
    cases cause with
    | programTooLong l =>
      obtain ⟨rfl, -⟩ := sized' l rfl
      rfl
    | operandOverflow | operatorOverflow => cases level
    | illFormed | internal => cases attains

/-- Where the stacks have room, the limit on instructions decides. -/
theorem compiles_or_tooLong {tokens : Tokens} {t : Option Tree}
    (read : Tokens.ofPattern pattern = .ok tokens) (parses : Parses tokens.list t)
    (roomy : ∀ e, compile limits pattern = .error e → e.cause.isOverflow = false) :
    (∃ p, compile limits pattern = .ok p ∧
        2 * Token.programSize tokens.list ≤ limits.instructions) ∨
      (compile limits pattern = .error ⟨pattern, .programTooLong limits.instructions⟩ ∧
        limits.instructions < 2 * Token.programSize tokens.list) := by
  have result := compile_eq limits read
  have sized := sized_ofTokens limits pattern.utf8ByteSize tokens
  cases built : ofTokens limits pattern.utf8ByteSize tokens with
  | ok p =>
    rw [built] at sized result
    exact Or.inl ⟨p, result, sized.2⟩
  | error cause =>
    rw [built] at sized result
    have limit := isLimit_of_error read parses result
    have room := roomy _ result
    cases cause with
    | programTooLong l =>
      obtain ⟨rfl, above⟩ := sized l rfl
      exact Or.inr ⟨result, above⟩
    | operandOverflow | operatorOverflow => cases room
    | illFormed | internal => cases limit

theorem halves_of_compile {tokens : Tokens} {p : Program}
    (read : Tokens.ofPattern pattern = .ok tokens) (compiled : compile limits pattern = .ok p) :
    p.split = Token.programSize tokens.list ∧ p.arena.size = 2 * Token.programSize tokens.list ∧
      ∀ i < Token.programSize tokens.list, ∃ inst inst', p.arena.get? i = some inst ∧
        p.arena.get? (Token.programSize tokens.list + i) = some inst' ∧
        inst.kind.bare = inst'.kind.bare := by
  have built := mapError_eq_ok.mp ((compile_eq limits read).symm.trans compiled)
  have refer := Tokens.refers_ofPattern read
  have sized := sized_ofTokens limits pattern.utf8ByteSize tokens
  rw [built] at sized
  have size : p.arena.size = 2 * Token.programSize tokens.list := sized.1
  have split : p.split = Token.programSize tokens.list := split_of_ofTokens built
  obtain ⟨-, kinds, -, -, length, twice⟩ := Arena.bareKinds_of_compile refer built
  rw [split] at length
  refine ⟨split, size, fun i inside => ?_⟩
  obtain ⟨inst, here⟩ := Arena.exists_get? (show i < p.arena.size by omega)
  obtain ⟨inst', here'⟩ :=
    Arena.exists_get? (show Token.programSize tokens.list + i < p.arena.size by omega)
  refine ⟨inst, inst', here, here', ?_⟩
  have kind := p.arena.getElem?_bareKinds i
  have kind' := p.arena.getElem?_bareKinds (Token.programSize tokens.list + i)
  rw [here, twice, List.getElem?_append_left (by omega)] at kind
  rw [here', twice, List.getElem?_append_right (by omega), length, Nat.add_sub_cancel_left,
    kind] at kind'
  exact Option.some.inj kind'

/-- A pattern with a tree compiles, as far as the stacks have room for it, if and only if its two programs
are within the limit on instructions; else that limit is what is reported.  Each half holds the
instructions that the tokens bring and the accepting one, the forward half first, and instruction for
instruction they are of one kind. -/
theorem compiles_iff_fits {ts : List Token} {classes : List CharClass} {t : Option Tree}
    (spelled : Spells 0 0 pattern.toList ts classes) (parses : Parses ts t)
    (roomy : ∀ e, compile limits pattern = .error e → e.cause.isOverflow = false) :
    ((∃ p, compile limits pattern = .ok p) ↔ 2 * Token.programSize ts ≤ limits.instructions) ∧
      (limits.instructions < 2 * Token.programSize ts →
        compile limits pattern = .error ⟨pattern, .programTooLong limits.instructions⟩) ∧
      (∀ p, compile limits pattern = .ok p →
        p.split = Token.programSize ts ∧ p.arena.size = 2 * Token.programSize ts ∧
        (∃ accepting, p.arena.SelfContained (.Ico 0 (Token.programSize ts)) p.forward accepting) ∧
        (∃ accepting, p.arena.SelfContained
          (.Ico (Token.programSize ts) (2 * Token.programSize ts)) p.backward accepting) ∧
        ∀ i < Token.programSize ts, ∃ inst inst', p.arena.get? i = some inst ∧
          p.arena.get? (Token.programSize ts + i) = some inst' ∧
          inst.kind.bare = inst'.kind.bare) ∧
      ∀ (limits' : Limits) made,
        build limits' .forward (Polish.ofTokens limits'.stack pattern.utf8ByteSize ts) .nil =
          .ok made →
        (∃ made', build limits' .backward (Polish.ofTokens limits'.stack pattern.utf8ByteSize ts)
          made.2 = .ok made') ∨
        build limits' .backward (Polish.ofTokens limits'.stack pattern.utf8ByteSize ts) made.2 =
          .error (.programTooLong limits'.instructions) := by
  have read := Tokens.ofPattern_eq_ok_iff.mpr spelled
  have refer := Tokens.refers_ofPattern read
  have outcome := compiles_or_tooLong read parses roomy
  refine ⟨⟨?_, fun fits => ?_⟩, fun above => ?_, fun p compiled => ?_, fun limits' made =>
    build_backward refer⟩
  · rintro ⟨p, compiled⟩
    rcases outcome with ⟨-, -, fits⟩ | ⟨failed, -⟩
    · exact fits
    · cases compiled.symm.trans failed
  · rcases outcome with ⟨p, compiled, -⟩ | ⟨-, above⟩
    · exact ⟨p, compiled⟩
    · exact absurd fits (Nat.not_le.mpr above)
  · rcases outcome with ⟨-, -, fits⟩ | ⟨failed, -⟩
    · exact absurd fits (Nat.not_le.mpr above)
    · exact failed
  · obtain ⟨split, size, kinds⟩ := halves_of_compile read compiled
    obtain ⟨-, halves⟩ := exists_selfContained compiled
    have front := halves .forward
    have back := halves .backward
    rw [half, split] at front
    rw [half, split, size] at back
    exact ⟨split, size, front, back, kinds⟩

/-- With room for 18 instructions the pattern compiles; with room for 17 the forward half is there, and
the backward half has one instruction too many. -/
theorem compiles_iff_fits_boundary :
    (∃ p, compile { instructions := 18 } "(a|b)?" = .ok p ∧ p.split = 9 ∧ p.arena.size = 18) ∧
      compile { instructions := 17 } "(a|b)?" = .error ⟨"(a|b)?", .programTooLong 17⟩ := by
  have read : Tokens.ofPattern "(a|b)?" = .ok
      ⟨[⟨⟨0, 1⟩, .openParen⟩, ⟨⟨1, 2⟩, .atom (.char 'a')⟩, ⟨⟨2, 3⟩, .bar⟩,
        ⟨⟨3, 4⟩, .atom (.char 'b')⟩, ⟨⟨4, 5⟩, .closeParen⟩, ⟨⟨5, 6⟩, .quantifier .quest⟩], []⟩ := by
    decide +kernel
  have parses : Parses
      [⟨⟨0, 1⟩, .openParen⟩, ⟨⟨1, 2⟩, .atom (.char 'a')⟩, ⟨⟨2, 3⟩, .bar⟩,
        ⟨⟨3, 4⟩, .atom (.char 'b')⟩, ⟨⟨4, 5⟩, .closeParen⟩, ⟨⟨5, 6⟩, .quantifier .quest⟩]
      (some (.repeated .quest
        (.group ⟨0, 1⟩ (.alternate (.atom (.char 'a')) (.atom (.char 'b')))))) :=
    TreeReader.parses_of_read (by decide +kernel)
  have spelled := Tokens.ofPattern_eq_ok_iff.mp read
  have roomy : ∀ l ∈ [17, 18], ∀ e, compile { instructions := l } "(a|b)?" = .error e →
      e.cause.isOverflow = false := by
    intro l member e failed
    have outcome : ∀ l ∈ [17, 18], (match compile { instructions := l } "(a|b)?" with
        | .ok _ => false
        | .error e => e.cause.isOverflow) = false := by decide +kernel
    have here := outcome l member
    rw [failed] at here
    exact here
  constructor
  · obtain ⟨accepts, -, halves, -⟩ := compiles_iff_fits spelled parses (roomy 18 (by decide))
    obtain ⟨p, compiled⟩ := accepts.mpr (by decide)
    obtain ⟨split, size, -⟩ := halves p compiled
    exact ⟨p, compiled, split, size⟩
  · obtain ⟨-, rejects, -⟩ := compiles_iff_fits spelled parses (roomy 17 (by decide))
    exact rejects (by decide)

end Program

end CursorRegex
