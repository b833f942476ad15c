import CursorRegex.Proofs.Pattern.Shortfall
import CursorRegex.Proofs.Program.Admitted

/-! # What a pattern that does not compile is told

The steps of a pattern are carried out on fragments as they are on terms, so the operator that is first to
lack an operand ends the compilation (`Assembly.run_of_lacks`).  Where the parentheses balance and no limit
is hit, nothing else can (`exists_blames`).  The token that is blamed need not be the one whose operand is
missing: the operand of an enclosing group may have been taken in its place. -/
set_option autoImplicit false

namespace CursorRegex

namespace Assembly

variable {limits : Limits} {dir : Direction} {base : List Instruction} {ts : List Term} {s : Assembly}
  {a : Arena} {x : Polish (Option Pending)}

theorem Holds.apply_eq_error {p : Pending} (h : Holds dir base ts s) (lacking : p.eval ts = none) :
    s.apply limits dir p = .error (.illFormed p.missingOperand) := by
  have length := length_fragments dir base.length ts
  rw [← h.operands] at length
  obtain ⟨arena, operands⟩ := s
  obtain ⟨op, span, number⟩ := p
  dsimp only at length
  match op, ts, operands with
  | .group, [], [] | .quantify _, [], [] | .alternate, [], [] | .concat, [], [] => rfl
  | .alternate, [_], [_] | .concat, [_], [_] => rfl
  | .group, [], _ :: _ | .quantify _, [], _ :: _ | .alternate, [], _ :: _ | .concat, [], _ :: _ =>
    cases length
  | .alternate, [_], [] | .concat, [_], [] => cases length
  | .alternate, [_], _ :: _ :: _ | .concat, [_], _ :: _ :: _ => cases length
  | .group, _ :: _, _ | .quantify _, _ :: _, _ => cases lacking
  | .alternate, _ :: _ :: _, _ | .concat, _ :: _ :: _, _ => cases lacking

/-- The first operator that lacks an operand ends the assembly, if no limit does before. -/
theorem run_of_lacks (limits : Limits) (dir : Direction) (a : Arena) {blamed : Pending → Prop}
    (lacks : x.Lacks [] blamed) :
    ∃ cause, run limits dir x a = .error cause ∧
      (cause.isLimit = true ∨ ∃ p, blamed p ∧ cause = .illFormed p.missingOperand) := by
  obtain ⟨front, p, back, us, split, eval, lacking, is⟩ := lacks
  have attains : Attains _ (front.foldlM (step limits dir) ⟨a, []⟩) :=
    (holds_nil dir a).attains_steps eval
  unfold run
  rw [split, List.foldlM_append]
  cases steps : front.foldlM (step limits dir) ⟨a, []⟩ with
  | error cause =>
    rw [steps] at attains
    exact ⟨cause, rfl, Or.inl attains⟩
  | ok s =>
    rw [steps] at attains
    have stops : s.step limits dir (.apply p) = .error (.illFormed p.missingOperand) :=
      Holds.apply_eq_error attains lacking
    refine ⟨.illFormed p.missingOperand, ?_, Or.inr ⟨p, is, rfl⟩⟩
    change ((s.step limits dir (.apply p) >>= _) >>= _) = _
    rw [stops]
    rfl

/-- A reading that ends at a limit lets the assembly end at a limit. -/
theorem run_of_isLimit (limits : Limits) (dir : Direction) (a : Arena) {us : List Term} {cause : Cause}
    (eval : Step.evalAll [] x.steps = some us) (result : x.result = .error cause)
    (limit : cause.isLimit = true) :
    ∃ cause, run limits dir x a = .error cause ∧ cause.isLimit = true := by
  have attains : Attains _ (x.steps.foldlM (step limits dir) ⟨a, []⟩) :=
    (holds_nil dir a).attains_steps eval
  unfold run
  rw [result]
  cases steps : x.steps.foldlM (step limits dir) ⟨a, []⟩ with
  | error cause =>
    rw [steps] at attains
    exact ⟨cause, rfl, attains⟩
  | ok s => exact ⟨cause, rfl, limit⟩

end Assembly

namespace Program

variable {limits : Limits} {pattern : String}

theorem compile_eq_error {ts : List Token} {classes : List CharClass} {cause : Cause}
    (read : Tokens.ofPattern pattern = .ok ⟨ts, classes⟩)
    (stopped : Assembly.run limits .forward
      (Polish.ofTokens limits.stack pattern.utf8ByteSize ts) .nil = .error cause) :
    compile limits pattern = .error ⟨pattern, cause⟩ := by
  have unbuilt : ofTokens limits pattern.utf8ByteSize ⟨ts, classes⟩ = .error cause := by
    rw [ofTokens, build, stopped]
    rfl
  rw [compile_eq limits read, unbuilt]
  rfl

/-- Where the parentheses of a pattern balance and no limit is hit, an error names a token of the pattern
and what is true of it is `Blames`. -/
theorem exists_blames {ts : List Token} {classes : List CharClass} {e : CompileError}
    (spelled : Spells 0 0 pattern.toList ts classes) (balanced : Balanced ts)
    (roomy : ∀ e, compile limits pattern = .error e → e.cause.isLimit = false)
    (failed : compile limits pattern = .error e) :
    ∃ front t back flaw, ts = front ++ t :: back ∧ e = ⟨pattern, .illFormed ⟨t.span, flaw⟩⟩ ∧
      Blames front t back flaw := by
  have read := Tokens.ofPattern_eq_ok_iff.mpr spelled
  rcases Polish.meets_ofTokens limits.stack pattern.utf8ByteSize balanced with
    ⟨us, eval, ends⟩ | lacks
  · cases result : (Polish.ofTokens limits.stack pattern.utf8ByteSize ts).result with
    | error cause =>
      rw [result] at ends
      obtain ⟨cause', stopped, limit⟩ :=
        Assembly.run_of_isLimit limits .forward .nil eval result ends
      have full := roomy _ (compile_eq_error read stopped)
      rw [limit] at full
      cases full
    | ok joint =>
      rw [result] at ends
      obtain ⟨t, tree⟩ := exists_read ⟨result, eval⟩ ends
      have limit := isLimit_of_error read (TreeReader.parses_of_read tree) failed
      rw [roomy e failed] at limit
      cases limit
  · obtain ⟨cause, stopped, why⟩ := Assembly.run_of_lacks limits .forward .nil lacks
    have failed' := compile_eq_error read stopped
    cases failed.symm.trans failed'
    rcases why with limit | ⟨p, ⟨front, t, back, flaw, split, told, blames⟩, rfl⟩
    · have full := roomy _ failed
      rw [limit] at full
      cases full
    · exact ⟨front, t, back, flaw, split, by rw [told], blames⟩

/-- The bar in the group lacks an operand.  It takes that of the bar outside, and so that one is blamed. -/
theorem exists_blames_outer_bar : ∃ ts classes front t back flaw,
    Spells 0 0 "a|b(|c)".toList ts classes ∧ Balanced ts ∧ ts = front ++ t :: back ∧
      compile {} "a|b(|c)" = .error ⟨"a|b(|c)", .illFormed ⟨t.span, flaw⟩⟩ ∧ t.span = ⟨1, 2⟩ ∧
      Blames front t back flaw := by
  have read : Tokens.ofPattern "a|b(|c)" = .ok
      ⟨[⟨⟨0, 1⟩, .atom (.char 'a')⟩, ⟨⟨1, 2⟩, .bar⟩, ⟨⟨2, 3⟩, .atom (.char 'b')⟩,
        ⟨⟨3, 4⟩, .openParen⟩, ⟨⟨4, 5⟩, .bar⟩, ⟨⟨5, 6⟩, .atom (.char 'c')⟩,
        ⟨⟨6, 7⟩, .closeParen⟩], []⟩ := by decide +kernel
  have failed : compile {} "a|b(|c)" =
      .error ⟨"a|b(|c)", .illFormed ⟨⟨1, 2⟩, .missingOperand '|'⟩⟩ := by decide +kernel
  have spelled := Tokens.ofPattern_eq_ok_iff.mp read
  have balanced : Balanced
      [⟨⟨0, 1⟩, .atom (.char 'a')⟩, ⟨⟨1, 2⟩, .bar⟩, ⟨⟨2, 3⟩, .atom (.char 'b')⟩,
        ⟨⟨3, 4⟩, .openParen⟩, ⟨⟨4, 5⟩, .bar⟩, ⟨⟨5, 6⟩, .atom (.char 'c')⟩,
        ⟨⟨6, 7⟩, .closeParen⟩] := by decide
  have roomy : ∀ e, compile {} "a|b(|c)" = .error e → e.cause.isLimit = false := by
    intro e failed'
    cases failed.symm.trans failed'
    rfl
  obtain ⟨front, t, back, flaw, split, told, blames⟩ := exists_blames spelled balanced roomy failed
  have same : t.span = ⟨1, 2⟩ := by
    injection told with _ cause
    injection cause with error
    exact (congrArg SyntaxError.span error).symm
  exact ⟨_, _, front, t, back, flaw, spelled, balanced, split, told ▸ failed, same, blames⟩

/-- The empty group takes the operand in front of it.  The place where the two should meet is blamed, and
no operator. -/
theorem compile_empty_group_behind : ∃ ts classes,
    Spells 0 0 "a()".toList ts classes ∧ Balanced ts ∧
      compile {} "a()" = .error ⟨"a()", .illFormed ⟨⟨1, 2⟩, .malformed⟩⟩ := by
  have read : Tokens.ofPattern "a()" = .ok
      ⟨[⟨⟨0, 1⟩, .atom (.char 'a')⟩, ⟨⟨1, 2⟩, .openParen⟩, ⟨⟨2, 3⟩, .closeParen⟩], []⟩ := by
    decide +kernel
  exact ⟨_, _, Tokens.ofPattern_eq_ok_iff.mp read, by decide, by decide +kernel⟩

end Program

end CursorRegex
