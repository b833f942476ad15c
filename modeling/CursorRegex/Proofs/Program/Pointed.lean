import CursorRegex.Proofs.Pattern.Located
import CursorRegex.Proofs.Program.Faultless

/-! # Errors point at the pattern

A pattern is told to be ill-formed by the reading of its tokens, by the reading of its parentheses, or by
an operator that lacks an operand when fragments are assembled.  In each case the span of the error is one
that the text of the pattern gave, and the characters there show the flaw (`compile_points`). -/
set_option autoImplicit false

namespace CursorRegex

namespace Program

variable {limits : Limits} {pattern : String}

def Pointed (pattern : String) (cause : Cause) : Prop :=
  ∀ e, cause = .illFormed e → e.Shown pattern

theorem pointed_run {ts : List Token} {classes : List CharClass}
    (spelled : Spells 0 0 pattern.toList ts classes) (limits : Limits) (dir : Direction) (length : Nat)
    (a : Arena) : Concludes (Pointed pattern) (fun _ => True)
      (Assembly.run limits dir (Polish.ofTokens limits.stack length ts) a) := by
  have tells := Polish.tells_ofTokens limits.stack length ts
  refine Assembly.concludes_run_of_read dir a ?_ ?_ (tells.result.mono ?_ fun _ => id)
  · rintro cause limit e rfl
    cases limit
  · rintro p applied e same
    cases same
    exact (tells.applied p applied).shown spelled
  · intro cause odd e same
    exact (odd e same).shown spelled

theorem pointed_compile (limits : Limits) (pattern : String) :
    Concludes (fun e : CompileError => Pointed pattern e.cause) (fun _ => True)
      (compile limits pattern) := by
  cases read : Tokens.ofPattern pattern with
  | error flaw =>
    have failed : compile limits pattern = .error ⟨pattern, .illFormed flaw⟩ := by
      rw [compile, read]
      rfl
    rw [failed]
    intro e same
    cases same
    exact Tokens.shown_of_error read
  | ok tokens =>
    have spelled := Tokens.ofPattern_eq_ok_iff.mp read
    have built := concludes_of_runs (Tokens.refers_ofPattern read) fun dir a =>
      pointed_run spelled limits dir pattern.utf8ByteSize a
    rw [compile_eq limits read]
    cases result : ofTokens limits pattern.utf8ByteSize tokens with
    | ok p => trivial
    | error cause =>
      rw [result] at built
      exact built

/-- The span of an error that is told of the pattern lies in the pattern, between two of its characters
at both ends, and what stands there is what the error says. -/
theorem compile_points {e : SyntaxError} {error : CompileError}
    (failed : compile limits pattern = .error error) (told : error.cause = .illFormed e) :
    e.span.start ≤ e.span.stop ∧ e.span.stop ≤ pattern.utf8ByteSize ∧
      (String.Pos.Raw.mk e.span.start).IsValid pattern ∧
      (String.Pos.Raw.mk e.span.stop).IsValid pattern ∧ e.Shown pattern := by
  have pointed := pointed_compile limits pattern
  rw [failed] at pointed
  obtain ⟨before, text, after, cuts, shows⟩ := pointed e told
  exact ⟨cuts.start_le_stop, cuts.stop_le, cuts.isValid_start, cuts.isValid_stop, before, text, after,
    cuts, shows⟩

/-- The group behind the class is never closed.  The parenthesis in the class closes nothing, the escaped
one opens nothing, and the last group is closed.  The class takes five bytes for its four characters. -/
theorem compile_points_unclosed :
    compile {} "[é)](\\((a)" = .error ⟨"[é)](\\((a)", .illFormed ⟨⟨5, 6⟩, .unmatchedOpen⟩⟩ ∧
      5 ≤ 6 ∧ 6 ≤ "[é)](\\((a)".utf8ByteSize ∧ (String.Pos.Raw.mk 5).IsValid "[é)](\\((a)" ∧
      (String.Pos.Raw.mk 6).IsValid "[é)](\\((a)" ∧
      SyntaxError.Shown "[é)](\\((a)" ⟨⟨5, 6⟩, .unmatchedOpen⟩ := by
  have failed : compile {} "[é)](\\((a)" =
      .error ⟨"[é)](\\((a)", .illFormed ⟨⟨5, 6⟩, .unmatchedOpen⟩⟩ := by decide +kernel
  exact ⟨failed, compile_points failed rfl⟩

end Program

end CursorRegex
