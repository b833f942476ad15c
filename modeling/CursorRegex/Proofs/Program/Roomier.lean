import CursorRegex.Program.Basic
import CursorRegex.Proofs.Outcome

/-! # More room changes no outcome

Compiling under tight limits follows compiling under roomy ones step by step until a limit is exceeded.
`Agrees` says so of a computation, and is kept by sequencing (`Agrees.bind`); only `Arena.alloc` and
`Assembly.push` look at a limit there.

A reading that runs out of room has fewer steps, so there the two computations no longer take the same
steps.  What it has is the beginning of what the roomy reading has (`Polish.Agrees`), and assembling
comes to the end of that beginning before the missing room is reported (`Assembly.agrees_run`). -/
set_option autoImplicit false

namespace CursorRegex

/-- No limit on compiling is higher.  The room for threads plays no part in it. -/
structure Limits.Within (tight roomy : Limits) : Prop where
  instructions : tight.instructions ≤ roomy.instructions
  stack : tight.stack ≤ roomy.stack

/-- The causes that report a limit on compiling, each with its value. -/
inductive Limits.Exceeded (limits : Limits) : Cause → Prop where
  | instructions : Exceeded limits (.programTooLong limits.instructions)
  | operands : Exceeded limits (.operandOverflow limits.stack)
  | operators : Exceeded limits (.operatorOverflow limits.stack)

/-- The first computation ends as the second does, or exceeds the limits. -/
def Agrees {α : Type} (limits : Limits) (x y : Except Cause α) : Prop :=
  x = y ∨ ∃ cause, x = .error cause ∧ limits.Exceeded cause

namespace Agrees

variable {α β : Type} {limits : Limits} {x y : Except Cause α}

theorem refl (x : Except Cause α) : Agrees limits x x := Or.inl rfl

theorem exceeded {cause : Cause} (h : limits.Exceeded cause) : Agrees limits (.error cause) y :=
  Or.inr ⟨cause, rfl, h⟩

theorem bind {f g : α → Except Cause β} (h : Agrees limits x y)
    (next : ∀ a, Agrees limits (f a) (g a)) : Agrees limits (x >>= f) (y >>= g) := by
  rcases h with rfl | ⟨cause, rfl, exceeds⟩
  · cases x with
    | error cause => exact refl _
    | ok a => exact next a
  · exact exceeded exceeds

end Agrees

/-! ## Reading -/

def Polish.Agrees {α : Type} (limits : Limits) (x y : Polish α) : Prop :=
  x = y ∨ x.result = .error (.operatorOverflow limits.stack) ∧ x.steps <+: y.steps

namespace Polish.Agrees

variable {α β : Type} {limits : Limits} {x y : Polish α}

theorem refl (x : Polish α) : Agrees limits x x := Or.inl rfl

theorem andThen {f g : α → Polish β} (h : Agrees limits x y)
    (next : ∀ a, Agrees limits (f a) (g a)) : Agrees limits (x.andThen f) (y.andThen g) := by
  rcases h with rfl | ⟨full, before⟩
  · obtain ⟨steps, result⟩ := x
    cases result with
    | error cause => exact refl _
    | ok a =>
      rcases next a with same | ⟨full, before⟩
      · left
        simp only [Polish.andThen, same]
      · right
        exact ⟨full, (List.prefix_append_right_inj steps).mpr before⟩
  · right
    have goes_on : y.steps <+: (y.andThen g).steps := by
      obtain ⟨steps, result⟩ := y
      cases result with
      | error cause => exact List.prefix_rfl
      | ok a => exact List.prefix_append steps _
    obtain ⟨steps, result⟩ := x
    dsimp only at full before
    subst full
    exact ⟨rfl, before.trans goes_on⟩

end Polish.Agrees

section

variable {tight roomy : Limits} (within : tight.Within roomy)
include within

namespace Reader

theorem agrees_push (op : Operator) (span : Span) (r : Reader) :
    Polish.Agrees tight (r.push tight.stack op span) (r.push roomy.stack op span) := by
  unfold push
  by_cases full : tight.stack ≤ r.pending.length + 1
  · rw [if_pos full]
    exact Or.inr ⟨rfl, List.nil_prefix⟩
  · have room : ¬ roomy.stack ≤ r.pending.length + 1 := by
      have := within.stack
      omega
    rw [if_neg full, if_neg room]
    exact .refl _

theorem agrees_between (op : Operator) (span : Span) (r : Reader) :
    Polish.Agrees tight (r.between tight.stack op span) (r.between roomy.stack op span) :=
  (Polish.Agrees.refl _).andThen fun _ => agrees_push within op span _

theorem agrees_quantify (q : Quantifier) (span : Span) (r : Reader) :
    Polish.Agrees tight (r.quantify tight.stack q span) (r.quantify roomy.stack q span) :=
  (Polish.Agrees.refl _).andThen fun _ => agrees_push within (.quantify q) span _

theorem agrees_joined (span : Span) (r : Reader) :
    Polish.Agrees tight (r.joined tight.stack span) (r.joined roomy.stack span) := by
  unfold joined
  split
  · exact agrees_between within .concat span r
  · exact .refl _

theorem agrees_token (t : Token) (r : Reader) :
    Polish.Agrees tight (r.token tight.stack t) (r.token roomy.stack t) := by
  obtain ⟨span, kind⟩ := t
  cases kind with
  | atom a => exact (agrees_joined within span r).andThen fun _ => .refl _
  | quantifier q => exact agrees_quantify within q span r
  | bar => exact agrees_between within .alternate span r
  | openParen => exact (agrees_joined within span _).andThen fun _ => agrees_push within .group span _
  | closeParen => exact .refl _

theorem agrees_tokens (toks : List Token) (r : Reader) :
    Polish.Agrees tight (r.tokens tight.stack toks) (r.tokens roomy.stack toks) := by
  induction toks generalizing r with
  | nil => exact .refl _
  | cons t toks ih => exact (agrees_token within t r).andThen ih

theorem agrees_finish (span : Span) (r : Reader) :
    Polish.Agrees tight (r.finish tight.stack span) (r.finish roomy.stack span) := by
  unfold finish
  cases r.opened with
  | cons innermost outer => exact .refl _
  | nil =>
    refine (Polish.Agrees.refl _).andThen fun settled => ?_
    exact (agrees_joined within span settled).andThen fun _ => .refl _

end Reader

theorem Polish.agrees_ofTokens (length : Nat) (toks : List Token) :
    Polish.Agrees tight (ofTokens tight.stack length toks) (ofTokens roomy.stack length toks) :=
  (Reader.agrees_tokens within toks _).andThen fun r => Reader.agrees_finish within _ r

/-! ## Assembling -/

namespace Arena

theorem agrees_alloc (kind : Kind) (a : Arena) :
    Agrees tight (a.alloc tight.instructions kind) (a.alloc roomy.instructions kind) := by
  unfold alloc
  by_cases full : tight.instructions ≤ a.size
  · rw [if_pos full]
    exact .exceeded .instructions
  · have room : ¬ roomy.instructions ≤ a.size := by
      have := within.instructions
      omega
    rw [if_neg full, if_neg room]
    exact .refl _

theorem agrees_ofGroup (group : Option Nat) (body : Fragment) (a : Arena) :
    Agrees tight (a.ofGroup tight.instructions group body)
      (a.ofGroup roomy.instructions group body) := by
  refine (agrees_alloc within _ a).bind fun made => ?_
  refine (Agrees.refl _).bind fun a' => ?_
  exact (agrees_alloc within _ a').bind fun _ => .refl _

theorem agrees_ofAlternate (fst snd : Fragment) (a : Arena) :
    Agrees tight (a.ofAlternate tight.instructions fst snd)
      (a.ofAlternate roomy.instructions fst snd) := by
  refine (agrees_alloc within _ a).bind fun made => ?_
  refine (Agrees.refl _).bind fun a' => ?_
  refine (Agrees.refl _).bind fun a'' => ?_
  exact (agrees_alloc within _ a'').bind fun _ => .refl _

theorem agrees_ofQuantified (q : Quantifier) (body : Fragment) (a : Arena) :
    Agrees tight (a.ofQuantified tight.instructions q body)
      (a.ofQuantified roomy.instructions q body) := by
  refine (agrees_alloc within _ a).bind fun made => ?_
  cases q with
  | star | plus => exact .refl _
  | quest => exact (agrees_alloc within _ made.2).bind fun _ => .refl _

end Arena

namespace Assembly

theorem agrees_push (operands : List Fragment) (made : Fragment × Arena) :
    Agrees tight (push tight operands made) (push roomy operands made) := by
  obtain ⟨f, a⟩ := made
  simp only [push]
  by_cases full : tight.stack ≤ operands.length
  · rw [if_pos full]
    exact .exceeded .operands
  · have room : ¬ roomy.stack ≤ operands.length := by
      have := within.stack
      omega
    rw [if_neg full, if_neg room]
    exact .refl _

theorem agrees_pushSingle (kind : Kind) (s : Assembly) :
    Agrees tight (s.pushSingle tight kind) (s.pushSingle roomy kind) :=
  (Arena.agrees_alloc within kind s.arena).bind fun made =>
    agrees_push within s.operands (.single made.1, made.2)

theorem agrees_apply (dir : Direction) (p : Pending) (s : Assembly) :
    Agrees tight (s.apply tight dir p) (s.apply roomy dir p) := by
  obtain ⟨a, operands⟩ := s
  obtain ⟨op, span, number⟩ := p
  match op, operands with
  | .group, [] | .quantify _, [] | .alternate, [] | .concat, [] => exact .refl _
  | .alternate, [_] | .concat, [_] => exact .refl _
  | .group, body :: rest =>
    exact (Arena.agrees_ofGroup within number body a).bind (agrees_push within rest)
  | .quantify q, body :: rest =>
    exact (Arena.agrees_ofQuantified within q body a).bind (agrees_push within rest)
  | .alternate, snd :: fst :: rest =>
    exact (Arena.agrees_ofAlternate within fst snd a).bind (agrees_push within rest)
  | .concat, snd :: fst :: rest =>
    cases dir with
    | forward | backward => exact (Agrees.refl _).bind (agrees_push within rest)

theorem agrees_step (dir : Direction) (s : Assembly) (step : Step) :
    Agrees tight (s.step tight dir step) (s.step roomy dir step) := by
  cases step with
  | atom a => exact agrees_pushSingle within (.atom a) s
  | apply p => exact agrees_apply within dir p s

theorem agrees_steps (dir : Direction) (steps : List Step) (s : Assembly) :
    Agrees tight (steps.foldlM (Assembly.step tight dir) s)
      (steps.foldlM (Assembly.step roomy dir) s) := by
  induction steps generalizing s with
  | nil => exact .refl _
  | cons step steps ih =>
    rw [List.foldlM_cons, List.foldlM_cons]
    exact (agrees_step within dir s step).bind ih

theorem agrees_finish (joint : Option Pending) (s : Assembly) :
    Agrees tight (s.finish tight joint) (s.finish roomy joint) := by
  refine (agrees_pushSingle within .accept s).bind fun s' => ?_
  cases joint with
  | none => exact .refl _
  | some p => exact (agrees_apply within .forward p s').bind fun _ => .refl _

theorem agrees_run (dir : Direction) {x y : Polish (Option Pending)} (read : Polish.Agrees tight x y)
    (a : Arena) : Agrees tight (run tight dir x a) (run roomy dir y a) := by
  rcases read with rfl | ⟨full, more, longer⟩
  · refine (agrees_steps within dir x.steps _).bind fun s => ?_
    exact (Agrees.refl x.result).bind fun joint => agrees_finish within joint s
  · unfold run
    -- The roomy run has to take `more` steps, which the tight one never comes to.
    rw [← longer, List.foldlM_append, full, bind_assoc]
    exact (agrees_steps within dir x.steps _).bind fun s => .exceeded .operators

end Assembly

/-! ## Compiling -/

namespace Program

theorem agrees_build (dir : Direction) {x y : Polish (Option Pending)}
    (read : Polish.Agrees tight x y) (a : Arena) :
    Agrees tight (build tight dir x a) (build roomy dir y a) :=
  (Assembly.agrees_run within dir read a).bind fun _ => .refl _

theorem agrees_ofTokens (length : Nat) (tokens : Tokens) :
    Agrees tight (ofTokens tight length tokens) (ofTokens roomy length tokens) := by
  have read := Polish.agrees_ofTokens within length tokens.list
  refine (agrees_build within .forward read .nil).bind fun forward => ?_
  exact (agrees_build within .backward read forward.2).bind fun _ => .refl _

/-- Under tighter limits a pattern compiles to the same program or fails with the same error, unless
one of these limits is exceeded, and then that is the error. -/
theorem compile_eq_or_exceeded (pattern : String) :
    compile tight pattern = compile roomy pattern ∨
      ∃ cause, compile tight pattern = .error ⟨pattern, cause⟩ ∧
        (cause = .programTooLong tight.instructions ∨ cause = .operandOverflow tight.stack ∨
          cause = .operatorOverflow tight.stack) := by
  have agrees := (Agrees.refl ((Tokens.ofPattern pattern).mapError Cause.illFormed)).bind
    (agrees_ofTokens within pattern.utf8ByteSize)
  rcases agrees with same | ⟨cause, stopped, exceeds⟩
  · left
    exact congrArg (Except.mapError (CompileError.mk pattern)) same
  · right
    refine ⟨cause, congrArg (Except.mapError (CompileError.mk pattern)) stopped, ?_⟩
    cases exceeds with
    | instructions => exact Or.inl rfl
    | operands => exact Or.inr (Or.inl rfl)
    | operators => exact Or.inr (Or.inr rfl)

end Program

end

/-- With four places the operator stack is full before the second parenthesis, which nothing closes, is
on it; with five the missing parenthesis comes to light. -/
theorem Program.compile_eq_or_exceeded_unclosed :
    compile { stack := 4 } "a(b(" = .error ⟨"a(b(", .operatorOverflow 4⟩ ∧
      compile { stack := 5 } "a(b(" = compile {} "a(b(" ∧
      compile {} "a(b(" = .error ⟨"a(b(", .illFormed ⟨⟨3, 4⟩, .unmatchedOpen⟩⟩ := by
  have unclosed : compile {} "a(b(" = .error ⟨"a(b(", .illFormed ⟨⟨3, 4⟩, .unmatchedOpen⟩⟩ := by
    decide +kernel
  have four : Limits.Within { stack := 4 } {} := ⟨by decide, by decide⟩
  have five : Limits.Within { stack := 5 } {} := ⟨by decide, by decide⟩
  refine ⟨?_, ?_, unclosed⟩
  · rcases compile_eq_or_exceeded four "a(b(" with same | ⟨cause, stopped, which⟩
    · exact absurd (same.trans unclosed) (by decide +kernel)
    · rw [stopped]
      rcases which with rfl | rfl | rfl
      · exact absurd stopped (by decide +kernel)
      · exact absurd stopped (by decide +kernel)
      · rfl
  · rcases compile_eq_or_exceeded five "a(b(" with same | ⟨cause, stopped, which⟩
    · exact same
    · rcases which with rfl | rfl | rfl <;> exact absurd stopped (by decide +kernel)

end CursorRegex
