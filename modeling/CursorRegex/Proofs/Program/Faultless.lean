import CursorRegex.Proofs.Pattern.Tiers
import CursorRegex.Proofs.Program.Blamed

/-! # Compiling raises no fault

Whatever the pattern is and however narrow the limits are, compiling ends with a program or with a cause
that is told of the pattern or of a limit.  Reading finds the group that a parenthesis closes, since as many
groups wait as are open (`Polish.concludes_ofTokens`).  Assembling finds the instructions it links, since
the fragments on the stack lie in the arena, and lacks nothing but operands (`Holds.concludes_steps`).
Where it gets to the end no operand was missing, and the count of operands leaves one fragment
(`GetsTo.one_left`).
-/
set_option autoImplicit false

namespace CursorRegex

/-- The cause is a limit or the pattern, and no fault of compiling. -/
def Cause.Told (cause : Cause) : Prop := ∀ fault, cause ≠ .internal fault

theorem Cause.told_of_isLimit {cause : Cause} (limit : cause.isLimit = true) : cause.Told := by
  rintro fault rfl
  cases limit

theorem Reader.Refuses.told {limit depth : Nat} {cause : Cause} (h : Reader.Refuses limit depth cause) :
    cause.Told := by
  cases h with
  | full small => exact nofun
  | illFormed e => exact nofun

/-! ## Reading -/

namespace Polish

variable {toks : List Token} {joint : Option Pending} {us : List Term}

theorem Lacks.evalAll_eq_none {α : Type} {x : Polish α} {ts : List Term} {blamed : Pending → Prop}
    (h : x.Lacks ts blamed) : Step.evalAll ts x.steps = none := by
  obtain ⟨front, p, back, us, split, eval, lacking, -⟩ := h
  rw [split, Step.evalAll_append, eval, Option.bind_some, Step.evalAll_cons, Step.eval, lacking,
    Option.bind_none]

theorem length_of_settles {limit length : Nat} (h : (ofTokens limit length toks).Settles [] joint us) :
    us.length = joint.isSome.toNat := by
  have balanced := concludes_ofTokens limit length (opensAtMost_countP toks)
  rw [h.1] at balanced
  rcases meets_ofTokens limit length balanced with proceeds | lacks
  · exact proceeds.of_settles h
  · have stops := lacks.evalAll_eq_none
    rw [h.2] at stops
    cases stops

end Polish

/-! ## Assembling -/

namespace Assembly

variable {limits : Limits} {dir : Direction} {base : List Instruction} {ts : List Term} {s s' : Assembly}
  {a : Arena} {toks : List Token} {length : Nat}

/-- Carrying out steps ends at a limit, or at an operator among them that lacks an operand. -/
theorem Holds.concludes_steps (h : Holds dir base ts s) (limits : Limits) (steps : List Step) :
    Concludes (fun cause => cause.isLimit = true ∨
        ∃ p, .apply p ∈ steps ∧ cause = .illFormed p.missingOperand)
      (fun s' => ∃ us, Holds dir base us s') (steps.foldlM (Assembly.step limits dir) s) := by
  induction steps generalizing s ts with
  | nil => exact ⟨ts, h⟩
  | cons step steps ih =>
    rw [List.foldlM_cons]
    cases eval : step.eval ts with
    | some us =>
      refine ((attains_iff.mp (h.attains_step eval)).mono (fun _ => Or.inl) fun _ => id).bind ?_
      intro s₁ holds
      refine (ih holds).mono (fun cause => Or.imp_right ?_) fun _ => id
      rintro ⟨p, member, told⟩
      exact ⟨p, List.mem_cons_of_mem step member, told⟩
    | none =>
      cases step with
      | atom a => cases eval
      | apply p =>
        have stops : s.step limits dir (.apply p) = .error (.illFormed p.missingOperand) :=
          h.apply_eq_error eval
        rw [stops]
        exact Or.inr ⟨p, List.mem_cons_self, rfl⟩

def GetsTo (limits : Limits) (dir : Direction) (x : Polish (Option Pending)) (a : Arena)
    (s' : Assembly) : Prop :=
  ∃ s joint, x.steps.foldlM (step limits dir) ⟨a, []⟩ = .ok s ∧ x.result = .ok joint ∧
    s.ended limits joint = .ok s'

theorem attains_ended {joint : Option Pending}
    (steps : (Polish.ofTokens limits.stack length toks).steps.foldlM (step limits dir) ⟨a, []⟩ = .ok s)
    (result : (Polish.ofTokens limits.stack length toks).result = .ok joint) :
    Attains (fun s' => ∃ f, s'.operands = [f]) (s.ended limits joint) := by
  obtain ⟨us, eval, holds⟩ := (holds_nil dir a).steps steps
  have settles : (Polish.ofTokens limits.stack length toks).Settles [] joint us := ⟨result, eval⟩
  refine holds.attains_ended (Polish.length_of_settles settles) fun p is => ?_
  cases is
  exact ofTokens_joint settles

theorem GetsTo.one_left (h : GetsTo limits dir (Polish.ofTokens limits.stack length toks) a s') :
    ∃ f, s'.operands = [f] := by
  obtain ⟨s, joint, steps, result, ended⟩ := h
  have attains := attains_ended steps result
  rw [ended] at attains
  exact attains

/-- Assembling fails as the reading does, at a limit, or at an operator that lacks an operand. -/
theorem concludes_run_of_read {failed : Cause → Prop} (dir : Direction) (a : Arena)
    (full : ∀ cause, cause.isLimit = true → failed cause)
    (lacking : ∀ p, .apply p ∈ (Polish.ofTokens limits.stack length toks).steps →
      failed (.illFormed p.missingOperand))
    (read : Concludes failed (fun _ => True) (Polish.ofTokens limits.stack length toks).result) :
    Concludes failed (fun _ => True)
      (run limits dir (Polish.ofTokens limits.stack length toks) a) := by
  have assembled := (holds_nil dir a).concludes_steps limits (Polish.ofTokens limits.stack length toks).steps
  have steps : Concludes failed (fun _ => True)
      ((Polish.ofTokens limits.stack length toks).steps.foldlM (step limits dir) ⟨a, []⟩) := by
    refine assembled.mono ?_ fun _ _ => trivial
    rintro cause (limit | ⟨p, applied, rfl⟩)
    · exact full cause limit
    · exact lacking p applied
  refine (steps.of_ok fun s steps => steps).bind fun s steps => ?_
  refine (read.of_ok fun joint result => result).bind fun joint result => ?_
  rw [finish_eq]
  refine ((attains_iff.mp (attains_ended steps result)).mono full fun _ => id).bind ?_
  rintro s' ⟨f, one⟩
  rw [one]
  trivial

theorem told_run (limits : Limits) (dir : Direction) (length : Nat) (toks : List Token) (a : Arena) :
    Concludes Cause.Told (fun _ => True)
      (run limits dir (Polish.ofTokens limits.stack length toks) a) := by
  have read := Polish.concludes_ofTokens limits.stack length (opensAtMost_countP toks)
  exact concludes_run_of_read dir a (fun _ => Cause.told_of_isLimit) (fun _ _ => nofun)
    (read.mono (fun _ => Reader.Refuses.told) fun _ _ => trivial)

end Assembly

/-! ## Compiling -/

namespace Program

/-- Both directions are assembled in turn, and nothing else can fail. -/
theorem concludes_of_runs {failed : Cause → Prop} {limits : Limits} {length : Nat} {tokens : Tokens}
    (refer : Tokens.Refer (.ofList tokens.classes) tokens.list)
    (runs : ∀ dir a, Concludes failed (fun _ => True)
      (Assembly.run limits dir (Polish.ofTokens limits.stack length tokens.list) a)) :
    Concludes failed (fun _ => True) (ofTokens limits length tokens) := by
  refine (concludes_closed_build (Arena.closed_nil _) refer (runs .forward .nil)).bind ?_
  rintro ⟨forward, a⟩ closed
  exact (concludes_closed_build closed refer (runs .backward a)).bind fun _ _ => trivial

theorem told_ofTokens {tokens : Tokens} (limits : Limits) (length : Nat)
    (refer : Tokens.Refer (.ofList tokens.classes) tokens.list) :
    Concludes Cause.Told (fun _ => True) (ofTokens limits length tokens) :=
  concludes_of_runs refer fun dir a => Assembly.told_run limits dir length tokens.list a

/-- Compiling has a defined outcome for every pattern and all limits.  On the way as many groups wait as
are open, after each of the tokens, and where assembling gets to its end one fragment is left, in both
directions. -/
theorem compile_defined (limits : Limits) (pattern : String) :
    ((∃ p, compile limits pattern = .ok p) ∨
      ∃ cause, compile limits pattern = .error ⟨pattern, cause⟩ ∧ cause.Told) ∧
    ∀ tokens, Tokens.ofPattern pattern = .ok tokens →
      (∀ front back r, tokens.list = front ++ back →
        (Reader.start.tokens limits.stack front).result = .ok r →
          r.opened.length = r.pending.countP (·.op = .group)) ∧
      ∀ dir a s', Assembly.GetsTo limits dir
          (Polish.ofTokens limits.stack pattern.utf8ByteSize tokens.list) a s' →
        ∃ f, s'.operands = [f] := by
  refine ⟨?_, fun tokens read => ⟨fun front back r split reads => ?_, fun dir a s' => ?_⟩⟩
  · cases read : Tokens.ofPattern pattern with
    | error flaw =>
      refine Or.inr ⟨.illFormed flaw, ?_, nofun⟩
      rw [compile, read]
      rfl
    | ok tokens =>
      have refer := Tokens.refers_ofPattern read
      have told := told_ofTokens limits pattern.utf8ByteSize refer
      rw [compile_eq limits read]
      cases built : ofTokens limits pattern.utf8ByteSize tokens with
      | ok p => exact Or.inl ⟨p, rfl⟩
      | error cause =>
        rw [built] at told
        exact Or.inr ⟨cause, rfl, told⟩
  · have orderly := Reader.concludes_tokens_start limits.stack
      (split ▸ opensAtMost_countP tokens.list)
    rw [reads] at orderly
    exact orderly.groups
  · exact Assembly.GetsTo.one_left

/-- In the group of this pattern one group is open and one waits; at its end the one fragment is left. -/
theorem compile_defined_one_group : ∃ tokens s' r, Tokens.ofPattern "(a)" = .ok tokens ∧
    (Reader.start.tokens 20 (tokens.list.take 2)).result = .ok r ∧ r.opened = [⟨0, 1⟩] ∧
    r.opened.length = r.pending.countP (·.op = .group) ∧
    Assembly.GetsTo {} .backward (Polish.ofTokens 20 3 tokens.list) .nil s' ∧
    ∃ f, s'.operands = [f] := by
  have read : Tokens.ofPattern "(a)" = .ok
      ⟨[⟨⟨0, 1⟩, .openParen⟩, ⟨⟨1, 2⟩, .atom (.char 'a')⟩, ⟨⟨2, 3⟩, .closeParen⟩], []⟩ := by
    decide +kernel
  obtain ⟨-, defined⟩ := compile_defined {} "(a)"
  obtain ⟨nested, one_left⟩ := defined _ read
  obtain ⟨s', ends⟩ : ∃ s', Assembly.GetsTo {} .backward (Polish.ofTokens 20 3
      [⟨⟨0, 1⟩, .openParen⟩, ⟨⟨1, 2⟩, .atom (.char 'a')⟩, ⟨⟨2, 3⟩, .closeParen⟩]) .nil s' :=
    ⟨_, _, _, rfl, rfl, rfl⟩
  exact ⟨_, s', _, read, rfl, rfl, nested _ _ _ (List.take_append_drop 2 _).symm rfl, ends,
    one_left _ _ _ ends⟩

end Program

end CursorRegex
