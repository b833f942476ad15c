import CursorRegex.Proofs.Pattern.Reading
import CursorRegex.Proofs.Pattern.TreeReader

/-! # Defects no pattern may have

A defect is seen in the tokens, without reading them: an operand is missing between two neighbours, in
front, or at the end, or the parentheses do not match.  Tokens with a defect have no tree, wherever the
defect stands (`Defective.not_parses`).  The tree reader keeps count of the parentheses
(`TreeReader.depth_tokens`), and after an opening parenthesis or a bar it has no piece that a later
token could take. -/
set_option autoImplicit false

namespace CursorRegex

def TokenKind.awaitsOperand : TokenKind → Bool
  | .openParen | .bar => true
  | .atom _ | .quantifier _ | .closeParen => false

inductive Defective : List Token → Prop where
  /-- A quantifier, a bar or a closing parenthesis comes first. -/
  | front {t : Token} {ts : List Token} (wants : t.kind.wantsOperand = true) : Defective (t :: ts)
  /-- An empty group, an empty alternative, or a quantifier with nothing before it. -/
  | lacking {t u : Token} (ts us : List Token) (awaits : t.kind.awaitsOperand = true)
      (wants : u.kind.wantsOperand = true) : Defective (ts ++ t :: u :: us)
  /-- The last alternative is empty. -/
  | back {t : Token} (ts : List Token) (awaits : t.kind.awaitsOperand = true) : Defective (ts ++ [t])
  | unmatchedClose (ts us : List Token)
      (more : ts.countP (·.kind = .openParen) < ts.countP (·.kind = .closeParen)) :
      Defective (ts ++ us)
  | unmatchedOpen {ts : List Token}
      (more : ts.countP (·.kind = .closeParen) < ts.countP (·.kind = .openParen)) : Defective ts

namespace TreeReader

variable {r r' : TreeReader} {t : Token} {ts : List Token}

theorem token_eq_none (missing : r.piece = none) (wants : t.kind.wantsOperand = true) :
    r.token t = none := by
  obtain ⟨span, kind⟩ := t
  obtain ⟨outer, branch, piece⟩ := r
  cases missing
  cases kind with
  | atom | openParen => cases wants
  | quantifier | bar => rfl
  | closeParen => cases outer <;> rfl

theorem piece_eq_none (awaits : t.kind.awaitsOperand = true) (step : r.token t = some r') :
    r'.piece = none := by
  obtain ⟨span, kind⟩ := t
  obtain ⟨outer, branch, piece⟩ := r
  cases kind with
  | atom | quantifier | closeParen => cases awaits
  | openParen =>
    cases step
    rfl
  | bar =>
    cases piece with
    | none => cases step
    | some p =>
      cases step
      rfl

theorem finish_eq_none (awaits : t.kind.awaitsOperand = true) (step : r.token t = some r') :
    r'.finish = none := by
  obtain ⟨span, kind⟩ := t
  obtain ⟨outer, branch, piece⟩ := r
  cases kind with
  | atom | quantifier | closeParen => cases awaits
  | openParen =>
    cases step
    rfl
  | bar =>
    cases piece with
    | none => cases step
    | some p =>
      cases step
      cases outer <;> rfl

theorem depth_token (step : r.token t = some r') :
    r'.outer.length + [t].countP (·.kind = .closeParen) =
      r.outer.length + [t].countP (·.kind = .openParen) := by
  obtain ⟨span, kind⟩ := t
  obtain ⟨outer, branch, piece⟩ := r
  cases kind with
  | atom | openParen =>
    cases step
    rfl
  | quantifier | bar =>
    cases piece with
    | none => cases step
    | some p =>
      cases step
      rfl
  | closeParen =>
    cases piece with
    | none => cases outer <;> cases step
    | some p =>
      cases outer with
      | nil => cases step
      | cons innermost outer =>
        cases step
        rfl

theorem depth_tokens (run : r.tokens ts = some r') :
    r'.outer.length + ts.countP (·.kind = .closeParen) =
      r.outer.length + ts.countP (·.kind = .openParen) := by
  induction ts generalizing r with
  | nil =>
    cases run
    rfl
  | cons t ts ih =>
    rw [tokens_cons, Option.bind_eq_some_iff] at run
    obtain ⟨r₁, step, rest⟩ := run
    have head := depth_token step
    have tail := ih rest
    rw [← List.singleton_append, List.countP_append, List.countP_append]
    omega

theorem outer_eq_nil_of_finish {t : Option Tree} (ends : r.finish = some t) : r.outer = [] := by
  obtain ⟨outer, branch, piece⟩ := r
  cases outer with
  | nil => rfl
  | cons => cases piece <;> cases ends

/-- A reader that gets through with a defect in the tokens does not end well. -/
theorem read_eq_none (defective : Defective ts) : read ts = none := by
  rw [read, Option.bind_eq_none_iff]
  intro r run
  rw [Option.eq_none_iff_forall_ne_some]
  intro tree ends
  cases defective with
  | front wants =>
    rw [tokens_cons, token_eq_none rfl wants] at run
    cases run
  | lacking ts us awaits wants =>
    rw [tokens_append, Option.bind_eq_some_iff] at run
    obtain ⟨r₁, -, run⟩ := run
    rw [tokens_cons, Option.bind_eq_some_iff] at run
    obtain ⟨r₂, step, run⟩ := run
    rw [tokens_cons, token_eq_none (piece_eq_none awaits step) wants] at run
    cases run
  | back ts awaits =>
    rw [tokens_append, Option.bind_eq_some_iff] at run
    obtain ⟨r₁, -, run⟩ := run
    rw [tokens_cons, Option.bind_eq_some_iff] at run
    obtain ⟨r₂, step, run⟩ := run
    cases run
    cases (finish_eq_none awaits step).symm.trans ends
  | unmatchedClose ts us more =>
    rw [tokens_append, Option.bind_eq_some_iff] at run
    obtain ⟨r₁, run, -⟩ := run
    have depth := depth_tokens run
    have none_open : start.outer.length = 0 := rfl
    omega
  | unmatchedOpen more =>
    have depth := depth_tokens run
    have closed := congrArg List.length (outer_eq_nil_of_finish ends)
    rw [List.length_nil] at closed
    have none_open : start.outer.length = 0 := rfl
    omega

end TreeReader

theorem Defective.not_parses {ts : List Token} (defective : Defective ts) (t : Option Tree) :
    ¬ Parses ts t := by
  intro parses
  have found := TreeReader.read_of_parses parses
  rw [TreeReader.read_eq_none defective] at found
  cases found

end CursorRegex
