import CursorRegex.Proofs.Program.Layout
import Mathlib.Algebra.GroupWithZero.Nat

/-! # What a token costs

Each token of a pattern brings the instructions of one atom or one operator into the program, whatever
stands around it.  Reading moves this cost on: what a token brings either waits with an operator or
leaves with the steps that are emitted.  `Polish.Spends` is the account of one reading, kept by sequencing
(`Polish.Spends.andThen`), and the account of a pattern is settled at its end
(`Polish.spends_ofTokens`).  Concatenation costs nothing. -/
set_option autoImplicit false

namespace CursorRegex

def Operator.size : Operator → Nat
  | .group | .alternate => 2
  | .concat => 0
  | .quantify q => q.size

def Step.size : Step → Nat
  | .atom _ => 1
  | .apply p => p.op.size

/-- A group is paid for where it is opened. -/
def TokenKind.size : TokenKind → Nat
  | .atom _ => 1
  | .quantifier q => q.size
  | .bar | .openParen => 2
  | .closeParen => 0

def Step.totalSize (steps : List Step) : Nat := (steps.map Step.size).sum

def Token.totalSize (toks : List Token) : Nat := (toks.map (·.kind.size)).sum

def Reader.owed (r : Reader) : Nat := (r.pending.map (·.op.size)).sum

def jointSize (joint : Option Pending) : Nat := joint.elim 0 (·.op.size)

theorem Step.totalSize_append (steps more : List Step) :
    totalSize (steps ++ more) = totalSize steps + totalSize more := by
  rw [totalSize, List.map_append, List.sum_append]
  rfl

theorem Step.totalSize_apply (ps : List Pending) :
    totalSize (ps.map .apply) = (ps.map (·.op.size)).sum := by
  rw [totalSize, List.map_map]
  rfl

/-- Of the waiting operators, those that are settled and those that go on waiting. -/
theorem sum_settled (keep : Pending → Bool) (ps : List Pending) :
    Step.totalSize ((ps.takeWhile keep).map .apply) + ((ps.dropWhile keep).map (·.op.size)).sum =
      (ps.map (·.op.size)).sum := by
  rw [Step.totalSize_apply, ← List.sum_append, ← List.map_append, List.takeWhile_append_dropWhile]

/-! ## The account of a reading -/

/-- The steps and what is left behind them cost `total`.  A reading that fails has not spent more, and it
does not fail for the length of the program. -/
def Polish.Spends {α : Type} (left : α → Nat) (total : Nat) (x : Polish α) : Prop :=
  match x.result with
  | .ok a => Step.totalSize x.steps + left a = total
  | .error cause => Step.totalSize x.steps ≤ total ∧ ∀ l, cause ≠ .programTooLong l

namespace Polish.Spends

variable {α β : Type} {left : α → Nat} {x : Polish α}

theorem pure (a : α) : (Polish.pure a).Spends left (left a) := Nat.zero_add _

theorem fail {cause : Cause} (total : Nat) (is : ∀ l, cause ≠ .programTooLong l) :
    (Polish.fail cause : Polish α).Spends left total := ⟨Nat.zero_le total, is⟩

theorem andThen {left' : β → Nat} {f : α → Polish β} {mid more : Nat} (h : x.Spends left mid)
    (next : ∀ a, x.result = .ok a → (f a).Spends left' (left a + more)) :
    (x.andThen f).Spends left' (mid + more) := by
  obtain ⟨steps, result⟩ := x
  cases result with
  | error cause =>
    obtain ⟨spent, is⟩ := h
    exact ⟨Nat.le_add_right_of_le spent, is⟩
  | ok a =>
    have first : Step.totalSize steps + left a = mid := h
    have second := next a rfl
    simp only [Polish.andThen, Spends, Step.totalSize_append] at second ⊢
    cases result : (f a).result with
    | error cause =>
      rw [result] at second
      exact ⟨by have := second.1; omega, second.2⟩
    | ok b =>
      rw [result] at second
      dsimp only at second ⊢
      omega

theorem of_zero {left' : α → Nat} (less : ∀ a, left' a ≤ left a) (h : x.Spends left 0) :
    x.Spends left' 0 := by
  unfold Spends at h ⊢
  cases result : x.result with
  | error cause =>
    rw [result] at h
    exact h
  | ok a =>
    rw [result] at h
    have := less a
    dsimp only at h ⊢
    omega

end Polish.Spends

/-! ## The account of a pattern -/

namespace Reader

variable (limit : Nat) (span : Span) (r : Reader)

theorem spends_push (op : Operator) : (r.push limit op span).Spends owed (r.owed + op.size) := by
  unfold push
  split
  · exact .fail _ nofun
  · rw [Nat.add_comm]
    exact .pure _

theorem spends_release (op : Operator) : (r.release op).Spends owed (r.owed + 0) :=
  sum_settled _ r.pending

theorem spends_between (op : Operator) :
    (r.between limit op span).Spends owed (r.owed + op.size) :=
  (r.spends_release op).andThen fun r _ => spends_push limit span { r with afterOperand := false } op

theorem spends_quantify (q : Quantifier) :
    (r.quantify limit q span).Spends owed (r.owed + q.size) :=
  (r.spends_release (.quantify q)).andThen fun r _ =>
    spends_push limit span { r with afterOperand := true } (.quantify q)

theorem spends_joined : (r.joined limit span).Spends owed (r.owed + 0) := by
  unfold joined
  split
  · exact r.spends_between limit span .concat
  · exact .pure r

theorem spends_closeGroup : (r.closeGroup span).Spends owed (r.owed + 0) := by
  unfold closeGroup
  cases r.opened with
  | nil => exact .fail _ nofun
  | cons opening opened =>
    have settled : _ = r.owed := sum_settled (·.op ≠ .group) r.pending
    cases rest : r.pending.dropWhile (·.op ≠ .group) with
    | nil =>
      rw [rest] at settled
      exact ⟨Nat.le_of_eq settled, nofun⟩
    | cons group outside =>
      rw [rest, List.map_cons, List.sum_cons] at settled
      have applied : Step.totalSize
          ((r.pending.takeWhile (·.op ≠ .group) ++ [group]).map .apply) =
          Step.totalSize ((r.pending.takeWhile (·.op ≠ .group)).map .apply) + group.op.size := by
        rw [List.map_append, Step.totalSize_append]
        rfl
      have left : owed { r with pending := outside, afterOperand := true, opened := opened } =
          (outside.map (·.op.size)).sum := rfl
      simp only [Polish.Spends]
      omega

theorem spends_token (t : Token) : (r.token limit t).Spends owed (r.owed + t.kind.size) := by
  obtain ⟨span, kind⟩ := t
  cases kind with
  | atom a =>
    refine (r.spends_joined limit span).andThen fun r _ => ?_
    exact Nat.add_comm 1 r.owed
  | quantifier q => exact r.spends_quantify limit span q
  | bar => exact r.spends_between limit span .alternate
  | openParen =>
    refine (spends_joined limit span _).andThen fun r _ => ?_
    exact spends_push limit span { r with afterOperand := false } .group
  | closeParen => exact r.spends_closeGroup span

theorem spends_tokens (toks : List Token) :
    (r.tokens limit toks).Spends owed (r.owed + Token.totalSize toks) := by
  induction toks generalizing r with
  | nil => exact .pure r
  | cons t toks ih =>
    have split : Token.totalSize (t :: toks) = t.kind.size + Token.totalSize toks := List.sum_cons
    rw [split, ← Nat.add_assoc]
    exact (r.spends_token limit t).andThen fun r' _ => ih r'

theorem spends_finish : (r.finish limit span).Spends jointSize (r.owed + 0) := by
  obtain ⟨pending, after, groups, opened⟩ := r
  unfold finish
  cases opened with
  | cons innermost outer => exact .fail _ nofun
  | nil =>
    have settled : (⟨pending.map .apply, .ok ⟨[], after, groups, []⟩⟩ : Polish Reader).Spends owed
        (owed ⟨pending, after, groups, []⟩) := Step.totalSize_apply pending
    refine settled.andThen fun r' same => ?_
    cases same
    have joins := spends_joined limit span ⟨[], after, groups, []⟩
    have head_le : ∀ r : Reader, jointSize r.pending.head? ≤ r.owed := by
      intro r
      obtain ⟨pending, -⟩ := r
      cases pending with
      | nil => exact Nat.le_refl 0
      | cons p ps => exact Nat.le_add_right _ _
    exact (joins.of_zero head_le).andThen fun r _ => .pure r.pending.head?

end Reader

theorem Polish.spends_ofTokens (limit length : Nat) (toks : List Token) :
    (ofTokens limit length toks).Spends jointSize (Token.totalSize toks) := by
  have read := Reader.start.spends_tokens limit toks
  rw [show Reader.start.owed = 0 from rfl, Nat.zero_add] at read
  exact read.andThen fun r _ => r.spends_finish limit _

end CursorRegex
