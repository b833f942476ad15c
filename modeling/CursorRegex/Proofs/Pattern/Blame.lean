import CursorRegex.Proofs.Pattern.Precedence
import CursorRegex.Proofs.Pattern.Defects
import Mathlib.Data.List.Forall2

/-! # Which token is blamed for a missing operand

Where an operand is missing, the operators behind it still find operands, those of the groups and
alternatives around, until one of them finds the stack too low.  That one is blamed.  What is true of it
is `Blames`: an opening parenthesis is blamed for its own empty group, a quantifier only if no operand
comes before it, and a bar, or a place where two operands meet, for a gap at it or anywhere behind it.

The argument counts operands.  `Token.missing` is the number of tokens that found no operand where they
wanted one, and makes up the difference between the stack and the operands that waiting operators speak
for (`Progress.debt`).  Each binary operator that waits remembers the count at the time it came in
(`Pushed`), so if it finds the stack too low there was a gap since.  While the stack is empty, all that was
read still waits (`Progress.bare`). -/
set_option autoImplicit false

namespace CursorRegex

/-! ## Gaps -/

namespace Token

/-- Whether an operand may end where these tokens end.  `before` tells it of the place where they
begin. -/
def operandEnds (before : Bool) : List Token → Bool
  | [] => before
  | t :: ts => operandEnds (!t.kind.awaitsOperand) ts

/-- The number of tokens that want an operand in front of them where none ends. -/
def missing (before : Bool) : List Token → Nat
  | [] => 0
  | t :: ts => (t.kind.wantsOperand && !before).toNat + missing (!t.kind.awaitsOperand) ts

/-- Somewhere an operand is awaited and does not come. -/
def Gap (toks : List Token) : Prop :=
  ∃ front t back, toks = front ++ t :: back ∧ t.kind.awaitsOperand = true ∧
    ∀ u ∈ back.head?, u.kind.wantsOperand = true

variable {t : Token} {toks more : List Token}

theorem operandEnds_append (before : Bool) (toks more : List Token) :
    operandEnds before (toks ++ more) = operandEnds (operandEnds before toks) more := by
  induction toks generalizing before with
  | nil => rfl
  | cons t toks ih => exact ih _

theorem operandEnds_snoc (before : Bool) (toks : List Token) (t : Token) :
    operandEnds before (toks ++ [t]) = !t.kind.awaitsOperand := operandEnds_append before toks [t]

theorem missing_append (before : Bool) (toks more : List Token) :
    missing before (toks ++ more) = missing before toks + missing (operandEnds before toks) more := by
  induction toks generalizing before with
  | nil => exact (Nat.zero_add _).symm
  | cons t toks ih =>
    have rest : missing _ (toks ++ more) = _ := ih (!t.kind.awaitsOperand)
    simp only [List.cons_append, missing, operandEnds]
    omega

theorem missing_snoc (before : Bool) (toks : List Token) (t : Token) :
    missing before (toks ++ [t]) =
      missing before toks + (t.kind.wantsOperand && !operandEnds before toks).toNat :=
  missing_append before toks [t]

theorem Gap.cons (t : Token) (h : Gap toks) : Gap (t :: toks) := by
  obtain ⟨front, u, back, rfl, awaits, wants⟩ := h
  exact ⟨t :: front, u, back, rfl, awaits, wants⟩

theorem gap_of_missing (h : missing (!t.kind.awaitsOperand) toks ≠ 0) : Gap (t :: toks ++ more) := by
  induction toks generalizing t with
  | nil => exact absurd rfl h
  | cons u toks ih =>
    by_cases here : t.kind.awaitsOperand = true ∧ u.kind.wantsOperand = true
    · refine ⟨[], t, u :: toks ++ more, rfl, here.1, ?_⟩
      rintro _ ⟨⟩
      exact here.2
    · have later : missing (!u.kind.awaitsOperand) toks ≠ 0 := by
        rw [missing, Bool.not_not, Bool.and_comm] at h
        have none_here : (t.kind.awaitsOperand && u.kind.wantsOperand) = false := by
          rwa [← Bool.not_eq_true, Bool.and_eq_true]
        rwa [none_here, Bool.toNat_false, Nat.zero_add] at h
      exact (ih later).cons t

/-- So does what wants an operand behind one of the tokens, or the end of the pattern. -/
theorem gap_of_not_operandEnds (h : operandEnds (!t.kind.awaitsOperand) toks = false)
    (wants : ∀ u ∈ more.head?, u.kind.wantsOperand = true) : Gap (t :: toks ++ more) := by
  induction toks generalizing t with
  | nil => exact ⟨[], t, more, rfl, by simpa [operandEnds] using h, wants⟩
  | cons u toks ih => exact (ih h).cons t

end Token

/-! ## The blame -/

def TokenKind.operator? : TokenKind → Option Operator
  | .quantifier q => some (.quantify q)
  | .bar => some .alternate
  | .openParen => some .group
  | .atom _ | .closeParen => none

/-- A token between `front` and `back` is blamed for a flaw. -/
inductive Blames (front : List Token) (t : Token) (back : List Token) : Flaw → Prop where
  /-- Nothing stands between the parentheses. -/
  | group (is : t.kind = .openParen) (empty : ∃ u rest, back = u :: rest ∧ u.kind = .closeParen) :
      Blames front t back (.missingOperand '(')
  /-- Nothing but quantifiers comes before it in its alternative. -/
  | quantifier {q : Quantifier} {symbol : Char} (is : t.kind = .quantifier q)
      (written : (Operator.quantify q).symbol? = some symbol)
      (bare : ∃ outer qs, front = outer ++ qs ∧ Token.operandEnds false outer = false ∧
        ∀ u ∈ qs, ∃ q, u.kind = .quantifier q) :
      Blames front t back (.missingOperand symbol)
  /-- An alternative is missing on its left, or there is a gap at it or behind it. -/
  | bar (is : t.kind = .bar) (gap : Token.operandEnds false front = false ∨ Token.Gap (t :: back)) :
      Blames front t back (.missingOperand '|')
  /-- Two operands meet in front of the token, and there is a gap at it or behind it. -/
  | joint (is : t.kind = .openParen ∨ ∃ a, t.kind = .atom a)
      (joins : Token.operandEnds false front = true) (gap : Token.Gap (t :: back)) :
      Blames front t back .malformed

def Blamed (toks : List Token) (p : Pending) : Prop :=
  ∃ front t back flaw, toks = front ++ t :: back ∧ p.missingOperand = ⟨t.span, flaw⟩ ∧
    Blames front t back flaw

/-! ## The first operator that lacks an operand -/

theorem Pending.length_of_eval_eq_none {p : Pending} {ts : List Term} (h : p.eval ts = none) :
    ts.length ≤ p.isBinary.toNat := by
  obtain ⟨op, span, number⟩ := p
  match op, ts with
  | .group, [] | .quantify _, [] | .alternate, [] | .concat, [] => exact Nat.zero_le _
  | .alternate, [_] | .concat, [_] => exact Nat.le_refl _
  | .group, _ :: _ | .quantify _, _ :: _ => cases h
  | .alternate, _ :: _ :: _ | .concat, _ :: _ :: _ => cases h

namespace Step

variable {ts us : List Term}

theorem eq_nil_of_evalAll_apply {ps : List Pending} (h : evalAll ts (ps.map .apply) = some []) :
    ps = [] ∧ ts = [] := by
  induction ps generalizing ts with
  | nil =>
    cases h
    exact ⟨rfl, rfl⟩
  | cons p ps ih =>
    rw [evalAll_apply_cons, Option.bind_eq_some_iff] at h
    obtain ⟨us, first, rest⟩ := h
    exact absurd (ih rest).2 (Pending.length_eval first).2

theorem evalAll_apply_cases (ps : List Pending) (ts : List Term) :
    (∃ us, evalAll ts (ps.map .apply) = some us) ∨
      ∃ above p below us, ps = above ++ p :: below ∧ evalAll ts (above.map .apply) = some us ∧
        p.eval us = none := by
  induction ps generalizing ts with
  | nil => exact Or.inl ⟨ts, rfl⟩
  | cons p ps ih =>
    cases here : p.eval ts with
    | none => exact Or.inr ⟨[], p, ps, ts, rfl, rfl, here⟩
    | some us =>
      have split : ∀ above : List Pending, evalAll ts ((p :: above).map .apply) =
          evalAll us (above.map .apply) := by
        intro above
        rw [evalAll_apply_cons, here, Option.bind_some]
      rcases ih us with ⟨vs, eval⟩ | ⟨above, q, below, vs, rfl, eval, lacking⟩
      · exact Or.inl ⟨vs, (split ps).trans eval⟩
      · exact Or.inr ⟨p :: above, q, below, vs, rfl, (split above).trans eval, lacking⟩

end Step

namespace Polish

variable {α β : Type} {x : Polish α} {ts : List Term} {mid post : α → List Term → Prop}
  {blamed : Pending → Prop}

/-- Among the steps is an operator that lacks an operand, the first to do so. -/
def Lacks (x : Polish α) (ts : List Term) (blamed : Pending → Prop) : Prop :=
  ∃ front p back us, x.steps = front ++ .apply p :: back ∧ Step.evalAll ts front = some us ∧
    p.eval us = none ∧ blamed p

/-- The reading proceeds, unless an operator lacks an operand, and then it is `blamed`. -/
def Meets (x : Polish α) (ts : List Term) (post : α → List Term → Prop) (blamed : Pending → Prop) :
    Prop :=
  x.Proceeds ts post ∨ x.Lacks ts blamed

theorem Lacks.andThen {f : α → Polish β} (h : x.Lacks ts blamed) : (x.andThen f).Lacks ts blamed := by
  obtain ⟨steps, result⟩ := x
  obtain ⟨front, p, back, us, split, eval, lacking, is⟩ := h
  cases result with
  | error cause => exact ⟨front, p, back, us, split, eval, lacking, is⟩
  | ok a =>
    refine ⟨front, p, back ++ (f a).steps, us, ?_, eval, lacking, is⟩
    have split : steps = _ := split
    simp only [Polish.andThen, split, List.append_assoc, List.cons_append]

theorem Meets.andThen {post : β → List Term → Prop} {f : α → Polish β} (h : x.Meets ts mid blamed)
    (next : ∀ a us, mid a us → (f a).Meets us post blamed) : (x.andThen f).Meets ts post blamed := by
  rcases h with ⟨us, eval, ends⟩ | lacks
  · obtain ⟨steps, result⟩ := x
    cases result with
    | error cause => exact Or.inl ⟨us, eval, ends⟩
    | ok a =>
      rcases next a us ends with ⟨vs, eval', ends'⟩ | ⟨front, p, back, vs, split, eval', lacking, is⟩
      · exact Or.inl ⟨vs, Step.evalAll_append_eq_some.mpr ⟨us, eval, eval'⟩, ends'⟩
      · refine Or.inr ⟨steps ++ front, p, back, vs, ?_, ?_, lacking, is⟩
        · simp only [Polish.andThen, split, List.append_assoc]
        · exact Step.evalAll_append_eq_some.mpr ⟨us, eval, eval'⟩
  · exact Or.inr lacks.andThen

end Polish

/-! ## What is known while reading -/

def Stands (p : Pending) (t : Token) : Prop := t.kind.operator? = some p.op ∧ p.span = t.span

/-- Where every token still waits, and no quantifier was read last, no operand ends. -/
theorem operandEnds_of_bare {ps : List Pending} {before : List Token}
    (h : List.Forall₂ Stands ps before) (loose : ∀ p ∈ ps.head?, p.op.rank < 3) :
    Token.operandEnds false before.reverse = false := by
  cases h with
  | nil => rfl
  | @cons p t ps before stands others =>
    obtain ⟨is, -⟩ := stands
    rw [List.reverse_cons, Token.operandEnds_snoc]
    cases kind : t.kind with
    | atom | closeParen =>
      rw [kind] at is
      cases is
    | bar | openParen => rfl
    | quantifier q =>
      have bound := loose p rfl
      rw [kind] at is
      rw [← Option.some.inj is] at bound
      cases q <;> exact absurd bound (by decide)

/-- Where every token still waits, those that were read last are quantifiers, if any. -/
theorem exists_bare {ps : List Pending} {before : List Token} (h : List.Forall₂ Stands ps before) :
    ∃ outer qs, before.reverse = outer ++ qs ∧ Token.operandEnds false outer = false ∧
      ∀ u ∈ qs, ∃ q, u.kind = .quantifier q := by
  induction h with
  | nil => exact ⟨[], [], rfl, rfl, List.forall_mem_nil _⟩
  | @cons p u ps before stands others ih =>
    have ends := Token.operandEnds_snoc false before.reverse u
    rw [List.reverse_cons]
    cases kind : u.kind with
    | atom | closeParen =>
      have is := stands.1
      rw [kind] at is
      cases is
    | bar | openParen =>
      rw [kind] at ends
      exact ⟨before.reverse ++ [u], [], (List.append_nil _).symm, ends, List.forall_mem_nil _⟩
    | quantifier q =>
      obtain ⟨outer, qs, read, ends, quantifiers⟩ := ih
      refine ⟨outer, qs ++ [u], by rw [read, List.append_assoc], ends, fun v member => ?_⟩
      rcases List.mem_append.mp member with earlier | last
      · exact quantifiers v earlier
      · cases List.mem_singleton.mp last
        exact ⟨q, kind⟩

/-- A binary operator came in at one of the tokens, above `below`.  At that time `height` operands were on
the stack, and the operators below spoke for all but the missing ones. -/
structure Pushed (done : List Token) (p : Pending) (below : List Pending) (front : List Token)
    (t : Token) (behind : List Token) (height : Nat) : Prop where
  split : done = front ++ t :: behind
  span : p.span = t.span
  debt : below.countP (·.isBinary) + 1 = height + Token.missing false (front ++ [t])
  bar : p.op = .alternate → t.kind = .bar ∧ (height = 0 → Token.operandEnds false front = false)
  joint : p.op = .concat → (t.kind = .openParen ∨ ∃ a, t.kind = .atom a) ∧
    Token.operandEnds false front = true ∧ 0 < height

theorem Pushed.mono {done front behind : List Token} {p : Pending} {below : List Pending} {t : Token}
    {height : Nat} (h : Pushed done p below front t behind height) (more : List Token) :
    Pushed (done ++ more) p below front t (behind ++ more) height :=
  ⟨by rw [h.split, List.append_assoc, List.cons_append], h.span, h.debt, h.bar, h.joint⟩

/-- The tokens `done` are read, but for the last of `known`, which only brought in a concatenation. -/
structure Counted (done known : List Token) (r : Reader) (ts : List Term) : Prop where
  debt : r.debt = ts.length + Token.missing false done
  bare : ts = [] → List.Forall₂ Stands r.pending done.reverse
  pushed : ∀ p below, p :: below <:+ r.pending → p.isBinary = true →
    ∃ front t behind height, Pushed known p below front t behind height

structure Progress (done : List Token) (r : Reader) (ts : List Term) : Prop
    extends Counted done done r ts where
  after : r.afterOperand = Token.operandEnds false done

namespace Progress

variable {done next : List Token} {r : Reader} {ts us : List Term} {p : Pending}
  {above below : List Pending}

theorem blamed_of_nil (h : Progress done r ts) (split : r.pending = above ++ p :: below)
    (applied : Step.evalAll ts (above.map .apply) = some []) (unary : p.isBinary = false)
    (closes : p.op = .group → ∃ u rest, next = u :: rest ∧ u.kind = .closeParen) :
    Blamed (done ++ next) p := by
  obtain ⟨rfl, rfl⟩ := Step.eq_nil_of_evalAll_apply applied
  have bare := h.bare rfl
  rw [split, List.nil_append] at bare
  obtain ⟨t, before, stands, others, read⟩ := List.forall₂_cons_left_iff.mp bare
  have whole : done ++ next = before.reverse ++ t :: next := by
    rw [← List.reverse_reverse done, read, List.reverse_cons, List.append_assoc]
    rfl
  obtain ⟨op, span, number⟩ := p
  obtain ⟨is, same⟩ := stands
  obtain ⟨opening, kind⟩ := t
  cases same
  dsimp only at is
  cases op with
  | alternate | concat => cases unary
  | group =>
    cases kind <;> cases is
    exact ⟨_, _, _, _, whole, rfl, .group rfl (closes rfl)⟩
  | quantify q =>
    cases kind <;> cases is
    cases q with
    | star | plus | quest => exact ⟨_, _, _, _, whole, rfl, .quantifier rfl rfl (exists_bare others)⟩

/-- A binary operator that finds at most one operand was followed by a gap, or found none when it came
in. -/
theorem blamed_of_low (h : Progress done r ts) (split : r.pending = above ++ p :: below)
    (applied : Step.evalAll ts (above.map .apply) = some us) (low : us.length ≤ 1)
    (binary : p.isBinary = true)
    (wants : r.afterOperand = false → ∀ u ∈ next.head?, u.kind.wantsOperand = true) :
    Blamed (done ++ next) p := by
  have suffix : p :: below <:+ r.pending := ⟨above, split.symm⟩
  obtain ⟨front, t, behind, height, pushed⟩ := h.pushed p below suffix binary
  have whole : done ++ next = front ++ t :: (behind ++ next) := by
    rw [pushed.split, List.append_assoc, List.cons_append]
  have read : done = (front ++ [t]) ++ behind := by
    rw [pushed.split, List.append_assoc, List.singleton_append]
  have ends := Token.operandEnds_snoc false front t
  have gap : Token.Gap (t :: (behind ++ next)) ∨ height = 0 := by
    by_cases later : Token.missing (!t.kind.awaitsOperand) behind = 0
    · cases after : r.afterOperand with
      | false =>
        left
        have h_after := h.after
        rw [after, read, Token.operandEnds_append, ends] at h_after
        exact Token.gap_of_not_operandEnds h_after.symm (wants after)
      | true =>
        right
        have debt := h.debt
        have counted := Step.length_evalAll_apply applied
        have total : Token.missing false done = Token.missing false (front ++ [t]) := by
          rw [read, Token.missing_append, ends, later, Nat.add_zero]
        have below_debt := pushed.debt
        simp only [Reader.debt, split, List.countP_append, List.countP_cons, binary, after,
          Bool.toNat_true, if_true] at debt
        omega
    · exact Or.inl (Token.gap_of_missing later)
  obtain ⟨op, span, number⟩ := p
  cases op with
  | group | quantify => cases binary
  | alternate =>
    obtain ⟨is, left⟩ := pushed.bar rfl
    have blame : Blames front t (behind ++ next) (.missingOperand '|') :=
      .bar is (gap.symm.imp left id)
    exact ⟨front, t, _, _, whole, by rw [← pushed.span]; rfl, blame⟩
  | concat =>
    obtain ⟨is, joins, some_below⟩ := pushed.joint rfl
    have blame : Blames front t (behind ++ next) .malformed :=
      .joint is joins (gap.resolve_right (Nat.ne_of_gt some_below))
    exact ⟨front, t, _, _, whole, by rw [← pushed.span]; rfl, blame⟩

/-- Of operators that are applied, the first that lacks an operand is to blame. -/
theorem apply_cases {ps rest : List Pending} (h : Progress done r ts) (split : r.pending = ps ++ rest)
    (wants : r.afterOperand = false → ∀ u ∈ next.head?, u.kind.wantsOperand = true)
    (closes : ∀ p ∈ ps, p.op = .group → ∃ u rest, next = u :: rest ∧ u.kind = .closeParen) :
    (∃ us, Step.evalAll ts (ps.map .apply) = some us) ∨
      ∃ above p below us, ps = above ++ p :: below ∧
        Step.evalAll ts (above.map .apply) = some us ∧ p.eval us = none ∧ Blamed (done ++ next) p := by
  rcases Step.evalAll_apply_cases ps ts with applied | ⟨above, p, below, us, rfl, applied, lacking⟩
  · exact Or.inl applied
  · refine Or.inr ⟨above, p, below, us, rfl, applied, lacking, ?_⟩
    have split : r.pending = above ++ p :: (below ++ rest) := by
      rw [split, List.append_assoc, List.cons_append]
    have low := Pending.length_of_eval_eq_none lacking
    cases binary : p.isBinary with
    | true =>
      rw [binary] at low
      exact h.blamed_of_low split applied low binary wants
    | false =>
      rw [binary] at low
      cases List.length_eq_zero_iff.mp (Nat.le_zero.mp low)
      exact h.blamed_of_nil split applied binary (closes p (by simp))

end Progress

end CursorRegex
