import CursorRegex.Proofs.Pattern.Term

/-! # What each step of reading settles

One inversion lemma for each operation of the reader: how the waiting operators change, and which
steps are emitted on the way.  Beside it stands a lemma on progress: where the operands are there, only
the room for operators can keep the operation from settling.

From the inversion lemmas follows the count of operands.  `Reader.debt` is the number
of operands that the waiting operators and the flag speak for; a token that wants an operand in front
of it and finds none raises the debt above what the stack holds, and no later token makes up for it
(`debt_token`, `debt_tokens`). -/
set_option autoImplicit false

namespace CursorRegex

def TokenKind.wantsOperand : TokenKind → Bool
  | .quantifier _ | .bar | .closeParen => true
  | .atom _ | .openParen => false

namespace Reader

variable {limit : Nat} {span : Span} {r r' : Reader} {ts us : List Term}

def number (r : Reader) : Option Nat := if r.groups < 10 then some r.groups else none

variable {post : Reader → List Term → Prop}

/-! ## Inversion -/

theorem settles_push {op : Operator} (h : (r.push limit op span).Settles ts r' us) :
    r' = { r with pending := ⟨op, span, r.number⟩ :: r.pending } ∧ us = ts := by
  unfold push at h
  split at h
  · exact absurd h Polish.not_settles_fail
  · obtain ⟨same, rfl⟩ := Polish.settles_pure.mp h
    exact ⟨same.symm, rfl⟩

theorem settles_release {op : Operator} (h : (r.release op).Settles ts r' us) :
    r' = { r with pending := r.pending.dropWhile (op.rank ≤ ·.op.rank) } ∧
      Step.evalAll ts ((r.pending.takeWhile (op.rank ≤ ·.op.rank)).map .apply) = some us := by
  obtain ⟨same, eval⟩ := h
  exact ⟨(Except.ok.inj same).symm, eval⟩

theorem settles_between {op : Operator} (h : (r.between limit op span).Settles ts r' us) :
    r' = { r with
        pending := ⟨op, span, r.number⟩ :: r.pending.dropWhile (op.rank ≤ ·.op.rank)
        afterOperand := false } ∧
      Step.evalAll ts ((r.pending.takeWhile (op.rank ≤ ·.op.rank)).map .apply) = some us := by
  obtain ⟨r₁, us₁, released, pushed⟩ := Polish.settles_andThen.mp h
  obtain ⟨rfl, eval⟩ := settles_release released
  obtain ⟨rfl, rfl⟩ := settles_push pushed
  exact ⟨rfl, eval⟩

theorem settles_quantify {q : Quantifier} (h : (r.quantify limit q span).Settles ts r' us) :
    r' = { r with
        pending := ⟨.quantify q, span, r.number⟩ ::
          r.pending.dropWhile (Operator.rank (.quantify q) ≤ ·.op.rank)
        afterOperand := true } ∧
      Step.evalAll ts
        ((r.pending.takeWhile (Operator.rank (.quantify q) ≤ ·.op.rank)).map .apply) = some us := by
  obtain ⟨r₁, us₁, released, pushed⟩ := Polish.settles_andThen.mp h
  obtain ⟨rfl, eval⟩ := settles_release released
  obtain ⟨rfl, rfl⟩ := settles_push pushed
  exact ⟨rfl, eval⟩

theorem settles_joined (h : (r.joined limit span).Settles ts r' us) :
    (r.afterOperand = true ∧ (r.between limit .concat span).Settles ts r' us) ∨
      (r.afterOperand = false ∧ r' = r ∧ us = ts) := by
  unfold joined at h
  cases after : r.afterOperand with
  | true =>
    rw [after, if_pos rfl] at h
    exact Or.inl ⟨rfl, h⟩
  | false =>
    rw [after, if_neg Bool.false_ne_true] at h
    obtain ⟨same, rfl⟩ := Polish.settles_pure.mp h
    exact Or.inr ⟨rfl, same.symm, rfl⟩

theorem settles_atom {a : Atom} (h : (r.atom limit a span).Settles ts r' us) :
    ∃ r₁ us₁, (r.joined limit span).Settles ts r₁ us₁ ∧
      r' = { r₁ with afterOperand := true } ∧ us = .atom a :: us₁ := by
  obtain ⟨r₁, us₁, joined, same, eval⟩ := Polish.settles_andThen.mp h
  rw [Step.evalAll_cons] at eval
  exact ⟨r₁, us₁, joined, (Except.ok.inj same).symm, (Option.some.inj eval).symm⟩

theorem settles_openGroup (h : (r.openGroup limit span).Settles ts r' us) :
    ∃ r₁, ({ r with groups := r.groups + 1, opened := span :: r.opened }.joined limit span).Settles
        ts r₁ us ∧
      r' = { r₁ with
        pending := ⟨.group, span, r₁.number⟩ :: r₁.pending
        afterOperand := false } := by
  obtain ⟨r₁, us₁, joined, pushed⟩ := Polish.settles_andThen.mp h
  obtain ⟨rfl, rfl⟩ := settles_push pushed
  exact ⟨r₁, joined, rfl⟩

theorem settles_closeGroup (h : (r.closeGroup span).Settles ts r' us) :
    ∃ opening opened group outside, r.opened = opening :: opened ∧
      r.pending.dropWhile (·.op ≠ .group) = group :: outside ∧
      r' = { r with pending := outside, afterOperand := true, opened := opened } ∧
      Step.evalAll ts ((r.pending.takeWhile (·.op ≠ .group) ++ [group]).map .apply) = some us := by
  unfold closeGroup at h
  cases opens : r.opened with
  | nil =>
    rw [opens] at h
    exact absurd h Polish.not_settles_fail
  | cons opening opened =>
    simp only [opens] at h
    cases rest : r.pending.dropWhile (·.op ≠ .group) with
    | nil =>
      simp only [rest] at h
      exact absurd h.1 (by simp)
    | cons group outside =>
      simp only [rest] at h
      obtain ⟨same, eval⟩ := h
      exact ⟨opening, opened, group, outside, rfl, rfl, (Except.ok.inj same).symm, eval⟩

theorem settles_finish {joint : Option Pending} (h : (r.finish limit span).Settles ts joint us) :
    r.opened = [] ∧ Step.evalAll ts (r.pending.map .apply) = some us ∧
      if r.afterOperand then ∃ number, joint = some ⟨.concat, span, number⟩ else joint = none := by
  unfold finish at h
  cases opens : r.opened with
  | cons innermost outer =>
    rw [opens] at h
    exact absurd h Polish.not_settles_fail
  | nil =>
    simp only [opens] at h
    obtain ⟨r₁, us₁, ⟨same, eval⟩, rest⟩ := Polish.settles_andThen.mp h
    cases same
    obtain ⟨r₂, us₂, joins, last⟩ := Polish.settles_andThen.mp rest
    obtain ⟨rfl, rfl⟩ := Polish.settles_pure.mp last
    rcases settles_joined joins with ⟨after, between⟩ | ⟨after, rfl, rfl⟩
    · obtain ⟨rfl, nothing⟩ := settles_between between
      cases nothing
      rw [after]
      exact ⟨rfl, eval, _, rfl⟩
    · rw [after]
      exact ⟨rfl, eval, rfl⟩

/-! ## Progress -/

theorem proceeds_push {op : Operator}
    (holds : post { r with pending := ⟨op, span, r.number⟩ :: r.pending } ts) :
    (r.push limit op span).Proceeds ts post := by
  unfold push
  split
  · exact .fail rfl
  · exact .pure holds

theorem proceeds_release {op : Operator}
    (eval : Step.evalAll ts ((r.pending.takeWhile (op.rank ≤ ·.op.rank)).map .apply) = some us) :
    (r.release op).Proceeds ts fun r' us' =>
      us' = us ∧ r' = { r with pending := r.pending.dropWhile (op.rank ≤ ·.op.rank) } :=
  ⟨us, eval, rfl, rfl⟩

theorem proceeds_between {op : Operator}
    (eval : Step.evalAll ts ((r.pending.takeWhile (op.rank ≤ ·.op.rank)).map .apply) = some us)
    (holds : post { r with
        pending := ⟨op, span, r.number⟩ :: r.pending.dropWhile (op.rank ≤ ·.op.rank)
        afterOperand := false } us) : (r.between limit op span).Proceeds ts post := by
  refine (proceeds_release eval).andThen ?_
  rintro r' us' ⟨rfl, rfl⟩
  exact proceeds_push holds

theorem proceeds_quantify {q : Quantifier}
    (eval : Step.evalAll ts
      ((r.pending.takeWhile (Operator.rank (.quantify q) ≤ ·.op.rank)).map .apply) = some us)
    (holds : post { r with
        pending := ⟨.quantify q, span, r.number⟩ ::
          r.pending.dropWhile (Operator.rank (.quantify q) ≤ ·.op.rank)
        afterOperand := true } us) : (r.quantify limit q span).Proceeds ts post := by
  refine (proceeds_release eval).andThen ?_
  rintro r' us' ⟨rfl, rfl⟩
  exact proceeds_push holds

theorem proceeds_joined (after : r.afterOperand = true → (r.between limit .concat span).Proceeds ts post)
    (before : r.afterOperand = false → post r ts) : (r.joined limit span).Proceeds ts post := by
  unfold joined
  cases is : r.afterOperand with
  | true =>
    rw [if_pos rfl]
    exact after is
  | false =>
    rw [if_neg Bool.false_ne_true]
    exact .pure (before is)

theorem proceeds_atom {a : Atom}
    (joins : (r.joined limit span).Proceeds ts
      fun r' us => post { r' with afterOperand := true } (.atom a :: us)) :
    (r.atom limit a span).Proceeds ts post := by
  refine joins.andThen fun r' us holds => ?_
  exact ⟨.atom a :: us, rfl, holds⟩

theorem proceeds_openGroup
    (joins : ({ r with groups := r.groups + 1, opened := span :: r.opened }.joined limit span).Proceeds
      ts fun r' us => post { r' with
        pending := ⟨.group, span, r'.number⟩ :: r'.pending
        afterOperand := false } us) : (r.openGroup limit span).Proceeds ts post :=
  joins.andThen fun _ _ holds => proceeds_push holds

theorem proceeds_closeGroup {opening : Span} {opened : List Span} {group : Pending}
    {outside : List Pending} (opens : r.opened = opening :: opened)
    (rest : r.pending.dropWhile (·.op ≠ .group) = group :: outside)
    (eval : Step.evalAll ts ((r.pending.takeWhile (·.op ≠ .group) ++ [group]).map .apply) = some us)
    (holds : post { r with pending := outside, afterOperand := true, opened := opened } us) :
    (r.closeGroup span).Proceeds ts post := by
  unfold closeGroup
  simp only [opens, rest]
  exact ⟨us, eval, holds⟩

theorem proceeds_finish {post : Option Pending → List Term → Prop} (closed : r.opened = [])
    (eval : Step.evalAll ts (r.pending.map .apply) = some us)
    (holds : post (if r.afterOperand then some ⟨.concat, span, r.number⟩ else none) us) :
    (r.finish limit span).Proceeds ts post := by
  obtain ⟨pending, after, groups, opened⟩ := r
  subst closed
  have settled : (⟨pending.map .apply, .ok ⟨[], after, groups, []⟩⟩ : Polish Reader).Proceeds ts
      fun r' us' => us' = us ∧ r' = ⟨[], after, groups, []⟩ := ⟨us, eval, rfl, rfl⟩
  refine settled.andThen ?_
  rintro r' us' ⟨rfl, rfl⟩
  have joins : (Reader.joined limit span ⟨[], after, groups, []⟩).Proceeds us'
      fun r' us => post r'.pending.head? us := by
    refine proceeds_joined (fun is => ?_) fun is => ?_
    · have is' : after = true := is
      subst is'
      exact proceeds_between rfl holds
    · have is' : after = false := is
      subst is'
      exact holds
  exact joins.andThen fun _ _ holds => .pure holds

/-! ## The debt of operands -/

def debt (r : Reader) : Nat := r.pending.countP (·.isBinary) + r.afterOperand.toNat

/-- Applying the first of the waiting operators keeps the others waiting and the stack in step. -/
theorem length_settled {keep : Pending → Bool} {ps : List Pending}
    (h : Step.evalAll ts ((ps.takeWhile keep).map .apply) = some us) :
    us.length + ps.countP (·.isBinary) = ts.length + (ps.dropWhile keep).countP (·.isBinary) := by
  have applied := Step.length_evalAll_apply h
  have split : ps.countP (·.isBinary) =
      (ps.takeWhile keep).countP (·.isBinary) + (ps.dropWhile keep).countP (·.isBinary) := by
    rw [← List.countP_append, List.takeWhile_append_dropWhile]
  omega

theorem countP_push (op : Operator) (span : Span) (number : Option Nat) (ps : List Pending) :
    (Pending.mk op span number :: ps).countP (·.isBinary) =
      ps.countP (·.isBinary) + op.isBinary.toNat := by
  cases hb : op.isBinary <;> simp [Pending.isBinary, hb]

theorem debt_joined (h : (r.joined limit span).Settles ts r' us) :
    r.debt + us.length = r'.debt + ts.length ∧ r'.afterOperand = false := by
  rcases settles_joined h with ⟨after, between⟩ | ⟨after, rfl, rfl⟩
  · obtain ⟨rfl, eval⟩ := settles_between between
    have settled := length_settled eval
    refine ⟨?_, rfl⟩
    simp only [debt, countP_push, after, Operator.isBinary, Bool.toNat_true, Bool.toNat_false]
    omega
  · exact ⟨rfl, after⟩

theorem debt_token {t : Token} (h : (r.token limit t).Settles ts r' us) :
    r.debt + us.length + (t.kind.wantsOperand && !r.afterOperand).toNat ≤ r'.debt + ts.length := by
  obtain ⟨span, kind⟩ := t
  cases kind with
  | atom a =>
    obtain ⟨r₁, us₁, joins, rfl, rfl⟩ := settles_atom h
    obtain ⟨kept, before⟩ := debt_joined joins
    simp only [debt, before, TokenKind.wantsOperand, Bool.toNat_true, Bool.toNat_false,
      Bool.false_and, List.length_cons] at kept ⊢
    omega
  | quantifier q =>
    obtain ⟨rfl, eval⟩ := settles_quantify h
    have settled := length_settled eval
    simp only [debt, countP_push, Operator.isBinary, TokenKind.wantsOperand, Bool.true_and,
      Bool.toNat_true, Bool.toNat_false]
    cases r.afterOperand <;> simp <;> omega
  | bar =>
    obtain ⟨rfl, eval⟩ := settles_between h
    have settled := length_settled eval
    simp only [debt, countP_push, Operator.isBinary, TokenKind.wantsOperand, Bool.true_and,
      Bool.toNat_true, Bool.toNat_false]
    cases r.afterOperand <;> simp <;> omega
  | openParen =>
    obtain ⟨r₁, joins, rfl⟩ := settles_openGroup h
    obtain ⟨kept, before⟩ := debt_joined joins
    simp only [debt, countP_push, Operator.isBinary, before, TokenKind.wantsOperand,
      Bool.toNat_false, Bool.false_and] at kept ⊢
    omega
  | closeParen =>
    obtain ⟨opening, opened, group, outside, -, rest, rfl, eval⟩ := settles_closeGroup h
    rw [List.map_append, Step.evalAll_append_eq_some] at eval
    obtain ⟨us₁, inside, last⟩ := eval
    have settled := length_settled inside
    rw [Step.evalAll_apply_singleton] at last
    have closed := (Pending.length_eval last).1
    have counted : group.isBinary.toNat = if group.isBinary then 1 else 0 := by
      cases group.isBinary <;> rfl
    rw [rest, List.countP_cons] at settled
    simp only [debt, TokenKind.wantsOperand, Bool.true_and, Bool.toNat_true]
    cases r.afterOperand <;> simp <;> omega

theorem debt_tokens {toks : List Token} (h : (r.tokens limit toks).Settles ts r' us) :
    r.debt + us.length ≤ r'.debt + ts.length := by
  induction toks generalizing r ts with
  | nil =>
    obtain ⟨rfl, rfl⟩ := Polish.settles_pure.mp h
    exact Nat.le_refl _
  | cons t toks ih =>
    obtain ⟨r₁, us₁, first, rest⟩ := Polish.settles_andThen.mp h
    have head := debt_token first
    have tail := ih rest
    omega

end Reader

end CursorRegex
