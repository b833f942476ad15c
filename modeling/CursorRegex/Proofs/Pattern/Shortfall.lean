import CursorRegex.Proofs.Pattern.Blame
import Mathlib.Data.List.Infix
import Mathlib.Data.List.TakeWhile

/-! # Reading with operands missing

`Progress` is kept by every operation of the reader, whether operands are missing or not, until an operator
finds the stack too low; and then `Blamed` is true of it.  One lemma for each operation leads to the
reading of all tokens (`Reader.meets_tokens`).  At the end every operator has been applied, and if each
found its operands then no token missed one and one fragment is left (`Polish.meets_ofTokens`).

Parentheses that balance are what keeps the reader from complaining about them: as many groups wait as are
open (`Nested`). -/
set_option autoImplicit false

namespace CursorRegex

/-- Every closing parenthesis has an opening one in front of it, and the other way round. -/
structure Balanced (toks : List Token) : Prop where
  opened : ∀ front back, toks = front ++ back →
    front.countP (·.kind = .closeParen) ≤ front.countP (·.kind = .openParen)
  closed : toks.countP (·.kind = .closeParen) = toks.countP (·.kind = .openParen)

theorem balanced_iff (toks : List Token) :
    (∀ front ∈ toks.inits,
      front.countP (·.kind = .closeParen) ≤ front.countP (·.kind = .openParen)) ∧
      toks.countP (·.kind = .closeParen) = toks.countP (·.kind = .openParen) ↔ Balanced toks := by
  constructor
  · rintro ⟨opened, closed⟩
    exact ⟨fun front back split => opened front ((List.mem_inits _ _).mpr ⟨back, split.symm⟩), closed⟩
  · rintro ⟨opened, closed⟩
    refine ⟨fun front first => ?_, closed⟩
    obtain ⟨back, split⟩ := (List.mem_inits _ _).mp first
    exact opened front back split.symm

instance (toks : List Token) : Decidable (Balanced toks) :=
  decidable_of_iff _ (balanced_iff toks)

/-- As many groups wait as are open, and these are the ones not closed among the tokens. -/
structure Nested (done : List Token) (r : Reader) : Prop where
  groups : r.opened.length = r.pending.countP (·.op = .group)
  depth : r.opened.length + done.countP (·.kind = .closeParen) =
    done.countP (·.kind = .openParen)

def Reader.SameGroups (r r' : Reader) : Prop :=
  r'.opened = r.opened ∧ r'.pending.countP (·.op = .group) = r.pending.countP (·.op = .group)

/-! ## Which operators go -/

theorem Operator.rank_quantify_pos (q : Quantifier) : 0 < Operator.rank (.quantify q) := by
  cases q <;> decide

theorem ne_group_of_released {op : Operator} (binds : 0 < op.rank) {ps : List Pending} :
    ∀ p ∈ ps.takeWhile (op.rank ≤ ·.op.rank), p.op ≠ .group := by
  intro p member is
  have bound : decide (op.rank ≤ p.op.rank) = true :=
    List.mem_takeWhile_imp (p := fun p : Pending => decide (op.rank ≤ p.op.rank)) member
  rw [is] at bound
  exact absurd (of_decide_eq_true bound) (Nat.not_le.mpr binds)

theorem countP_group_release {op : Operator} (binds : 0 < op.rank) (ps : List Pending) :
    (ps.dropWhile (op.rank ≤ ·.op.rank)).countP (·.op = .group) = ps.countP (·.op = .group) := by
  have none_released : (ps.takeWhile (op.rank ≤ ·.op.rank)).countP (·.op = .group) = 0 :=
    List.countP_eq_zero.mpr fun p member is =>
      ne_group_of_released binds p member (of_decide_eq_true is)
  conv_rhs => rw [← List.takeWhile_append_dropWhile (p := (op.rank ≤ ·.op.rank)) (l := ps),
    List.countP_append, none_released, Nat.zero_add]

theorem rank_head_release (op : Operator) (ps : List Pending) :
    ∀ p ∈ (ps.dropWhile (op.rank ≤ ·.op.rank)).head?, p.op.rank < op.rank := by
  intro p head
  have stops := List.head?_dropWhile_not (fun p : Pending => decide (op.rank ≤ p.op.rank)) ps
  rw [Option.mem_def.mp head] at stops
  exact Nat.lt_of_not_le (of_decide_eq_false stops)

theorem exists_split_group {ps : List Pending} {n : Nat}
    (waits : n + 1 = ps.countP (·.op = .group)) :
    ∃ above group outside, ps = above ++ group :: outside ∧ ps.takeWhile (·.op ≠ .group) = above ∧
      ps.dropWhile (·.op ≠ .group) = group :: outside ∧ group.op = .group ∧
      n = outside.countP (·.op = .group) := by
  have split := (List.takeWhile_append_dropWhile (p := fun p : Pending => decide (p.op ≠ .group))
    (l := ps)).symm
  have stops := List.head?_dropWhile_not (fun p : Pending => decide (p.op ≠ .group)) ps
  have none_above : (ps.takeWhile (·.op ≠ .group)).countP (·.op = .group) = 0 := by
    refine List.countP_eq_zero.mpr fun p member is => ?_
    have stays : decide (p.op ≠ .group) = true :=
      List.mem_takeWhile_imp (p := fun p : Pending => decide (p.op ≠ .group)) member
    exact absurd (of_decide_eq_true is) (of_decide_eq_true stays)
  cases rest : ps.dropWhile (·.op ≠ .group) with
  | nil =>
    rw [split, rest, List.append_nil, none_above] at waits
    cases waits
  | cons group outside =>
    rw [rest] at split stops
    have is : group.op = .group := not_not.mp (of_decide_eq_false stops)
    refine ⟨_, group, outside, split, rfl, rfl, is, ?_⟩
    rw [split, List.countP_append, none_above, List.countP_cons, is] at waits
    simpa using waits

/-! ## Progress -/

variable {done : List Token} {t : Token} {r r' : Reader} {ts us : List Term} {limit : Nat}

theorem Counted.mono {known : List Token} (h : Counted done known r ts) (more : List Token) :
    Counted done (known ++ more) r ts := by
  refine ⟨h.debt, h.bare, fun p below suffix binary => ?_⟩
  obtain ⟨front, u, behind, height, pushed⟩ := h.pushed p below suffix binary
  exact ⟨front, u, behind ++ more, height, pushed.mono more⟩

/-- An operator comes in that a token says.  What it speaks for in addition is what the token misses. -/
theorem Counted.operator {op : Operator} (number : Option Nat) (h : Counted done (done ++ [t]) r us)
    (is : t.kind.operator? = some op)
    (counts : op.isBinary.toNat + (!t.kind.awaitsOperand).toNat =
      r.afterOperand.toNat + (t.kind.wantsOperand && !Token.operandEnds false done).toNat)
    (left : us = [] → op = .alternate → Token.operandEnds false done = false) :
    Counted (done ++ [t]) (done ++ [t])
      { r with
        pending := ⟨op, t.span, number⟩ :: r.pending
        afterOperand := !t.kind.awaitsOperand } us := by
  have more := Token.missing_snoc false done t
  have old := h.debt
  have debt : Reader.debt { r with
      pending := ⟨op, t.span, number⟩ :: r.pending
      afterOperand := !t.kind.awaitsOperand } = us.length + Token.missing false (done ++ [t]) := by
    simp only [Reader.debt, Reader.countP_push, more] at old ⊢
    omega
  refine ⟨debt, fun none_left => ?_, fun p below suffix binary => ?_⟩
  · rw [List.reverse_append]
    exact .cons ⟨is, rfl⟩ (h.bare none_left)
  · rcases List.suffix_cons_iff.mp suffix with top | suffix
    · cases top
      obtain ⟨span, kind⟩ := t
      cases kind with
      | atom | closeParen => cases is
      | quantifier | openParen =>
        cases is
        cases binary
      | bar =>
        cases is
        simp only [Reader.debt, Reader.countP_push] at debt
        refine ⟨done, _, [], us.length, rfl, rfl, debt,
          fun _ => ⟨rfl, fun empty => left (List.length_eq_zero_iff.mp empty) rfl⟩, fun joint => ?_⟩
        cases joint
    · exact h.pushed p below suffix binary

namespace Progress

variable {next : List Token}

theorem settled {keep : Pending → Bool} (h : Progress done r ts)
    (eval : Step.evalAll ts ((r.pending.takeWhile keep).map .apply) = some us) :
    Progress done { r with pending := r.pending.dropWhile keep } us := by
  have length := Reader.length_settled eval
  have debt := h.debt
  refine ⟨⟨?_, ?_, fun p below suffix binary => ?_⟩, h.after⟩
  · simp only [Reader.debt] at debt ⊢
    omega
  · rintro rfl
    obtain ⟨none_applied, rfl⟩ := Step.eq_nil_of_evalAll_apply eval
    have all : r.pending.dropWhile keep = r.pending := by
      conv_rhs => rw [← List.takeWhile_append_dropWhile (p := keep) (l := r.pending), none_applied]
      rfl
    rw [all]
    exact h.bare rfl
  · exact h.pushed p below (suffix.trans (List.dropWhile_suffix keep)) binary

theorem meets_release {op : Operator} (h : Progress done r ts) (binds : 0 < op.rank)
    (wants : r.afterOperand = false → ∀ u ∈ next.head?, u.kind.wantsOperand = true) :
    (r.release op).Meets ts (fun r' us => Progress done r' us ∧ r'.afterOperand = r.afterOperand ∧
      r.SameGroups r' ∧ ∀ p ∈ r'.pending.head?, p.op.rank < op.rank) (Blamed (done ++ next)) := by
  rcases h.apply_cases List.takeWhile_append_dropWhile.symm wants
      (fun p member is => absurd is (ne_group_of_released binds p member)) with ⟨us, eval⟩ | lacks
  · exact Or.inl ⟨us, eval, h.settled eval, rfl, ⟨rfl, countP_group_release binds r.pending⟩,
      rank_head_release op r.pending⟩
  · obtain ⟨above, p, below, us, split, eval, lacking, blamed⟩ := lacks
    refine Or.inr ⟨above.map .apply, p, below.map .apply, us, ?_, eval, lacking, blamed⟩
    rw [Reader.release, split, List.map_append, List.map_cons]

/-- Where an operand was read and no quantifier waits, the stack is not empty. -/
theorem ne_nil (h : Progress done r us) (after : r.afterOperand = true)
    (loose : ∀ p ∈ r.pending.head?, p.op.rank < 3) : us ≠ [] := by
  rintro rfl
  have ends := operandEnds_of_bare (h.bare rfl) loose
  rw [List.reverse_reverse, ← h.after, after] at ends
  cases ends

end Progress

/-! ## Groups -/

theorem Nested.read (h : Nested done r) (same : r.SameGroups r') (not_open : t.kind ≠ .openParen)
    (not_close : t.kind ≠ .closeParen) : Nested (done ++ [t]) r' := by
  obtain ⟨opened, groups⟩ := same
  refine ⟨?_, ?_⟩
  · rw [opened, groups]
    exact h.groups
  · simp only [opened, List.countP_append, List.countP_singleton, not_open, not_close, decide_false]
    exact h.depth

def Took (done : List Token) (r : Reader) (ts : List Term) : Prop := Progress done r ts ∧ Nested done r

/-! ## One token -/

namespace Progress

variable {back : List Token}

theorem meets_bar (h : Progress done r ts) (nested : Nested done r) (is : t.kind = .bar) :
    (r.between limit .alternate t.span).Meets ts (Took (done ++ [t])) (Blamed (done ++ t :: back)) := by
  obtain ⟨span, kind⟩ := t
  cases is
  have wants : r.afterOperand = false →
      ∀ u ∈ ((⟨span, .bar⟩ : Token) :: back).head?, u.kind.wantsOperand = true := by
    rintro - _ ⟨⟩
    rfl
  refine (h.meets_release (by decide) wants).andThen ?_
  intro r' us ⟨kept, after, groups, tight⟩
  refine Or.inl (Reader.proceeds_push ⟨⟨?_, ?_⟩, ?_⟩)
  · refine (kept.toCounted.mono [⟨span, .bar⟩]).operator _ rfl ?_ fun none_left _ => ?_
    · rw [kept.after]
      cases Token.operandEnds false done <;> rfl
    · by_contra ends
      rw [Bool.not_eq_false] at ends
      refine kept.ne_nil (kept.after.trans ends) (fun p head => ?_) none_left
      exact Nat.lt_of_lt_of_le (tight p head) (by decide)
  · exact (Token.operandEnds_snoc false done ⟨span, .bar⟩).symm
  · exact nested.read (t := ⟨span, _⟩) ⟨groups.1, groups.2⟩ nofun nofun

theorem meets_quantify {q : Quantifier} (h : Progress done r ts) (nested : Nested done r)
    (is : t.kind = .quantifier q) :
    (r.quantify limit q t.span).Meets ts (Took (done ++ [t])) (Blamed (done ++ t :: back)) := by
  obtain ⟨span, kind⟩ := t
  cases is
  have wants : r.afterOperand = false →
      ∀ u ∈ ((⟨span, .quantifier q⟩ : Token) :: back).head?, u.kind.wantsOperand = true := by
    rintro - _ ⟨⟩
    rfl
  refine (h.meets_release (Operator.rank_quantify_pos q) wants).andThen ?_
  intro r' us ⟨kept, after, groups, _⟩
  refine Or.inl (Reader.proceeds_push ⟨⟨?_, ?_⟩, ?_⟩)
  · refine (kept.toCounted.mono [⟨span, .quantifier q⟩]).operator _ rfl ?_ nofun
    rw [kept.after]
    cases Token.operandEnds false done <;> rfl
  · exact (Token.operandEnds_snoc false done ⟨span, .quantifier q⟩).symm
  · exact nested.read (t := ⟨span, _⟩) ⟨groups.1, groups.2⟩ nofun nofun

/-- In front of an operand, a concatenation comes in if an operand was read before. -/
theorem meets_joined (h : Progress done r ts) (is : t.kind = .openParen ∨ ∃ a, t.kind = .atom a) :
    (r.joined limit t.span).Meets ts
      (fun r' us => Counted done (done ++ [t]) r' us ∧ r'.afterOperand = false ∧ r.SameGroups r')
      (Blamed (done ++ t :: back)) := by
  have wants_none : t.kind.wantsOperand = false := by
    rcases is with is | ⟨a, is⟩ <;> rw [is] <;> rfl
  have same : Token.missing false (done ++ [t]) = Token.missing false done := by
    rw [Token.missing_snoc, wants_none]
    rfl
  unfold Reader.joined
  split
  · next after =>
    refine (h.meets_release (by decide) fun none => ?_).andThen ?_
    · rw [after] at none
      cases none
    rintro r' us ⟨kept, after', groups, tight⟩
    rw [after] at after'
    have some_left : us ≠ [] := kept.ne_nil after' fun p head =>
      Nat.lt_of_lt_of_le (tight p head) (by decide)
    have debt := kept.debt
    simp only [Reader.debt, after', Bool.toNat_true] at debt
    refine Or.inl (Reader.proceeds_push ⟨⟨?_, fun none => absurd none some_left, ?_⟩, rfl, ?_⟩)
    · simp only [Reader.debt, Reader.countP_push]
      exact debt
    · intro p below suffix binary
      rcases List.suffix_cons_iff.mp suffix with top | suffix
      · cases top
        refine ⟨done, t, [], us.length, rfl, rfl, same ▸ debt, (fun alternate => ?_), fun _ =>
          ⟨is, ?_, ?_⟩⟩
        · cases alternate
        · exact kept.after.symm.trans after'
        · exact List.length_pos_iff.mpr some_left
      · exact (kept.toCounted.mono [t]).pushed p below suffix binary
    · exact ⟨groups.1, groups.2⟩
  · next before => exact Or.inl (.pure ⟨h.toCounted.mono [t], Bool.not_eq_true _ ▸ before, rfl, rfl⟩)

theorem meets_atom {a : Atom} (h : Progress done r ts) (nested : Nested done r)
    (is : t.kind = .atom a) :
    (r.atom limit a t.span).Meets ts (Took (done ++ [t])) (Blamed (done ++ t :: back)) := by
  refine (h.meets_joined (Or.inr ⟨a, is⟩)).andThen ?_
  rintro r' us ⟨kept, before, groups⟩
  have ends : Token.operandEnds false (done ++ [t]) = true := by
    rw [Token.operandEnds_snoc, is]
    rfl
  have same : Token.missing false (done ++ [t]) = Token.missing false done := by
    rw [Token.missing_snoc, is]
    rfl
  have debt := kept.debt
  simp only [Reader.debt, before, Bool.toNat_false] at debt
  refine Or.inl ⟨.atom a :: us, rfl, ⟨⟨?_, fun none => ?_, kept.pushed⟩, ends.symm⟩, ?_⟩
  · simp only [Reader.debt, Bool.toNat_true, List.length_cons, same]
    omega
  · cases none
  · have not_paren : t.kind ≠ .openParen ∧ t.kind ≠ .closeParen := by
      rw [is]
      constructor <;> rintro ⟨⟩
    exact nested.read ⟨groups.1, groups.2⟩ not_paren.1 not_paren.2

theorem meets_openGroup (h : Progress done r ts) (nested : Nested done r) (is : t.kind = .openParen) :
    (r.openGroup limit t.span).Meets ts (Took (done ++ [t])) (Blamed (done ++ t :: back)) := by
  have opening : Progress done
      { r with groups := r.groups + 1, opened := t.span :: r.opened } ts :=
    ⟨⟨h.debt, h.bare, h.pushed⟩, h.after⟩
  refine (opening.meets_joined (Or.inl is)).andThen ?_
  intro r' us ⟨kept, before, opened, groups⟩
  obtain ⟨span, kind⟩ := t
  cases is
  refine Or.inl (Reader.proceeds_push ⟨⟨?_, ?_⟩, ?_, ?_⟩)
  · refine kept.operator _ rfl ?_ nofun
    rw [before]
    rfl
  · exact (Token.operandEnds_snoc false done ⟨span, .openParen⟩).symm
  · have old := nested.groups
    dsimp only at opened groups
    simp only [opened, List.length_cons, List.countP_cons, groups]
    simp [old]
  · have old := nested.depth
    dsimp only at opened
    simp only [opened, List.length_cons, List.countP_append, List.countP_singleton, reduceCtorEq,
      decide_true, decide_false, Bool.false_eq_true, if_true, if_false]
    omega

theorem meets_closeGroup (h : Progress done r ts) (nested : Nested done r)
    (is : t.kind = .closeParen) (inside : r.opened ≠ []) :
    (r.closeGroup t.span).Meets ts (Took (done ++ [t])) (Blamed (done ++ t :: back)) := by
  obtain ⟨opening, opened, opens⟩ := List.exists_cons_of_ne_nil inside
  have groups := nested.groups
  rw [opens, List.length_cons] at groups
  obtain ⟨above, group, outside, split, taken, dropped, group_is, outer⟩ := exists_split_group groups
  unfold Reader.closeGroup
  simp only [opens, taken, dropped]
  have unary : group.isBinary = false := by
    rw [Pending.isBinary, group_is]
    rfl
  have split' : r.pending = (above ++ [group]) ++ outside := by
    rw [split, List.append_assoc]
    rfl
  have wants : r.afterOperand = false → ∀ u ∈ (t :: back).head?, u.kind.wantsOperand = true := by
    rintro - _ ⟨⟩
    rw [is]
    rfl
  rcases h.apply_cases split' wants fun _ _ _ => ⟨t, back, rfl, is⟩ with ⟨us, eval⟩ | lacks
  · refine Or.inl ⟨us, eval, ⟨⟨?_, ?_, ?_⟩, ?_⟩, ?_, ?_⟩
    · have debt := h.debt
      have counted := Step.length_evalAll_apply eval
      have more : Token.missing false (done ++ [t]) =
          Token.missing false done + (!r.afterOperand).toNat := by
        rw [Token.missing_snoc, is, h.after]
        rfl
      have flag : r.afterOperand.toNat + (!r.afterOperand).toNat = 1 := by
        cases r.afterOperand <;> rfl
      simp only [Reader.debt, split', List.countP_append, Bool.toNat_true, more] at debt counted ⊢
      omega
    · rintro rfl
      exact absurd (Step.eq_nil_of_evalAll_apply eval).1 (by simp)
    · intro p below suffix binary
      have deeper : p :: below <:+ r.pending := suffix.trans ⟨above ++ [group], split'.symm⟩
      exact (h.toCounted.mono [t]).pushed p below deeper binary
    · rw [Token.operandEnds_snoc, is]
      rfl
    · exact outer
    · have depth := nested.depth
      rw [opens, List.length_cons] at depth
      simp only [List.countP_append, List.countP_singleton, is, reduceCtorEq, decide_true,
        decide_false, Bool.false_eq_true, if_true, if_false]
      omega
  · obtain ⟨above', p, below, us, split, eval, lacking, blamed⟩ := lacks
    refine Or.inr ⟨above'.map .apply, p, below.map .apply, us, ?_, eval, lacking, blamed⟩
    simp only [split, List.map_append, List.map_cons]

theorem meets_token (h : Progress done r ts) (nested : Nested done r)
    (inside : t.kind = .closeParen → r.opened ≠ []) :
    (r.token limit t).Meets ts (Took (done ++ [t])) (Blamed (done ++ t :: back)) := by
  cases kind : t.kind with
  | atom a =>
    simp only [Reader.token, kind]
    exact h.meets_atom nested kind
  | quantifier q =>
    simp only [Reader.token, kind]
    exact h.meets_quantify nested kind
  | bar =>
    simp only [Reader.token, kind]
    exact h.meets_bar nested kind
  | openParen =>
    simp only [Reader.token, kind]
    exact h.meets_openGroup nested kind
  | closeParen =>
    simp only [Reader.token, kind]
    exact h.meets_closeGroup nested kind (inside kind)

end Progress

/-! ## The whole pattern -/

theorem Reader.meets_tokens {toks : List Token} (balanced : Balanced (done ++ toks))
    (h : Progress done r ts) (nested : Nested done r) :
    (r.tokens limit toks).Meets ts (Took (done ++ toks)) (Blamed (done ++ toks)) := by
  induction toks generalizing done r ts with
  | nil =>
    rw [List.append_nil]
    exact Or.inl (.pure ⟨h, nested⟩)
  | cons t toks ih =>
    have inside : t.kind = .closeParen → r.opened ≠ [] := by
      intro is none_open
      have enough := balanced.opened (done ++ [t]) toks (by simp)
      have depth := nested.depth
      rw [none_open, List.length_nil] at depth
      simp only [List.countP_append, List.countP_singleton, is] at enough
      simp at enough
      omega
    refine (h.meets_token nested inside).andThen fun r' us ⟨read, nested'⟩ => ?_
    rw [List.append_cons] at balanced ⊢
    exact ih balanced read nested'

/-- At the end of a pattern with balanced parentheses each operator finds its operands and what is left
is the one operand there is, or one of them is to blame. -/
theorem Progress.meets_finish (span : Span) (balanced : Balanced done) (h : Progress done r ts)
    (nested : Nested done r) :
    (r.finish limit span).Meets ts (fun joint us => us.length = joint.isSome.toNat) (Blamed done) := by
  have depth := nested.depth
  rw [balanced.closed, Nat.add_eq_right] at depth
  have groups := nested.groups
  rw [depth] at groups
  have free := List.countP_eq_zero.mp groups.symm
  have closed : r.opened = [] := List.length_eq_zero_iff.mp depth
  have ends : r.afterOperand = false → ∀ u ∈ ([] : List Token).head?, u.kind.wantsOperand = true :=
    fun _ _ => nofun
  have found := h.apply_cases (List.append_nil _).symm ends
    fun p member is => absurd (decide_eq_true is) (free p member)
  rw [List.append_nil] at found
  rcases found with ⟨us, eval⟩ | ⟨above, p, below, us, split, eval, lacking, blamed⟩
  · refine Or.inl (Reader.proceeds_finish closed eval ?_)
    have debt := h.debt
    have counted := Step.length_evalAll_apply eval
    have some_left : us.length = 0 → Token.missing false done = 0 := by
      intro empty
      cases List.length_eq_zero_iff.mp empty
      obtain ⟨none_waits, rfl⟩ := Step.eq_nil_of_evalAll_apply eval
      have bare := h.bare rfl
      rw [none_waits, List.forall₂_nil_left_iff, List.reverse_eq_nil_iff] at bare
      rw [bare]
      rfl
    simp only [Reader.debt] at debt
    cases after : r.afterOperand with
    | false =>
      rw [after, Bool.toNat_false] at debt
      have none_left : us.length = 0 := by omega
      exact none_left
    | true =>
      rw [after, Bool.toNat_true] at debt
      have one_left : us.length = 1 := by omega
      exact one_left
  · refine Or.inr ?_
    unfold Reader.finish
    simp only [closed]
    refine Polish.Lacks.andThen ⟨above.map .apply, p, below.map .apply, us, ?_, eval, lacking, blamed⟩
    rw [split, List.map_append, List.map_cons]

theorem Polish.meets_ofTokens {toks : List Token} (limit length : Nat) (balanced : Balanced toks) :
    (Polish.ofTokens limit length toks).Meets [] (fun joint us => us.length = joint.isSome.toNat)
      (Blamed toks) := by
  have begins : Progress [] Reader.start [] := by
    refine ⟨⟨rfl, fun _ => .nil, fun p below suffix => ?_⟩, rfl⟩
    exact absurd (List.suffix_nil.mp suffix) (List.cons_ne_nil p below)
  have whole : Balanced ([] ++ toks) := balanced
  refine (Reader.meets_tokens whole begins ⟨rfl, rfl⟩).andThen ?_
  intro r us ⟨read, nested⟩
  exact read.meets_finish _ balanced nested

end CursorRegex
