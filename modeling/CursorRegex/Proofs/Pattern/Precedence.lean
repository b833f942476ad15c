import CursorRegex.Proofs.Pattern.Reading
import CursorRegex.Proofs.Pattern.TreeReader
import CursorRegex.Proofs.Pattern.TreeTerm

/-! # Operator precedence finds the tree of the grammar

The stack of waiting operators and the stack of terms, taken together, hold at each moment what a tree
reader holds: `Follows` says how, to the last operator and group number.  Whatever token the tree reader
takes, the operators take as well, unless their stack is full (`Follows.token`).  So tokens that have a
tree lead to its term (`proceeds_ofTokens`).

The operators never check that their operands lie in their own group.  The count of operands makes up
for it: along a reading that ends well no token lacks an operand (`Follows.exists_tokens`), so the tree
reader gets through as well and finds the tree (`read_of_yields`). -/
set_option autoImplicit false

namespace CursorRegex

/-! ## Quantifiers that wait -/

namespace Quantified

variable {ps : List Pending} {qs : List Quantifier}

theorem exists_op_eq (waiting : ps.map (·.op) = qs.map .quantify) :
    ∀ p ∈ ps, ∃ q, p.op = .quantify q := by
  intro p member
  have op : p.op ∈ qs.map Operator.quantify := waiting ▸ List.mem_map_of_mem member
  obtain ⟨q, -, is⟩ := List.mem_map.mp op
  exact ⟨q, is.symm⟩

theorem rank_le (waiting : ps.map (·.op) = qs.map .quantify) : ∀ p ∈ ps, 3 ≤ p.op.rank := by
  intro p member
  obtain ⟨q, is⟩ := exists_op_eq waiting p member
  cases q <;> simp [is, Operator.rank]

theorem countP_eq (waiting : ps.map (·.op) = qs.map .quantify) :
    ps.countP (·.isBinary) = 0 := by
  rw [List.countP_eq_zero]
  intro p member
  obtain ⟨q, is⟩ := exists_op_eq waiting p member
  simp [Pending.isBinary, is, Operator.isBinary]

theorem evalAll_eq (waiting : ps.map (·.op) = qs.map .quantify) (e : Term) (rest : List Term) :
    Step.evalAll (e :: rest) (ps.map .apply) = some (e.repeatedBy qs :: rest) := by
  induction ps generalizing qs e with
  | nil =>
    cases qs with
    | nil => rfl
    | cons => cases waiting
  | cons p ps ih =>
    cases qs with
    | nil => cases waiting
    | cons q qs =>
      obtain ⟨op, waiting'⟩ := List.cons.inj waiting
      rw [Step.evalAll_apply_cons, Pending.eval_quantify rest op]
      exact ih waiting' (.repeated q e)

/-- The operators that go first when `q` comes in, and those that wait on, are those of the piece. -/
theorem waiting_split (q : Quantifier) (waiting : ps.map (·.op) = qs.map .quantify) :
    (ps.takeWhile (Operator.rank (.quantify q) ≤ ·.op.rank)).map (·.op) =
        (qs.takeWhile (yields q)).map .quantify ∧
      (ps.dropWhile (Operator.rank (.quantify q) ≤ ·.op.rank)).map (·.op) =
        (qs.dropWhile (yields q)).map .quantify := by
  have taken := congrArg (List.takeWhile fun op => decide (Operator.rank (.quantify q) ≤ op.rank)) waiting
  have dropped := congrArg (List.dropWhile fun op => decide (Operator.rank (.quantify q) ≤ op.rank)) waiting
  rw [List.takeWhile_map, List.takeWhile_map] at taken
  rw [List.dropWhile_map, List.dropWhile_map] at dropped
  exact ⟨taken, dropped⟩

end Quantified

/-! ## The two stacks and the tree reader -/

/-- The operator `op` waits behind the term of a tree, if there is a tree.  It has groups from `m` on,
and `n` were opened up to its end. -/
inductive Waits (op : Operator) (m : Nat) : Option Tree → List Pending → List Term → Nat → Prop where
  | absent : Waits op m none [] [] m
  | present {p : Pending} (t : Tree) (is : p.op = op) :
      Waits op m (some t) [p] [t.term m] (m + t.groupCount)

inductive PieceWaits (m : Nat) : Option Tree → List Pending → List Term → Nat → Prop where
  | absent : PieceWaits m none [] [] m
  | present {ps : List Pending} (t : Tree)
      (waiting : ps.map (·.op) = (t.quantified m).waiting.map .quantify) :
      PieceWaits m (some t) ps [(t.quantified m).core] (m + t.groupCount)

inductive OuterWaits : List (Span × Branch) → List Pending → List Term → Nat → Prop where
  | nil : OuterWaits [] [] [] 0
  | cons {outer : List (Span × Branch)} {a s : Option Tree} {g : Pending} {cs bs rs : List Pending}
      {ts us vs : List Term} {k l m : Nat} (is : g.op = .group) (number : g.group = groupNumber (m + 1))
      (pieces : Waits .concat l s cs ts m) (alternatives : Waits .alternate k a bs us l)
      (outside : OuterWaits outer rs vs k) :
      OuterWaits ((g.span, ⟨a, s⟩) :: outer) (g :: (cs ++ (bs ++ rs))) (ts ++ (us ++ vs)) (m + 1)

/-- The waiting operators and the terms together hold what a tree reader has read, with `n` groups. -/
inductive Stacked : List Pending → List Term → TreeReader → Nat → Prop where
  | mk {outer : List (Span × Branch)} {a s piece : Option Tree} {ps cs bs rs : List Pending}
      {es ts us vs : List Term} {k l m n : Nat} (last : PieceWaits m piece ps es n)
      (pieces : Waits .concat l s cs ts m) (alternatives : Waits .alternate k a bs us l)
      (outside : OuterWaits outer rs vs k) :
      Stacked (ps ++ (cs ++ (bs ++ rs))) (es ++ (ts ++ (us ++ vs))) ⟨outer, ⟨a, s⟩, piece⟩ n

namespace Waits

theorem op_eq {op : Operator} {t : Option Tree} {ps : List Pending} {es : List Term} {m n : Nat}
    (h : Waits op m t ps es n) : ∀ p ∈ ps, p.op = op := by
  cases h with
  | absent => simp
  | present t is =>
    intro p member
    rw [List.mem_singleton.mp member, is]

theorem length_eq {op : Operator} {t : Option Tree} {ps : List Pending} {es : List Term} {m n : Nat}
    (h : Waits op m t ps es n) (binary : op.isBinary = true) :
    ps.countP (·.isBinary) = es.length := by
  cases h with
  | absent => rfl
  | present t is => simp [Pending.isBinary, is, binary]

variable {a s : Option Tree} {cs bs : List Pending} {ts us : List Term} {k l m : Nat}

theorem eval_extend (h : Waits .concat l s cs ts m) (p : Tree) (rest : List Term) :
    Step.evalAll (p.term m :: (ts ++ rest)) (cs.map .apply) =
      some ((Branch.extend ⟨a, s⟩ p).term l :: rest) := by
  cases h with
  | absent => rfl
  | present d is =>
    rw [Step.evalAll_apply_singleton]
    exact Pending.eval_concat rest is (p.term (l + d.groupCount)) (d.term l)

theorem eval_close (h : Waits .alternate k a bs us l) (p : Tree) (rest : List Term) :
    Step.evalAll ((Branch.extend ⟨a, s⟩ p).term l :: (us ++ rest)) (bs.map .apply) =
      some ((Branch.close ⟨a, s⟩ p).term k :: rest) := by
  cases h with
  | absent => rfl
  | present d is =>
    rw [Step.evalAll_apply_singleton]
    exact Pending.eval_alternate rest is _ (d.term k)

theorem groupCount_extend (h : Waits .concat l s cs ts m) (p : Tree) :
    m + p.groupCount = l + (Branch.extend ⟨a, s⟩ p).groupCount := by
  cases h with
  | absent => rfl
  | present d is => exact Nat.add_assoc l d.groupCount p.groupCount

theorem groupCount_close (h : Waits .alternate k a bs us l) (p : Tree) :
    l + (Branch.extend ⟨a, s⟩ p).groupCount = k + (Branch.close ⟨a, s⟩ p).groupCount := by
  cases h with
  | absent => rfl
  | present d is => exact Nat.add_assoc k d.groupCount _

end Waits

namespace PieceWaits

variable {a s : Option Tree} {p : Tree} {ps cs bs : List Pending} {es ts us : List Term}
  {k l m n : Nat}

theorem rank_le {piece : Option Tree} (last : PieceWaits m piece ps es n) :
    ∀ q ∈ ps, 3 ≤ q.op.rank := by
  cases last with
  | absent => simp
  | present t waiting => exact Quantified.rank_le waiting

theorem rank_le_level {piece : Option Tree} (last : PieceWaits m piece ps es n)
    (pieces : Waits .concat l s cs ts m) (alternatives : Waits .alternate k a bs us l) :
    ∀ q ∈ ps ++ cs ++ bs, 1 ≤ q.op.rank := by
  intro q member
  rcases List.mem_append.mp member with front | barred
  · rcases List.mem_append.mp front with tight | joined
    · have := last.rank_le q tight
      omega
    · simp [pieces.op_eq q joined, Operator.rank]
  · simp [alternatives.op_eq q barred, Operator.rank]

theorem eval_extend (last : PieceWaits m (some p) ps es n) (pieces : Waits .concat l s cs ts m)
    (rest : List Term) : Step.evalAll (es ++ (ts ++ rest)) ((ps ++ cs).map .apply) =
      some ((Branch.extend ⟨a, s⟩ p).term l :: rest) := by
  cases last with
  | present _ waiting =>
    rw [List.map_append, Step.evalAll_append_eq_some]
    exact ⟨_, Quantified.evalAll_eq waiting _ _, pieces.eval_extend p rest⟩

theorem eval_close (last : PieceWaits m (some p) ps es n) (pieces : Waits .concat l s cs ts m)
    (alternatives : Waits .alternate k a bs us l) (rest : List Term) :
    Step.evalAll (es ++ (ts ++ (us ++ rest))) ((ps ++ cs ++ bs).map .apply) =
      some ((Branch.close ⟨a, s⟩ p).term k :: rest) := by
  rw [List.map_append, Step.evalAll_append_eq_some]
  exact ⟨_, last.eval_extend pieces (us ++ rest), alternatives.eval_close p rest⟩

theorem groupCount_extend (last : PieceWaits m (some p) ps es n) (pieces : Waits .concat l s cs ts m) :
    n = l + (Branch.extend ⟨a, s⟩ p).groupCount := by
  cases last with
  | present _ waiting => exact pieces.groupCount_extend p

theorem groupCount_close (last : PieceWaits m (some p) ps es n) (pieces : Waits .concat l s cs ts m)
    (alternatives : Waits .alternate k a bs us l) :
    n = k + (Branch.close ⟨a, s⟩ p).groupCount :=
  (last.groupCount_extend pieces).trans (alternatives.groupCount_close p)

end PieceWaits

/-! ## Where releasing stops -/

section Release

variable {α : Type} {keep : α → Bool} {front back : List α}

theorem takeWhile_append_stop (pass : ∀ a ∈ front, keep a = true)
    (stop : ∀ a ∈ back.head?, keep a = false) : (front ++ back).takeWhile keep = front := by
  rw [List.takeWhile_append_of_pos pass]
  cases back with
  | nil => simp
  | cons b back => simp [stop b rfl]

theorem dropWhile_append_stop (pass : ∀ a ∈ front, keep a = true)
    (stop : ∀ a ∈ back.head?, keep a = false) : (front ++ back).dropWhile keep = back := by
  rw [List.dropWhile_append_of_pos pass]
  cases back with
  | nil => simp
  | cons b back => simp [stop b rfl]

/-- What stops at the back stops there at the latest, whatever stands in front. -/
theorem split_append_stop (front : List α) (stop : ∀ a ∈ back.head?, keep a = false) :
    (front ++ back).takeWhile keep = front.takeWhile keep ∧
      (front ++ back).dropWhile keep = front.dropWhile keep ++ back := by
  induction front with
  | nil =>
    cases back with
    | nil => exact ⟨rfl, rfl⟩
    | cons b back => simp [stop b rfl]
  | cons a front ih =>
    cases passes : keep a with
    | true => simp [passes, ih.1, ih.2]
    | false => simp [passes]

end Release

theorem OuterWaits.head_eq {outer : List (Span × Branch)} {rs : List Pending} {vs : List Term} {k : Nat}
    (h : OuterWaits outer rs vs k) : ∀ p ∈ rs.head?, p.op = .group := by
  cases h with
  | nil => simp
  | cons is => simpa using is

theorem OuterWaits.length_eq {outer : List (Span × Branch)} {rs : List Pending} {vs : List Term}
    {k : Nat} (h : OuterWaits outer rs vs k) : rs.countP (·.isBinary) = vs.length := by
  induction h with
  | nil => rfl
  | cons is number pieces alternatives _ ih =>
    have fst := pieces.length_eq rfl
    have snd := alternatives.length_eq rfl
    simp only [List.countP_cons, List.countP_append, List.length_append, Pending.isBinary, is,
      Operator.isBinary] at *
    simp only [Bool.false_eq_true, if_false]
    omega

theorem Waits.head_eq {outer : List (Span × Branch)} {alternatives : Option Tree}
    {bs rs : List Pending} {us vs : List Term} {k l : Nat}
    (bars : Waits .alternate k alternatives bs us l) (outside : OuterWaits outer rs vs k) :
    ∀ p ∈ (bs ++ rs).head?, p.op = .alternate ∨ p.op = .group := by
  cases bars with
  | absent =>
    intro p member
    exact Or.inr (outside.head_eq p member)
  | present t is =>
    intro p member
    cases member
    exact Or.inl is

/-! ## One token at a time -/

namespace Stacked

variable {outer : List (Span × Branch)} {branch : Branch} {p : Tree} {ps : List Pending}
  {ts us : List Term} {c : Pending} {n : Nat}

theorem length_eq {r : TreeReader} (h : Stacked ps ts r n) :
    ts.length = ps.countP (·.isBinary) + r.piece.isSome.toNat := by
  cases h with
  | mk last pieces alternatives outside =>
    have fst := pieces.length_eq rfl
    have snd := alternatives.length_eq rfl
    have rest := outside.length_eq
    simp only [List.countP_append, List.length_append]
    cases last with
    | absent =>
      simp only [List.countP_nil, List.length_nil, Option.isSome_none, Bool.toNat_false]
      omega
    | present t waiting =>
      simp only [Quantified.countP_eq waiting, List.length_singleton, Option.isSome_some,
        Bool.toNat_true]
      omega

theorem atom (h : Stacked ps ts ⟨outer, branch, none⟩ n) (a : Atom) :
    Stacked ps (.atom a :: ts) ⟨outer, branch, some (.atom a)⟩ n := by
  cases h with
  | mk last pieces alternatives outside =>
    cases last with
    | absent => exact .mk (.present (.atom a) rfl) pieces alternatives outside

theorem openGroup (h : Stacked ps ts ⟨outer, branch, none⟩ n) (is : c.op = .group)
    (number : c.group = groupNumber (n + 1)) :
    Stacked (c :: ps) ts ⟨(c.span, branch) :: outer, .start, none⟩ (n + 1) := by
  cases h with
  | mk last pieces alternatives outside =>
    cases last with
    | absent =>
      have opened := Stacked.mk .absent .absent .absent (.cons is number pieces alternatives outside)
      exact opened

theorem concat (h : Stacked ps ts ⟨outer, branch, some p⟩ n) (is : c.op = .concat) :
    ∃ us, Step.evalAll ts ((ps.takeWhile (Operator.concat.rank ≤ ·.op.rank)).map .apply) = some us ∧
      Stacked (c :: ps.dropWhile (Operator.concat.rank ≤ ·.op.rank)) us
        ⟨outer, branch.settle (some p), none⟩ n := by
  cases h with
  | @mk _ a s _ qs cs bs rs es ts us' vs k l m _ last pieces alternatives outside =>
    have pass : ∀ q ∈ qs ++ cs, decide (Operator.concat.rank ≤ q.op.rank) = true := by
      intro q member
      rcases List.mem_append.mp member with tight | joined
      · exact decide_eq_true (Nat.le_trans (by decide) (last.rank_le q tight))
      · simp [pieces.op_eq q joined]
    have stop : ∀ q ∈ (bs ++ rs).head?, decide (Operator.concat.rank ≤ q.op.rank) = false := by
      intro q member
      rcases alternatives.head_eq outside q member with is | is <;> simp [is, Operator.rank]
    rw [← List.append_assoc qs, takeWhile_append_stop pass stop, dropWhile_append_stop pass stop]
    refine ⟨_, last.eval_extend (a := a) pieces (us' ++ vs), ?_⟩
    rw [last.groupCount_extend (a := a) pieces]
    exact .mk .absent (.present _ is) alternatives outside

theorem bar (h : Stacked ps ts ⟨outer, branch, some p⟩ n) (is : c.op = .alternate) :
    ∃ us, Step.evalAll ts ((ps.takeWhile (Operator.alternate.rank ≤ ·.op.rank)).map .apply) = some us ∧
      Stacked (c :: ps.dropWhile (Operator.alternate.rank ≤ ·.op.rank)) us
        ⟨outer, ⟨some (branch.close p), none⟩, none⟩ n := by
  cases h with
  | @mk _ a s _ qs cs bs rs es ts us' vs k l m _ last pieces alternatives outside =>
    have pass : ∀ q ∈ qs ++ cs ++ bs, decide (Operator.alternate.rank ≤ q.op.rank) = true := by
      intro q member
      exact decide_eq_true (last.rank_le_level pieces alternatives q member)
    have stop : ∀ q ∈ rs.head?, decide (Operator.alternate.rank ≤ q.op.rank) = false := by
      intro q member
      simp [outside.head_eq q member, Operator.rank]
    rw [← List.append_assoc cs, ← List.append_assoc qs, ← List.append_assoc qs,
      takeWhile_append_stop pass stop, dropWhile_append_stop pass stop]
    refine ⟨_, last.eval_close pieces alternatives vs, ?_⟩
    rw [last.groupCount_close pieces alternatives]
    exact .mk .absent .absent (.present _ is) outside

theorem closeGroup {opening : Span} {before : Branch}
    (h : Stacked ps ts ⟨(opening, before) :: outer, branch, some p⟩ n) :
    ∃ group outside us, ps.dropWhile (·.op ≠ .group) = group :: outside ∧
      Step.evalAll ts ((ps.takeWhile (·.op ≠ .group) ++ [group]).map .apply) = some us ∧
      Stacked outside us ⟨outer, before, some (.group opening (branch.close p))⟩ n := by
  cases h with
  | @mk _ a s _ qs cs bs rs es ts us' vs k l m _ last pieces alternatives outside =>
    have pass : ∀ q ∈ qs ++ cs ++ bs, decide (q.op ≠ .group) = true := by
      intro q member
      have loose := last.rank_le_level pieces alternatives q member
      refine decide_eq_true (fun is => ?_)
      rw [is] at loose
      exact absurd loose (by decide)
    have stop : ∀ q ∈ rs.head?, decide (q.op ≠ .group) = false := by
      intro q member
      simp [outside.head_eq q member]
    rw [← List.append_assoc cs, ← List.append_assoc qs, ← List.append_assoc qs,
      takeWhile_append_stop pass stop, dropWhile_append_stop pass stop]
    have counted := last.groupCount_close pieces alternatives
    cases outside with
    | @cons _ a' s' g cs' bs' rs' ts' us'' vs' k' l' m' is number pieces' alternatives' outside' =>
      have closed := last.eval_close pieces alternatives (ts' ++ (us'' ++ vs'))
      have grouped := Pending.eval_group (ts' ++ (us'' ++ vs')) is
        ((Branch.close ⟨a, s⟩ p).term (m' + 1))
      rw [number] at grouped
      have counted' : n = m' + (Tree.group g.span (Branch.close ⟨a, s⟩ p)).groupCount := by
        rw [counted, Tree.groupCount, Nat.add_assoc, Nat.add_comm 1]
      have piece : PieceWaits m' (some (.group g.span (Branch.close ⟨a, s⟩ p))) [] _ _ :=
        .present _ rfl
      rw [← counted'] at piece
      refine ⟨g, _, (Tree.group g.span (Branch.close ⟨a, s⟩ p)).term m' :: (ts' ++ (us'' ++ vs')), rfl,
        ?_, .mk piece pieces' alternatives' outside'⟩
      rw [List.map_append, Step.evalAll_append_eq_some]
      exact ⟨_, closed, (Step.evalAll_apply_singleton _ g).trans grouped⟩

theorem quantify {q : Quantifier} (h : Stacked ps ts ⟨outer, branch, some p⟩ n)
    (is : c.op = .quantify q) :
    ∃ us, Step.evalAll ts
        ((ps.takeWhile (Operator.rank (.quantify q) ≤ ·.op.rank)).map .apply) = some us ∧
      Stacked (c :: ps.dropWhile (Operator.rank (.quantify q) ≤ ·.op.rank)) us
        ⟨outer, branch, some (.repeated q p)⟩ n := by
  cases h with
  | @mk _ a s _ qs cs bs rs es ts us' vs k l m _ last pieces alternatives outside =>
    have stop : ∀ k ∈ (cs ++ (bs ++ rs)).head?,
        decide (Operator.rank (.quantify q) ≤ k.op.rank) = false := by
      intro k member
      have loose : k.op = .concat ∨ k.op = .alternate ∨ k.op = .group := by
        cases pieces with
        | absent => exact Or.inr (alternatives.head_eq outside k member)
        | present _ here =>
          cases member
          exact Or.inl here
      rcases loose with here | here | here <;> cases q <;> simp [here, Operator.rank]
    obtain ⟨taken, dropped⟩ := split_append_stop qs stop
    rw [taken, dropped]
    cases last with
    | present _ waiting =>
      obtain ⟨first, later⟩ := Quantified.waiting_split q waiting
      refine ⟨_, Quantified.evalAll_eq first _ _, ?_⟩
      have waiting' : (c :: qs.dropWhile (Operator.rank (.quantify q) ≤ ·.op.rank)).map (·.op) =
          ((Tree.repeated q p).quantified m).waiting.map .quantify := by
        rw [List.map_cons, is, later]
        rfl
      exact .mk (.present (.repeated q p) waiting') pieces alternatives outside

theorem finish (h : Stacked ps ts ⟨[], branch, some p⟩ n) :
    Step.evalAll ts (ps.map .apply) = some [(branch.close p).term 0] := by
  cases h with
  | mk last pieces alternatives outside =>
    cases outside with
    | nil =>
      have closed := last.eval_close pieces alternatives []
      simpa only [List.append_nil, List.append_assoc] using closed

theorem eq_start_of_finish (h : Stacked ps ts ⟨[], branch, none⟩ n)
    (eval : Step.evalAll ts (ps.map .apply) = some []) : branch = .start := by
  cases ps with
  | cons q ps =>
    rw [← List.dropLast_concat_getLast (List.cons_ne_nil q ps), List.map_append,
      Step.evalAll_append_eq_some] at eval
    obtain ⟨us₁, _, last⟩ := eval
    rw [Step.evalAll_apply_singleton] at last
    exact absurd rfl (Pending.length_eval last).2
  | nil =>
    generalize none : ([] : List Pending) = qs at h
    cases h with
    | mk last pieces alternatives outside =>
      cases pieces with
      | present =>
        cases last
        cases none
      | absent =>
        cases alternatives with
        | present =>
        cases last
        cases none
        | absent => rfl

theorem eq_nil_of_start (h : Stacked ps ts ⟨[], .start, none⟩ n) : ps = [] ∧ ts = [] := by
  generalize start : TreeReader.mk [] .start none = r at h
  cases h with
  | mk last pieces alternatives outside =>
    cases start
    cases last
    cases pieces
    cases alternatives
    cases outside
    exact ⟨rfl, rfl⟩

end Stacked

/-! ## A whole pattern -/

/-- A reader with its stack of terms has read what a tree reader has read. -/
structure Follows (r : Reader) (ts : List Term) (s : TreeReader) : Prop where
  stacked : Stacked r.pending ts s r.groups
  afterOperand : r.afterOperand = s.piece.isSome
  opened : r.opened = s.outer.map (·.1)

namespace Follows

variable {limit : Nat} {span : Span} {r r' : Reader} {ts us : List Term} {s s' : TreeReader}

theorem start : Follows .start [] .start := ⟨.mk .absent .absent .absent .nil, rfl, rfl⟩

theorem length_eq (h : Follows r ts s) : ts.length = r.debt := by
  rw [h.stacked.length_eq, Reader.debt, h.afterOperand]

theorem joined {n : Nat} (stacked : Stacked r.pending ts s n)
    (after : r.afterOperand = s.piece.isSome) :
    (r.joined limit span).Proceeds ts fun r' us =>
      Stacked r'.pending us ⟨s.outer, s.branch.settle s.piece, none⟩ n ∧ r'.afterOperand = false ∧
        r'.groups = r.groups ∧ r'.opened = r.opened := by
  obtain ⟨outer, branch, piece⟩ := s
  cases piece with
  | none =>
    refine Reader.proceeds_joined (fun yes => ?_) fun no => ⟨stacked, no, rfl, rfl⟩
    simp [after] at yes
  | some p =>
    refine Reader.proceeds_joined (fun _ => ?_) fun no => ?_
    · obtain ⟨us, eval, stacked'⟩ := stacked.concat (c := ⟨.concat, span, r.number⟩) rfl
      exact Reader.proceeds_between eval ⟨stacked', rfl, rfl, rfl⟩
    · simp [after] at no

/-- What the tree reader takes, the operators take. -/
theorem token {t : Token} (h : Follows r ts s) (step : s.token t = some s') :
    (r.token limit t).Proceeds ts fun r' us => Follows r' us s' := by
  obtain ⟨span, kind⟩ := t
  obtain ⟨outer, branch, piece⟩ := s
  obtain ⟨stacked, after, opened⟩ := h
  cases kind with
  | atom a =>
    cases step
    refine Reader.proceeds_atom ((joined stacked after).mono ?_)
    rintro r' us ⟨stacked', -, groups, opened'⟩
    exact ⟨(groups ▸ stacked').atom a, rfl, opened'.trans opened⟩
  | openParen =>
    cases step
    refine Reader.proceeds_openGroup ((joined (r := { r with
      groups := r.groups + 1, opened := span :: r.opened }) stacked after).mono ?_)
    rintro r' us ⟨stacked', -, groups, opened'⟩
    have number : r'.number = groupNumber (r.groups + 1) := by rw [Reader.number, groups]; rfl
    refine ⟨?_, rfl, ?_⟩
    · rw [groups]
      exact stacked'.openGroup rfl number
    · rw [opened', List.map_cons, opened]
  | quantifier q =>
    cases piece with
    | none => cases step
    | some p =>
      cases step
      obtain ⟨us, eval, stacked'⟩ := stacked.quantify (c := ⟨.quantify q, span, r.number⟩) rfl
      exact Reader.proceeds_quantify eval ⟨stacked', rfl, opened⟩
  | bar =>
    cases piece with
    | none => cases step
    | some p =>
      cases step
      obtain ⟨us, eval, stacked'⟩ := stacked.bar (c := ⟨.alternate, span, r.number⟩) rfl
      exact Reader.proceeds_between eval ⟨stacked', rfl, opened⟩
  | closeParen =>
    cases piece with
    | none => cases outer <;> cases step
    | some p =>
      cases outer with
      | nil => cases step
      | cons innermost outer =>
        cases step
        obtain ⟨group, outside, us, rest, eval, stacked'⟩ := stacked.closeGroup
        exact Reader.proceeds_closeGroup opened rest eval ⟨stacked', rfl, rfl⟩

theorem tokens {toks : List Token} (h : Follows r ts s) (run : s.tokens toks = some s') :
    (r.tokens limit toks).Proceeds ts fun r' us => Follows r' us s' := by
  induction toks generalizing r ts s with
  | nil =>
    cases run
    exact .pure h
  | cons t toks ih =>
    rw [TreeReader.tokens_cons, Option.bind_eq_some_iff] at run
    obtain ⟨s₁, step, rest⟩ := run
    exact (h.token step).andThen fun r₁ us₁ follows => ih follows rest

theorem finish {t : Option Tree} (h : Follows r ts s) (ends : s.finish = some t) :
    (r.finish limit span).Proceeds ts fun joint us =>
      us = (t.map (·.term 0)).toList ∧ joint.isSome = t.isSome ∧ ∀ p ∈ joint, p.op = .concat := by
  obtain ⟨outer, branch, piece⟩ := s
  obtain ⟨stacked, after, opened⟩ := h
  cases outer with
  | cons => cases piece <;> cases ends
  | nil =>
    cases piece with
    | some p =>
      cases ends
      refine Reader.proceeds_finish opened stacked.finish ?_
      rw [after]
      exact ⟨rfl, rfl, fun p is => by cases is; rfl⟩
    | none =>
      obtain ⟨_ | a, _ | s⟩ := branch
      · cases ends
        obtain ⟨nil, rfl⟩ := stacked.eq_nil_of_start
        refine Reader.proceeds_finish opened (by rw [nil]; rfl) ?_
        rw [after]
        exact ⟨rfl, rfl, nofun⟩
      all_goals cases ends

/-! ## Operands are never borrowed from outside -/

/-- A token that does not lack an operand is taken by the tree reader. -/
theorem exists_token {t : Token} (h : Follows r ts s) (step : (r.token limit t).Settles ts r' us)
    (wanted : (t.kind.wantsOperand && !r.afterOperand) = false) : ∃ s', s.token t = some s' := by
  obtain ⟨span, kind⟩ := t
  obtain ⟨outer, branch, piece⟩ := s
  obtain ⟨stacked, after, opened⟩ := h
  cases kind with
  | atom a => exact ⟨_, rfl⟩
  | openParen => exact ⟨_, rfl⟩
  | quantifier q | bar =>
    cases piece with
    | none => simp [TokenKind.wantsOperand, after] at wanted
    | some p => exact ⟨_, rfl⟩
  | closeParen =>
    cases piece with
    | none => simp [TokenKind.wantsOperand, after] at wanted
    | some p =>
      obtain ⟨opening, rest, -, -, opens, -⟩ := Reader.settles_closeGroup step
      cases outer with
      | nil => cases opens.symm.trans opened
      | cons innermost outer => exact ⟨_, rfl⟩

theorem exists_tokens {toks : List Token} (h : Follows r ts s)
    (run : (r.tokens limit toks).Settles ts r' us) (enough : r'.debt ≤ us.length) :
    ∃ s', s.tokens toks = some s' ∧ Follows r' us s' := by
  induction toks generalizing r ts s with
  | nil =>
    obtain ⟨rfl, rfl⟩ := Polish.settles_pure.mp run
    exact ⟨s, rfl, h⟩
  | cons t toks ih =>
    obtain ⟨r₁, us₁, first, rest⟩ := Polish.settles_andThen.mp run
    have wanted : (t.kind.wantsOperand && !r.afterOperand) = false := by
      have exact := h.length_eq
      have head := Reader.debt_token first
      have tail := Reader.debt_tokens rest
      cases lacks : (t.kind.wantsOperand && !r.afterOperand) with
      | false => rfl
      | true =>
        rw [lacks, Bool.toNat_true] at head
        omega
    obtain ⟨s₁, step⟩ := h.exists_token first wanted
    obtain ⟨s', more, follows'⟩ := ih ((h.token step).of_settles first) rest
    refine ⟨s', ?_, follows'⟩
    rw [TreeReader.tokens_cons, step, Option.bind_some, more]

end Follows

/-- Tokens that have a tree lead to its term, if there is room for the operators. -/
theorem proceeds_ofTokens {limit length : Nat} {toks : List Token} {t : Option Tree}
    (read : TreeReader.read toks = some t) :
    (Polish.ofTokens limit length toks).Proceeds [] fun joint us =>
      us = (t.map (·.term 0)).toList ∧ joint.isSome = t.isSome ∧ ∀ p ∈ joint, p.op = .concat := by
  rw [TreeReader.read, Option.bind_eq_some_iff] at read
  obtain ⟨s, run, ends⟩ := read
  exact (Follows.start.tokens run).andThen fun r us follows => follows.finish ends

/-- The sequence denotes one term, and asks to have it joined to the end of a program, or denotes
nothing. -/
inductive Polish.Yields (x : Polish (Option Pending)) : Option Term → Prop where
  | nothing (settles : x.Settles [] none []) : Yields x none
  | term {p : Pending} {e : Term} (is : p.op = .concat) (settles : x.Settles [] (some p) [e]) :
      Yields x (some e)

theorem Polish.Yields.exists_settles {x : Polish (Option Pending)} {o : Option Term}
    (h : x.Yields o) : ∃ joint, x.Settles [] joint o.toList ∧ joint.isSome = o.isSome := by
  cases h with
  | nothing settles => exact ⟨none, settles, rfl⟩
  | term is settles => exact ⟨_, settles, rfl⟩

/-- A sequence that leaves one operand, or none where nothing was read, comes from tokens with a
tree. -/
theorem exists_read {limit length : Nat} {toks : List Token} {joint : Option Pending} {us : List Term}
    (settles : (Polish.ofTokens limit length toks).Settles [] joint us)
    (count : us.length = joint.isSome.toNat) : ∃ t, TreeReader.read toks = some t := by
  obtain ⟨r, ts, run, ends⟩ := Polish.settles_andThen.mp settles
  obtain ⟨unopened, eval, joined⟩ := Reader.settles_finish ends
  have after : r.afterOperand = joint.isSome := by
    cases is : r.afterOperand with
    | true =>
      simp only [is, if_true] at joined
      obtain ⟨number, rfl⟩ := joined
      rfl
    | false =>
      simp only [is, Bool.false_eq_true, if_false] at joined
      rw [joined]
      rfl
  have settled := Step.length_evalAll_apply eval
  have enough : r.debt ≤ ts.length := by
    rw [Reader.debt, after]
    omega
  obtain ⟨⟨outer, branch, piece⟩, reads, stacked, after', opened⟩ :=
    Follows.start.exists_tokens run enough
  rw [unopened] at opened
  have outer_nil : outer = [] := List.map_eq_nil_iff.mp opened.symm
  subst outer_nil
  cases piece with
  | some p => exact ⟨some (branch.close p), by rw [TreeReader.read, reads]; rfl⟩
  | none =>
    have nothing : us = [] := by
      rw [after] at after'
      rw [after'] at count
      exact List.length_eq_zero_iff.mp count
    rw [nothing] at eval
    have branch_start := stacked.eq_start_of_finish eval
    subst branch_start
    exact ⟨none, by rw [TreeReader.read, reads]; rfl⟩

/-- What the sequence denotes is the term of the tree that the tokens have. -/
theorem read_of_yields {limit length : Nat} {toks : List Token} {o : Option Term}
    (h : (Polish.ofTokens limit length toks).Yields o) :
    ∃ t, TreeReader.read toks = some t ∧ o = t.map (·.term 0) := by
  obtain ⟨joint, settles, some_iff⟩ := h.exists_settles
  have count : o.toList.length = joint.isSome.toNat := by
    rw [some_iff]
    cases o <;> rfl
  obtain ⟨t, read⟩ := exists_read settles count
  obtain ⟨same, -, -⟩ := (proceeds_ofTokens read).of_settles settles
  refine ⟨t, read, ?_⟩
  cases o <;> cases t <;> simp_all

end CursorRegex
