import CursorRegex.Proofs.Outcome
import CursorRegex.Proofs.Pattern.Shortfall

/-! # How many operators wait

From one open group to the next the waiting operators bind ever more tightly, and only alternation and
concatenation can wait below a group (`Tiered`).  So at most three operators wait for each open group, and
as many more as the rank of the last (`Tiered.length_le`).  Every operation of the reader keeps this, on
whatever pattern, and never looks for a group that does not wait (`Reader.concludes_token`).  What can end
a reading is an unmatched parenthesis, or a stack with too little room for the groups that are open
(`Reader.Refuses`). -/
set_option autoImplicit false

namespace CursorRegex

def topRank : List Pending → Nat
  | [] => 0
  | p :: _ => p.op.rank

inductive Tiered : List Pending → Prop where
  | nil : Tiered []
  | group {p : Pending} {below : List Pending} (is : p.op = .group) (loose : topRank below ≤ 2)
      (rest : Tiered below) : Tiered (p :: below)
  | tighter {p : Pending} {below : List Pending} (above : topRank below < p.op.rank)
      (rest : Tiered below) : Tiered (p :: below)

theorem Operator.rank_le (op : Operator) : op.rank ≤ 5 := by
  cases op with
  | group | alternate | concat => decide
  | quantify q => cases q <;> decide

theorem topRank_release (op : Operator) (binds : 0 < op.rank) (ps : List Pending) :
    topRank (ps.dropWhile (op.rank ≤ ·.op.rank)) < op.rank := by
  have head := rank_head_release op ps
  cases rest : ps.dropWhile (op.rank ≤ ·.op.rank) with
  | nil => exact binds
  | cons p below =>
    rw [rest] at head
    exact head p rfl

namespace Tiered

variable {ps qs : List Pending}

theorem of_suffix (h : Tiered ps) (suffix : qs <:+ ps) : Tiered qs := by
  induction h with
  | nil =>
    rw [List.suffix_nil.mp suffix]
    exact .nil
  | group is loose rest ih =>
    rcases List.suffix_cons_iff.mp suffix with rfl | below
    · exact .group is loose rest
    · exact ih below
  | tighter above rest ih =>
    rcases List.suffix_cons_iff.mp suffix with rfl | below
    · exact .tighter above rest
    · exact ih below

theorem length_le (h : Tiered ps) :
    ps.length ≤ 3 * ps.countP (·.op = .group) + topRank ps := by
  induction h with
  | nil => exact Nat.le_refl 0
  | @group p below is loose rest ih =>
    have none_above : topRank (p :: below) = 0 := by rw [topRank, is]; rfl
    have one_more : (p :: below).countP (·.op = .group) = below.countP (·.op = .group) + 1 :=
      List.countP_cons_of_pos (decide_eq_true is)
    rw [List.length_cons, one_more, none_above]
    omega
  | @tighter p below above rest ih =>
    have not_group : p.op ≠ .group := by
      intro is
      rw [is] at above
      exact Nat.not_lt_zero _ above
    have no_more : (p :: below).countP (·.op = .group) = below.countP (·.op = .group) :=
      List.countP_cons_of_neg (by simpa using not_group)
    rw [List.length_cons, no_more, topRank]
    omega

theorem release (h : Tiered ps) {p : Pending} (binds : 0 < p.op.rank) :
    Tiered (p :: ps.dropWhile (p.op.rank ≤ ·.op.rank)) :=
  .tighter (topRank_release p.op binds ps) (h.of_suffix (List.dropWhile_suffix _))

end Tiered

namespace Polish

variable {α β : Type} {x : Polish α} {f : α → Polish β}

theorem result_andThen : (x.andThen f).result = x.result >>= fun a => (f a).result := by
  obtain ⟨steps, result⟩ := x
  cases result <;> rfl

theorem concludes_andThen {failed : Cause → Prop} {mid : α → Prop} {post : β → Prop}
    (h : Concludes failed mid x.result)
    (next : ∀ a, mid a → Concludes failed post (f a).result) :
    Concludes failed post (x.andThen f).result := by
  rw [result_andThen]
  exact h.bind next

end Polish

/-! ## One token -/

/-- What is true of the reader after the tokens `done`, however many operands are missing. -/
structure Orderly (done : List Token) (r : Reader) : Prop extends Nested done r where
  tiers : Tiered r.pending
  loose : r.afterOperand = false → topRank r.pending ≤ 2

namespace Reader

/-- Why a reading ends at a place where `depth` groups are open. -/
inductive Refuses (limit depth : Nat) : Cause → Prop where
  | full (small : limit < 3 * depth + 6) : Refuses limit depth (.operatorOverflow limit)
  | illFormed (e : SyntaxError) : Refuses limit depth (.illFormed e)

variable {limit depth : Nat} {span : Span} {r r' : Reader} {done : List Token} {t : Token}

theorem concludes_push {op : Operator} (room : r.pending.length ≤ 3 * depth + 4) :
    Concludes (Refuses limit depth)
      (fun r' => r' = { r with pending := ⟨op, span, r.number⟩ :: r.pending })
      (r.push limit op span).result := by
  unfold push
  split
  · exact .full (by omega)
  · rfl

/-- Something other than a group comes in. -/
theorem concludes_push_released (op : Operator) (after : Bool) (binds : 0 < op.rank)
    (tiers : Tiered r.pending) (deep : r.pending.countP (·.op = .group) ≤ depth) :
    Concludes (Refuses limit depth)
      (fun r' => r.SameGroups r' ∧ Tiered r'.pending ∧ topRank r'.pending = op.rank ∧
        r'.afterOperand = after)
      (push limit op span { r with
        pending := r.pending.dropWhile (op.rank ≤ ·.op.rank), afterOperand := after }).result := by
  have kept := tiers.of_suffix (List.dropWhile_suffix (op.rank ≤ ·.op.rank))
  have groups := countP_group_release binds r.pending
  have length := kept.length_le
  have top := topRank_release op binds r.pending
  have rank := op.rank_le
  rw [groups] at length
  refine (concludes_push (by dsimp only; omega)).mono (fun _ => id) ?_
  rintro r' rfl
  refine ⟨⟨rfl, ?_⟩, tiers.release (p := ⟨op, span, _⟩) binds, rfl, rfl⟩
  have not_group : op ≠ .group := by
    rintro rfl
    exact Nat.lt_irrefl 0 binds
  dsimp only
  rw [List.countP_cons_of_neg (by simpa using not_group), groups]

theorem concludes_between (op : Operator) (binds : 0 < op.rank) (tiers : Tiered r.pending)
    (deep : r.pending.countP (·.op = .group) ≤ depth) :
    Concludes (Refuses limit depth)
      (fun r' => r.SameGroups r' ∧ Tiered r'.pending ∧ topRank r'.pending = op.rank ∧
        r'.afterOperand = false) (r.between limit op span).result :=
  concludes_push_released op false binds tiers deep

theorem concludes_joined (tiers : Tiered r.pending) (loose : r.afterOperand = false → topRank r.pending ≤ 2)
    (deep : r.pending.countP (·.op = .group) ≤ depth) :
    Concludes (Refuses limit depth)
      (fun r' => r.SameGroups r' ∧ Tiered r'.pending ∧ topRank r'.pending ≤ 2 ∧
        r'.afterOperand = false) (r.joined limit span).result := by
  unfold joined
  split
  · refine (concludes_between .concat (by decide) tiers deep).mono (fun _ => id) ?_
    rintro r' ⟨groups, tiers', top, before⟩
    exact ⟨groups, tiers', Nat.le_of_eq top, before⟩
  · next before =>
    rw [Bool.not_eq_true] at before
    exact ⟨⟨rfl, rfl⟩, tiers, loose before, before⟩

theorem concludes_openGroup (h : Orderly done r) (is : t.kind = .openParen)
    (deep : r.opened.length + 1 ≤ depth) :
    Concludes (Refuses limit depth) (Orderly (done ++ [t])) (r.openGroup limit t.span).result := by
  have groups := h.groups
  refine Polish.concludes_andThen (concludes_joined h.tiers h.loose (by dsimp only; omega)) ?_
  rintro r' ⟨⟨opened, same⟩, tiers, top, before⟩
  have length := tiers.length_le
  dsimp only at opened same
  refine (concludes_push (by dsimp only; omega)).mono (fun _ => id) ?_
  rintro r'' rfl
  refine ⟨⟨?_, ?_⟩, .group rfl top tiers, fun _ => Nat.zero_le 2⟩
  · dsimp only
    rw [opened, List.length_cons, List.countP_cons_of_pos rfl, same, groups]
  · have old := h.depth
    dsimp only
    simp only [opened, List.length_cons, List.countP_append, List.countP_singleton, is, reduceCtorEq,
      decide_true, decide_false, Bool.false_eq_true, if_true, if_false]
    omega

theorem concludes_closeGroup (h : Orderly done r) (is : t.kind = .closeParen) :
    Concludes (Refuses limit depth) (Orderly (done ++ [t])) (r.closeGroup t.span).result := by
  have groups := h.groups
  unfold closeGroup
  cases opens : r.opened with
  | nil => exact .illFormed _
  | cons opening opened =>
    rw [opens, List.length_cons] at groups
    obtain ⟨above, group, outside, split, -, dropped, -, outer⟩ := exists_split_group groups
    simp only [dropped]
    have suffix : outside <:+ r.pending := ⟨above ++ [group], by rw [split, List.append_assoc]; rfl⟩
    refine ⟨⟨outer, ?_⟩, h.tiers.of_suffix suffix, nofun⟩
    have depth := h.depth
    rw [opens, List.length_cons] at depth
    simp only [List.countP_append, List.countP_singleton, is, reduceCtorEq, decide_true, decide_false,
      Bool.false_eq_true, if_true, if_false]
    omega

theorem concludes_token (h : Orderly done r)
    (deep : (done ++ [t]).countP (·.kind = .openParen) ≤
      (done ++ [t]).countP (·.kind = .closeParen) + depth) :
    Concludes (Refuses limit depth) (Orderly (done ++ [t])) (r.token limit t).result := by
  have groups := h.groups
  have inside := h.depth
  simp only [List.countP_append, List.countP_singleton] at deep
  cases kind : t.kind with
  | atom a =>
    simp only [token, kind]
    simp only [kind, reduceCtorEq, decide_false, Bool.false_eq_true, if_false] at deep
    refine Polish.concludes_andThen (concludes_joined h.tiers h.loose (by omega)) ?_
    rintro r' ⟨same, tiers, -, -⟩
    exact ⟨h.read ⟨same.1, same.2⟩ (by simp [kind]) (by simp [kind]), tiers, by simp⟩
  | quantifier q =>
    simp only [token, kind]
    simp only [kind, reduceCtorEq, decide_false, Bool.false_eq_true, if_false] at deep
    have binds := Operator.rank_quantify_pos q
    refine (concludes_push_released (.quantify q) true binds h.tiers (by omega)).mono
      (fun _ => id) ?_
    rintro r' ⟨same, tiers, -, after⟩
    exact ⟨h.read same (by simp [kind]) (by simp [kind]), tiers, by simp [after]⟩
  | bar =>
    simp only [token, kind]
    simp only [kind, reduceCtorEq, decide_false, Bool.false_eq_true, if_false] at deep
    refine (concludes_between .alternate (by decide) h.tiers (by omega)).mono (fun _ => id) ?_
    rintro r' ⟨same, tiers, top, -⟩
    exact ⟨h.read same (by simp [kind]) (by simp [kind]), tiers, fun _ => by rw [top]; decide⟩
  | openParen =>
    simp only [token, kind]
    simp only [kind, reduceCtorEq, decide_true, decide_false, Bool.false_eq_true, if_true,
      if_false] at deep
    exact concludes_openGroup h kind (by omega)
  | closeParen =>
    simp only [token, kind]
    exact concludes_closeGroup h kind

end Reader

/-! ## The whole pattern -/

/-- At no place in a pattern are more than `depth` groups open. -/
def OpensAtMost (depth : Nat) (toks : List Token) : Prop :=
  ∀ front back, toks = front ++ back →
    front.countP (·.kind = .openParen) ≤ front.countP (·.kind = .closeParen) + depth

theorem OpensAtMost.front {depth : Nat} {front back : List Token}
    (h : OpensAtMost depth (front ++ back)) : OpensAtMost depth front := by
  intro more behind split
  exact h more (behind ++ back) (by rw [split, List.append_assoc])

theorem opensAtMost_countP (toks : List Token) :
    OpensAtMost (toks.countP (·.kind = .openParen)) toks := by
  rintro front back rfl
  rw [List.countP_append]
  omega

namespace Reader

variable {limit depth : Nat} {span : Span} {r r' : Reader} {done toks : List Token}

theorem exists_tokens_front {front back : List Token}
    (read : (r.tokens limit (front ++ back)).result = .ok r') :
    ∃ mid, (r.tokens limit front).result = .ok mid := by
  induction front generalizing r with
  | nil => exact ⟨r, rfl⟩
  | cons t front ih =>
    have read : ((r.token limit t).andThen (tokens limit · (front ++ back))).result = .ok r' := read
    rw [Polish.result_andThen, bind_eq_ok] at read
    obtain ⟨r₁, first, rest⟩ := read
    obtain ⟨mid, read'⟩ := ih rest
    refine ⟨mid, ?_⟩
    rw [tokens, Polish.result_andThen, first]
    exact read'

theorem concludes_tokens (h : Orderly done r) (deep : OpensAtMost depth (done ++ toks)) :
    Concludes (Refuses limit depth) (Orderly (done ++ toks)) (r.tokens limit toks).result := by
  induction toks generalizing done r with
  | nil =>
    rw [List.append_nil]
    exact h
  | cons t toks ih =>
    rw [List.append_cons] at deep ⊢
    exact Polish.concludes_andThen (concludes_token h (deep (done ++ [t]) toks rfl))
      fun r' read => ih read deep

theorem orderly_start : Orderly [] start := ⟨⟨rfl, rfl⟩, .nil, fun _ => Nat.zero_le 2⟩

theorem concludes_tokens_start {front back : List Token} (limit : Nat)
    (deep : OpensAtMost depth (front ++ back)) :
    Concludes (Refuses limit depth) (Orderly front) (start.tokens limit front).result :=
  concludes_tokens orderly_start deep.front

theorem concludes_finish (limit depth : Nat) (span : Span) (r : Reader) :
    Concludes (Refuses limit depth) (fun _ => r.opened = []) (r.finish limit span).result := by
  unfold finish
  split
  · exact .illFormed _
  · next closed =>
    have settled : Concludes (Refuses limit depth) (· = { r with pending := [] })
        (.ok { r with pending := [] } : Except Cause Reader) := rfl
    have tiers : Tiered ({ r with pending := [] } : Reader).pending := .nil
    have joins : Concludes (Refuses limit depth) _ (joined limit span { r with pending := [] }).result :=
      concludes_joined tiers (fun _ => Nat.zero_le 2) (Nat.zero_le depth)
    refine Polish.concludes_andThen settled ?_
    rintro _ rfl
    exact Polish.concludes_andThen joins fun _ _ => closed

end Reader

/-- Whatever the tokens are, reading them ends with balanced parentheses, or refuses. -/
theorem Polish.concludes_ofTokens {depth : Nat} {toks : List Token} (limit length : Nat)
    (deep : OpensAtMost depth toks) :
    Concludes (Reader.Refuses limit depth) (fun _ => Balanced toks)
      (ofTokens limit length toks).result := by
  have whole : OpensAtMost depth (toks ++ []) := (List.append_nil toks).symm ▸ deep
  have reads := (Reader.concludes_tokens_start limit whole).of_ok fun r read => read
  refine concludes_andThen reads fun r read => ?_
  have nested : ∀ front back r, toks = front ++ back →
      (Reader.start.tokens limit front).result = .ok r → Nested front r := by
    rintro front back r rfl first
    have orderly := Reader.concludes_tokens_start limit deep
    rw [first] at orderly
    exact orderly.toNested
  refine (Reader.concludes_finish limit depth _ r).mono (fun _ => id) fun _ closed => ⟨?_, ?_⟩
  · rintro front back rfl
    obtain ⟨mid, first⟩ := Reader.exists_tokens_front read
    have inside := (nested front back mid rfl first).depth
    omega
  · have inside := (nested toks [] r (List.append_nil _).symm read).depth
    rw [closed, List.length_nil, Nat.zero_add] at inside
    exact inside

end CursorRegex
