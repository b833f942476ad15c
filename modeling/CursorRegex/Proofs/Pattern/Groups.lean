import CursorRegex.Proofs.Pattern.TreeTerm

/-! # The groups of a pattern

Groups are counted by their opening parentheses.  `Tree.groups` lists those of a tree in this order
(`Derives.openings_eq`), and the term of the tree records each of the first nine under its place in the
list (`Tree.mem_groups_term`).  So a group has another number than those inside it. -/
set_option autoImplicit false

namespace CursorRegex

/-- Where the groups of a tree are opened and what is in them, in the order of the pattern. -/
def Tree.groups : Tree → List (Span × Tree)
  | .atom _ => []
  | .group opening body => (opening, body) :: body.groups
  | .repeated _ body => body.groups
  | .sequence fst snd => fst.groups ++ snd.groups
  | .alternate fst snd => fst.groups ++ snd.groups

def Term.groups : Term → List (Option Nat × Term)
  | .atom _ => []
  | .group _ number body => (number, body) :: body.groups
  | .repeated _ body => body.groups
  | .sequence fst snd => fst.groups ++ snd.groups
  | .alternate fst snd => fst.groups ++ snd.groups

def Token.openings (ts : List Token) : List Span :=
  (ts.filter (·.kind = .openParen)).map (·.span)

theorem Token.openings_append (ts us : List Token) :
    openings (ts ++ us) = openings ts ++ openings us := by
  simp only [openings, List.filter_append, List.map_append]

/-- The groups of a tree are opened by the opening parentheses it derives from, one after the other. -/
theorem Derives.openings_eq {level : Level} {ts : List Token} {t : Tree} (h : Derives level ts t) :
    Token.openings ts = t.groups.map (·.1) := by
  induction h with
  | atom span a => rfl
  | @group ts t opening closing inner ih =>
    have outer : Token.openings (⟨opening, .openParen⟩ :: ts) = opening :: Token.openings ts := rfl
    rw [Token.openings_append, outer, ih]
    simp [Token.openings, Tree.groups]
  | single _ ih | repetition _ ih | concatenation _ ih => exact ih
  | repeated span q inner ih =>
    rw [Token.openings_append, ih]
    simp [Token.openings, Tree.groups]
  | sequence fst snd ih ih' =>
    rw [Token.openings_append, ih, ih', Tree.groups, List.map_append]
  | @alternate ts us t u span fst snd ih ih' =>
    have bar : Token.openings (⟨span, .bar⟩ :: us) = Token.openings us := rfl
    rw [Token.openings_append, bar, ih, ih', Tree.groups, List.map_append]

def Tree.groupsOf (t : Option Tree) : List (Span × Tree) := t.elim [] groups

theorem Parses.openings_eq {ts : List Token} {t : Option Tree} (h : Parses ts t) :
    Token.openings ts = (Tree.groupsOf t).map (·.1) := by
  cases t with
  | none =>
    cases h
    rfl
  | some t => exact Derives.openings_eq h

namespace Tree

theorem length_groups (t : Tree) : t.groups.length = t.groupCount := by
  induction t with
  | atom a => rfl
  | group opening body ih => rw [groups, List.length_cons, ih, groupCount]
  | repeated q body ih => exact ih
  | sequence fst snd ih ih' | alternate fst snd ih ih' =>
    rw [groups, List.length_append, ih, ih', groupCount]

end Tree

theorem Term.groups_repeatedBy (e : Term) (qs : List Quantifier) :
    (e.repeatedBy qs).groups = e.groups := by
  induction qs generalizing e with
  | nil => rfl
  | cons q qs ih => exact ih (.repeated q e)

namespace Tree

theorem groups_repeated_term (q : Quantifier) (body : Tree) (n : Nat) :
    ((Tree.repeated q body).term n).groups = (body.term n).groups := by
  simp only [term, quantified, Quantified.quantify, Quantified.settle, Term.groups_repeatedBy]

theorem groups_term (n : Nat) (t : Tree) :
    (t.term n).groups = (t.groups.zipIdx (n + 1)).map fun g => (groupNumber g.2, g.1.2.term g.2) := by
  induction t generalizing n with
  | atom a => rfl
  | group opening body ih => rw [term_group, Term.groups, ih, groups, List.zipIdx_cons, List.map_cons]
  | repeated q body ih => rw [groups_repeated_term, ih, groups]
  | sequence fst snd ih ih' =>
    rw [term_sequence, Term.groups, ih, ih', groups, List.zipIdx_append, List.map_append,
      length_groups, Nat.add_right_comm]
  | alternate fst snd ih ih' =>
    rw [term_alternate, Term.groups, ih, ih', groups, List.zipIdx_append, List.map_append,
      length_groups, Nat.add_right_comm]

theorem mem_groups_term {n k : Nat} {t : Tree} {e : Term} (h : (some k, e) ∈ (t.term n).groups) :
    n < k ∧ ∃ opening body, t.groups[k - (n + 1)]? = some (opening, body) ∧ e = body.term k := by
  rw [groups_term, List.mem_map] at h
  obtain ⟨⟨⟨opening, body⟩, m⟩, member, is⟩ := h
  obtain ⟨after, found⟩ := List.mk_mem_zipIdx_iff_le_and_getElem?_sub.mp member
  obtain ⟨number, rfl⟩ := Prod.mk.inj is
  have numbered : m = k := by
    unfold groupNumber at number
    split at number
    · exact Option.some.inj number
    · cases number
  subst numbered
  exact ⟨after, opening, body, found, rfl⟩

end Tree

/-- A group numbered `k` has no group of that number inside it. -/
def Term.Unnested (k : Nat) (e : Term) : Prop :=
  ∀ body, (some k, body) ∈ e.groups → ∀ inner, (some k, inner) ∉ body.groups

theorem Term.Unnested.mono {k : Nat} {e e' : Term} (sub : ∀ g, g ∈ e'.groups → g ∈ e.groups)
    (h : e.Unnested k) : e'.Unnested k :=
  fun body member => h body (sub _ member)

theorem Tree.unnested_term (n k : Nat) (t : Tree) : (t.term n).Unnested k := by
  intro body member inner nested
  obtain ⟨-, opening, t', -, rfl⟩ := mem_groups_term member
  obtain ⟨after, -⟩ := mem_groups_term nested
  exact absurd after (Nat.lt_irrefl k)

end CursorRegex
