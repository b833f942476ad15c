import CursorRegex.Pattern.Grammar

/-! # Reading the tree of a pattern token by token

The grammar says which trees a token sequence has.  `TreeReader` finds the tree in one pass from left
to right: it keeps what was read of each group that is still open, the innermost apart, and the piece
that later quantifiers would apply to.

`parses_of_read`: what the pass finds is a tree of the tokens.  `read_of_parses`: it finds every tree
they have.  So a pattern has at most one tree (`Parses.unique`). -/
set_option autoImplicit false

namespace CursorRegex

/-- What was read at one level of nesting in front of the piece read last: whole alternatives, and
the pieces of an alternative that goes on. -/
structure Branch where
  alternatives : Option Tree
  pieces : Option Tree

namespace Branch

def start : Branch := ⟨none, none⟩

def extend (b : Branch) (t : Tree) : Tree :=
  match b.pieces with
  | none => t
  | some s => .sequence s t

def close (b : Branch) (t : Tree) : Tree :=
  match b.alternatives with
  | none => b.extend t
  | some a => .alternate a (b.extend t)

def settle (b : Branch) : Option Tree → Branch
  | none => b
  | some t => ⟨b.alternatives, some (b.extend t)⟩

end Branch

structure TreeReader where
  /-- The groups that are still open, the innermost first: where each begins, and what stands in front
  of it. -/
  outer : List (Span × Branch)
  branch : Branch
  piece : Option Tree

namespace TreeReader

def start : TreeReader := ⟨[], .start, none⟩

def token (r : TreeReader) (t : Token) : Option TreeReader :=
  match t.kind, r with
  | .atom a, ⟨outer, branch, piece⟩ => some ⟨outer, branch.settle piece, some (.atom a)⟩
  | .quantifier q, ⟨outer, branch, some p⟩ => some ⟨outer, branch, some (.repeated q p)⟩
  | .bar, ⟨outer, branch, some p⟩ => some ⟨outer, ⟨some (branch.close p), none⟩, none⟩
  | .openParen, ⟨outer, branch, piece⟩ => some ⟨(t.span, branch.settle piece) :: outer, .start, none⟩
  | .closeParen, ⟨(opening, before) :: outer, branch, some p⟩ =>
    some ⟨outer, before, some (.group opening (branch.close p))⟩
  | _, _ => none

def tokens (r : TreeReader) (ts : List Token) : Option TreeReader := ts.foldlM token r

def finish : TreeReader → Option (Option Tree)
  | ⟨[], branch, some p⟩ => some (some (branch.close p))
  | ⟨[], ⟨none, none⟩, none⟩ => some none
  | _ => none

def read (ts : List Token) : Option (Option Tree) := (start.tokens ts).bind finish

theorem tokens_cons (r : TreeReader) (t : Token) (ts : List Token) :
    r.tokens (t :: ts) = (r.token t).bind (·.tokens ts) := List.foldlM_cons

theorem tokens_append (r : TreeReader) (ts us : List Token) :
    r.tokens (ts ++ us) = (r.tokens ts).bind (·.tokens us) := List.foldlM_append

/-! ## Every tree is found -/

/-- How a reader gets through the tokens of a tree: a repetition becomes the piece, a concatenation
the alternative that goes on, and an alternation a whole level. -/
def Reads (ts : List Token) (t : Tree) : Level → Prop
  | .repetition | .single => ∀ r : TreeReader,
      r.tokens ts = some ⟨r.outer, r.branch.settle r.piece, some t⟩
  | .concatenation => ∀ (outer : List (Span × Branch)) (alternatives : Option Tree), ∃ pieces p,
      (TreeReader.mk outer ⟨alternatives, none⟩ none).tokens ts =
        some ⟨outer, ⟨alternatives, pieces⟩, some p⟩ ∧ Branch.extend ⟨alternatives, pieces⟩ p = t
  | .alternation => ∀ outer : List (Span × Branch), ∃ branch p,
      (TreeReader.mk outer .start none).tokens ts = some ⟨outer, branch, some p⟩ ∧ branch.close p = t

theorem reads_of_derives {level : Level} {ts : List Token} {t : Tree} (h : Derives level ts t) :
    Reads ts t level := by
  induction h with
  | atom span a =>
    intro r
    rfl
  | group opening closing _ ih =>
    intro r
    obtain ⟨branch, p, inside, rfl⟩ := ih ((opening, r.branch.settle r.piece) :: r.outer)
    have opened : r.token ⟨opening, .openParen⟩ =
        some ⟨(opening, r.branch.settle r.piece) :: r.outer, .start, none⟩ := rfl
    rw [List.cons_append, tokens_cons, opened, Option.bind_some, tokens_append, inside,
      Option.bind_some]
    rfl
  | single _ ih => exact ih
  | repeated span q _ ih =>
    intro r
    rw [tokens_append, ih r]
    rfl
  | repetition _ ih =>
    intro outer alternatives
    exact ⟨none, _, ih _, rfl⟩
  | sequence _ _ ih ih' =>
    intro outer alternatives
    obtain ⟨pieces, p, front, rfl⟩ := ih outer alternatives
    refine ⟨some (Branch.extend ⟨alternatives, pieces⟩ p), _, ?_, rfl⟩
    rw [tokens_append, front, Option.bind_some, ih']
    rfl
  | concatenation _ ih =>
    intro outer
    obtain ⟨pieces, p, whole, rfl⟩ := ih outer none
    exact ⟨_, p, whole, rfl⟩
  | alternate span _ _ ih ih' =>
    intro outer
    obtain ⟨branch, p, front, rfl⟩ := ih outer
    obtain ⟨pieces, p', back, rfl⟩ := ih' outer (some (branch.close p))
    refine ⟨⟨some (branch.close p), pieces⟩, p', ?_, rfl⟩
    have barred : (TreeReader.mk outer branch (some p)).token ⟨span, .bar⟩ =
        some ⟨outer, ⟨some (branch.close p), none⟩, none⟩ := rfl
    rw [tokens_append, front, Option.bind_some, tokens_cons, barred, Option.bind_some, back]

theorem read_of_parses {ts : List Token} {t : Option Tree} (h : Parses ts t) : read ts = some t := by
  cases t with
  | none =>
    cases h
    rfl
  | some t =>
    obtain ⟨branch, p, whole, rfl⟩ := reads_of_derives h []
    unfold read start
    rw [whole, Option.bind_some]
    rfl

end TreeReader

theorem Parses.unique {ts : List Token} {t u : Option Tree} (ht : Parses ts t) (hu : Parses ts u) :
    t = u := by
  have found := TreeReader.read_of_parses ht
  rw [TreeReader.read_of_parses hu] at found
  exact (Option.some.inj found).symm

/-! ## What is found is a tree -/

inductive Branch.Spelled : Branch → List Token → Prop where
  | start : Spelled .start []
  | pieces {ts : List Token} {s : Tree} (inner : Derives .concatenation ts s) :
      Spelled ⟨none, some s⟩ ts
  | bar {ts : List Token} {a : Tree} (span : Span) (inner : Derives .alternation ts a) :
      Spelled ⟨some a, none⟩ (ts ++ [⟨span, .bar⟩])
  | barPieces {ts us : List Token} {a s : Tree} (span : Span) (fst : Derives .alternation ts a)
      (snd : Derives .concatenation us s) : Spelled ⟨some a, some s⟩ (ts ++ ⟨span, .bar⟩ :: us)

namespace Branch.Spelled

theorem settle {b : Branch} {ts us : List Token} {p : Tree} (h : b.Spelled ts)
    (piece : Derives .repetition us p) : (b.settle (some p)).Spelled (ts ++ us) := by
  cases h with
  | start => exact .pieces (.repetition piece)
  | pieces inner => exact .pieces (.sequence inner piece)
  | bar span inner =>
    rw [List.append_assoc]
    exact .barPieces span inner (.repetition piece)
  | barPieces span fst snd =>
    rw [List.append_assoc, List.cons_append]
    exact .barPieces span fst (.sequence snd piece)

theorem close {b : Branch} {ts us : List Token} {p : Tree} (h : b.Spelled ts)
    (piece : Derives .repetition us p) : Derives .alternation (ts ++ us) (b.close p) := by
  cases h with
  | start => exact .concatenation (.repetition piece)
  | pieces inner => exact .concatenation (.sequence inner piece)
  | bar span inner =>
    rw [List.append_assoc]
    exact .alternate span inner (.repetition piece)
  | barPieces span fst snd =>
    rw [List.append_assoc, List.cons_append]
    exact .alternate span fst (.sequence snd piece)

end Branch.Spelled

namespace TreeReader

inductive OuterSpelled : List (Span × Branch) → List Token → Prop where
  | nil : OuterSpelled [] []
  | cons {outer : List (Span × Branch)} {before : Branch} {ts us : List Token} (opening : Span)
      (outside : OuterSpelled outer ts) (level : before.Spelled us) :
      OuterSpelled ((opening, before) :: outer) (ts ++ (us ++ [⟨opening, .openParen⟩]))

inductive PieceSpelled : Option Tree → List Token → Prop where
  | none : PieceSpelled none []
  | some {ts : List Token} {p : Tree} (inner : Derives .repetition ts p) : PieceSpelled (some p) ts

inductive Spelled : TreeReader → List Token → Prop where
  | mk {outer : List (Span × Branch)} {branch : Branch} {piece : Option Tree} {ts us vs : List Token}
      (outside : OuterSpelled outer ts) (level : branch.Spelled us) (last : PieceSpelled piece vs) :
      Spelled ⟨outer, branch, piece⟩ (ts ++ (us ++ vs))

theorem PieceSpelled.settle {b : Branch} {piece : Option Tree} {us vs : List Token}
    (level : b.Spelled us) (last : PieceSpelled piece vs) : (b.settle piece).Spelled (us ++ vs) := by
  cases last with
  | none =>
    rw [List.append_nil]
    exact level
  | some inner => exact level.settle inner

theorem Spelled.token {r r' : TreeReader} {ts : List Token} {t : Token} (h : r.Spelled ts)
    (step : r.token t = some r') : r'.Spelled (ts ++ [t]) := by
  obtain ⟨span, kind⟩ := t
  obtain @⟨outer, branch, piece, ts, us, vs, outside, level, last⟩ := h
  rw [List.append_assoc]
  cases kind with
  | atom a =>
    cases step
    exact .mk outside (last.settle level) (.some (.single (.atom span a)))
  | quantifier q =>
    cases last with
    | none => cases step
    | some inner =>
      cases step
      rw [List.append_assoc]
      exact .mk outside level (.some (.repeated span q inner))
  | bar =>
    cases last with
    | none => cases step
    | some inner =>
      cases step
      have front := level.close inner
      have := Spelled.mk outside (.bar span front) .none
      rwa [List.append_nil] at this
  | openParen =>
    cases step
    have := Spelled.mk (.cons span outside (last.settle level)) .start .none
    rwa [List.append_nil, List.append_nil] at this
  | closeParen =>
    cases last with
    | none => cases outside <;> cases step
    | some inner =>
      cases outside with
      | nil => cases step
      | @cons outer before ts ws opening outside level' =>
        cases step
        have group := Derives.group opening span (level.close inner)
        have := Spelled.mk outside level' (.some (.single group))
        simpa using this

theorem Spelled.tokens {r r' : TreeReader} {ts us : List Token} (h : r.Spelled ts)
    (run : r.tokens us = some r') : r'.Spelled (ts ++ us) := by
  induction us generalizing r ts with
  | nil =>
    cases run
    rwa [List.append_nil]
  | cons u us ih =>
    rw [tokens_cons, Option.bind_eq_some_iff] at run
    obtain ⟨r₁, step, rest⟩ := run
    have := ih (h.token step) rest
    rwa [List.append_assoc] at this

theorem parses_of_finish {r : TreeReader} {ts : List Token} {t : Option Tree} (h : r.Spelled ts)
    (ends : r.finish = some t) : Parses ts t := by
  obtain @⟨outer, branch, piece, ts, us, vs, outside, level, last⟩ := h
  cases outside with
  | cons => cases last <;> cases ends
  | nil =>
    cases last with
    | some inner =>
      cases ends
      exact level.close inner
    | none => cases level <;> cases ends; rfl

theorem parses_of_read {ts : List Token} {t : Option Tree} (h : read ts = some t) : Parses ts t := by
  rw [read, Option.bind_eq_some_iff] at h
  obtain ⟨r, run, ends⟩ := h
  have begins : start.Spelled [] := .mk .nil .start .none
  exact parses_of_finish (begins.tokens run) ends

end TreeReader

end CursorRegex
