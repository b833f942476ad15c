import CursorRegex.CharClass
import CursorRegex.Proofs.Pattern.Groups

/-! # The mirror of a pattern

The mirror of a pattern has the pieces of each concatenation in the opposite order, in groups and under
quantifiers as well, and keeps everything else (`Tree.mirror`).  Written down as a pattern of its own it
has other places in the text of the pattern and in the class table, which `Tree.Resembles` does not look
at, and other group numbers: `Tree.mirrorOrder` lists the groups in the order in which the mirror opens
them.

Terms of a tree and of its mirror stand in a relation of their own (`Term.Mirrors`,
`Tree.IsMirror.mirrors_term`), because quantifiers that are stacked in one order stay in that order. -/
set_option autoImplicit false

namespace CursorRegex

namespace Tree

def append (front : Tree) : Tree → Tree
  | .sequence fst snd => .sequence (front.append fst) snd
  | piece => .sequence front piece

def mirror : Tree → Tree
  | .atom a => .atom a
  | .group opening body => .group opening body.mirror
  | .repeated q body => .repeated q body.mirror
  | .sequence fst snd => snd.mirror.append fst.mirror
  | .alternate fst snd => .alternate fst.mirror snd.mirror

def pieces : Tree → List Tree
  | .sequence fst snd => fst.pieces ++ snd.pieces
  | piece => [piece]

theorem pieces_append (front back : Tree) : (front.append back).pieces = front.pieces ++ back.pieces := by
  induction back with
  | sequence fst snd ih _ => rw [append, pieces, ih, pieces, List.append_assoc]
  | atom | group | repeated | alternate => rfl

theorem pieces_mirror (t : Tree) : t.mirror.pieces = (t.pieces.map mirror).reverse := by
  induction t with
  | sequence fst snd ih ih' =>
    rw [mirror, pieces_append, ih, ih', pieces, List.map_append, List.reverse_append]
  | atom | group | repeated | alternate => rfl

/-- The groups of a tree, numbered from `n + 1` on, in the order in which its mirror opens them. -/
def mirrorOrder (n : Nat) : Tree → List Nat
  | .atom _ => []
  | .group _ body => (n + 1) :: body.mirrorOrder (n + 1)
  | .repeated _ body => body.mirrorOrder n
  | .sequence fst snd => snd.mirrorOrder (n + fst.groupCount) ++ fst.mirrorOrder n
  | .alternate fst snd => fst.mirrorOrder n ++ snd.mirrorOrder (n + fst.groupCount)

theorem groups_append (front back : Tree) : (front.append back).groups = front.groups ++ back.groups := by
  induction back with
  | sequence fst snd ih _ => rw [append, groups, ih, groups, List.append_assoc]
  | atom | group | repeated | alternate => rfl

theorem groupCount_append (front back : Tree) :
    (front.append back).groupCount = front.groupCount + back.groupCount := by
  rw [← length_groups, groups_append, List.length_append, length_groups, length_groups]

theorem groupCount_mirror (t : Tree) : t.mirror.groupCount = t.groupCount := by
  induction t with
  | atom a => rfl
  | group opening body ih => rw [mirror, groupCount, ih, groupCount]
  | repeated q body ih => exact ih
  | sequence fst snd ih ih' => rw [mirror, groupCount_append, ih, ih', groupCount, Nat.add_comm]
  | alternate fst snd ih ih' => rw [mirror, groupCount, ih, ih', groupCount]

theorem length_mirrorOrder (n : Nat) (t : Tree) : (t.mirrorOrder n).length = t.groupCount := by
  induction t generalizing n with
  | atom a => rfl
  | group opening body ih => rw [mirrorOrder, List.length_cons, ih, groupCount]
  | repeated q body ih => exact ih n
  | sequence fst snd ih ih' =>
    rw [mirrorOrder, List.length_append, ih, ih', groupCount, Nat.add_comm]
  | alternate fst snd ih ih' => rw [mirrorOrder, List.length_append, ih, ih', groupCount]

theorem length_groups_mirror (n : Nat) (t : Tree) :
    t.mirror.groups.length = (t.mirrorOrder n).length := by
  rw [length_groups, groupCount_mirror, length_mirrorOrder]

/-- With their numbers, the groups that the mirror opens are the mirrors of the groups. -/
theorem zip_mirrorOrder_perm (n : Nat) (t : Tree) :
    (t.mirror.groups.zip (t.mirrorOrder n)).Perm
      ((t.groups.map fun g => (g.1, g.2.mirror)).zipIdx (n + 1)) := by
  induction t generalizing n with
  | atom a => exact .refl _
  | group opening body ih => exact (ih (n + 1)).cons _
  | repeated q body ih => exact ih n
  | sequence fst snd ih ih' =>
    rw [mirror, groups_append, mirrorOrder, List.zip_append (length_groups_mirror _ snd), groups,
      List.map_append, List.zipIdx_append, List.length_map, length_groups, Nat.add_right_comm]
    exact List.perm_append_comm.trans ((ih n).append (ih' (n + fst.groupCount)))
  | alternate fst snd ih ih' =>
    rw [mirror, groups, mirrorOrder, List.zip_append (length_groups_mirror _ fst), groups,
      List.map_append, List.zipIdx_append, List.length_map, length_groups, Nat.add_right_comm]
    exact (ih n).append (ih' (n + fst.groupCount))

theorem mirrorOrder_perm (n : Nat) (t : Tree) :
    (t.mirrorOrder n).Perm (List.range' (n + 1) t.groupCount) := by
  have numbers := (zip_mirrorOrder_perm n t).map Prod.snd
  rwa [List.map_snd_zip (Nat.le_of_eq (length_groups_mirror n t).symm), List.zipIdx_map_snd,
    List.length_map, length_groups] at numbers

end Tree

/-! ## Patterns that differ in their places only -/

inductive Atom.Resembles (classes classes' : ClassTable) : Atom → Atom → Prop where
  | char (c : Char) : Resembles classes classes' (.char c) (.char c)
  | any : Resembles classes classes' .any .any
  | lineStart : Resembles classes classes' .lineStart .lineStart
  | lineEnd : Resembles classes classes' .lineEnd .lineEnd
  | set {id id' : Nat} {negated negated' : Bool}
      (same : ∀ c, classes.accepts id negated c = classes'.accepts id' negated' c) :
      Resembles classes classes' (.set id negated) (.set id' negated')

namespace Tree

inductive Resembles (classes classes' : ClassTable) : Tree → Tree → Prop where
  | atom {a a' : Atom} (same : a.Resembles classes classes' a') :
      Resembles classes classes' (.atom a) (.atom a')
  | group {body body' : Tree} (opening opening' : Span) (same : Resembles classes classes' body body') :
      Resembles classes classes' (.group opening body) (.group opening' body')
  | repeated {body body' : Tree} (q : Quantifier) (same : Resembles classes classes' body body') :
      Resembles classes classes' (.repeated q body) (.repeated q body')
  | sequence {fst fst' snd snd' : Tree} (same : Resembles classes classes' fst fst')
      (same' : Resembles classes classes' snd snd') :
      Resembles classes classes' (.sequence fst snd) (.sequence fst' snd')
  | alternate {fst fst' snd snd' : Tree} (same : Resembles classes classes' fst fst')
      (same' : Resembles classes classes' snd snd') :
      Resembles classes classes' (.alternate fst snd) (.alternate fst' snd')

variable {classes classes' : ClassTable} {t t' front back : Tree}

theorem Resembles.groupCount_eq (h : t.Resembles classes classes' t') : t.groupCount = t'.groupCount := by
  induction h with
  | atom => rfl
  | group _ _ _ ih => rw [groupCount, ih, groupCount]
  | repeated _ _ ih => exact ih
  | sequence _ _ ih ih' | alternate _ _ ih ih' => rw [groupCount, ih, ih', groupCount]

theorem Resembles.exists_append (h : (front.append back).Resembles classes classes' t') :
    ∃ front' back', t' = front'.append back' ∧ front.Resembles classes classes' front' ∧
      back.Resembles classes classes' back' := by
  induction back generalizing t' with
  | sequence fst snd ih _ =>
    cases h with
    | sequence same same' =>
      obtain ⟨front', fst', rfl, same, same_fst⟩ := ih same
      exact ⟨front', .sequence fst' _, rfl, same, .sequence same_fst same'⟩
  | atom | group | repeated | alternate =>
    cases h with
    | sequence same same' =>
      refine ⟨_, _, ?_, same, same'⟩
      cases same'
      rfl

def Unanchored : Tree → Prop
  | .atom a => a ≠ .lineStart ∧ a ≠ .lineEnd
  | .group _ body | .repeated _ body => body.Unanchored
  | .sequence fst snd | .alternate fst snd => fst.Unanchored ∧ snd.Unanchored

end Tree

/-! ## Terms of mirrors -/

namespace Term

inductive Joins (front : Term) : Term → Term → Prop where
  | piece (piece : Term) : Joins front piece (.sequence front piece)
  | sequence {fst joined : Term} (snd : Term) (joins : Joins front fst joined) :
      Joins front (.sequence fst snd) (.sequence joined snd)

/-- Terms with their sequences in opposite orders, with related atoms and related numbers of groups. -/
inductive Mirrors (atoms : Atom → Atom → Prop) (pairs : Nat → Nat → Prop) : Term → Term → Prop where
  | atom {a a' : Atom} (same : atoms a a') : Mirrors atoms pairs (.atom a) (.atom a')
  | group {k k' : Nat} {body body' : Term} (opening opening' : Span) (paired : pairs k k')
      (inner : Mirrors atoms pairs body body') :
      Mirrors atoms pairs (.group opening (some k) body) (.group opening' (some k') body')
  | repeated {body body' : Term} (q : Quantifier) (inner : Mirrors atoms pairs body body') :
      Mirrors atoms pairs (.repeated q body) (.repeated q body')
  | sequence {fst snd front back joined : Term} (late : Mirrors atoms pairs fst back)
      (early : Mirrors atoms pairs snd front) (joins : Joins front back joined) :
      Mirrors atoms pairs (.sequence fst snd) joined
  | alternate {fst fst' snd snd' : Term} (left : Mirrors atoms pairs fst fst')
      (right : Mirrors atoms pairs snd snd') :
      Mirrors atoms pairs (.alternate fst snd) (.alternate fst' snd')

theorem Mirrors.repeatedBy {atoms : Atom → Atom → Prop} {pairs : Nat → Nat → Prop} {e e' : Term}
    (h : Mirrors atoms pairs e e') (qs : List Quantifier) :
    Mirrors atoms pairs (e.repeatedBy qs) (e'.repeatedBy qs) := by
  induction qs generalizing e e' with
  | nil => exact h
  | cons q qs ih => exact ih (.repeated q h)

end Term

def Atom.Mirrors (classes classes' : ClassTable) (a a' : Atom) : Prop :=
  a.Resembles classes classes' a' ∧ a ≠ .lineStart ∧ a ≠ .lineEnd

/-- A quantifier that comes in behind pieces that mirror each other has the same effect on both. -/
theorem Quantified.mirrors_settle {atoms : Atom → Atom → Prop} {pairs : Nat → Nat → Prop}
    {x x' : Quantified} (core : Term.Mirrors atoms pairs x.core x'.core)
    (waiting : x.waiting = x'.waiting) : Term.Mirrors atoms pairs x.settle x'.settle := by
  rw [settle, settle, ← waiting]
  exact core.repeatedBy x.waiting

namespace Tree

variable {classes classes' : ClassTable} {t t' : Tree} {n n' : Nat} {pairs : Nat → Nat → Prop}

theorem joins_term_append (n : Nat) (front back : Tree) :
    Term.Joins (front.term n) (back.term (n + front.groupCount)) ((front.append back).term n) := by
  induction back with
  | sequence fst snd ih _ =>
    rw [append, term_sequence, term_sequence, groupCount_append, ← Nat.add_assoc]
    exact .sequence _ ih
  | atom | group | repeated | alternate => exact .piece _

theorem quantified_append (n : Nat) (front back : Tree) :
    (front.append back).quantified n = ⟨(front.append back).term n, []⟩ := by
  cases back <;> rfl

theorem mirrors_quantified (n n' : Nat) (h : t.mirror.Resembles classes classes' t')
    (free : t.Unanchored) (few : n + t.groupCount ≤ 9) (few' : n' + t.groupCount ≤ 9)
    (paired : ∀ g ∈ (t.mirrorOrder n).zipIdx (n' + 1), pairs g.1 g.2) :
    Term.Mirrors (Atom.Mirrors classes classes') pairs (t.quantified n).core (t'.quantified n').core ∧
      (t.quantified n).waiting = (t'.quantified n').waiting := by
  induction t generalizing n n' t' with
  | atom a =>
    cases h with
    | atom same => exact ⟨.atom ⟨same, free⟩, rfl⟩
  | group opening body ih =>
    cases h with
    | group _ opening' same =>
      rw [groupCount] at few few'
      rw [mirrorOrder, List.zipIdx_cons, List.forall_mem_cons] at paired
      have recorded : ∀ {k}, k < 9 → groupNumber (k + 1) = some (k + 1) :=
        fun low => if_pos (Nat.succ_lt_succ low)
      obtain ⟨core, waiting⟩ := ih (n + 1) (n' + 1) same free (by omega) (by omega) paired.2
      refine ⟨?_, rfl⟩
      simp only [quantified, recorded (show n < 9 by omega), recorded (show n' < 9 by omega)]
      exact .group opening opening' paired.1 (Quantified.mirrors_settle core waiting)
  | repeated q body ih =>
    cases h with
    | repeated _ same =>
      obtain ⟨core, waiting⟩ := ih n n' same free few few' paired
      simp only [quantified, Quantified.quantify, waiting, and_true]
      exact core.repeatedBy _
  | sequence fst snd ih ih' =>
    obtain ⟨front, back, rfl, same_snd, same_fst⟩ := h.exists_append
    have counts := same_snd.groupCount_eq
    rw [groupCount_mirror] at counts
    rw [groupCount] at few few'
    rw [mirrorOrder, List.zipIdx_append, List.forall_mem_append, length_mirrorOrder,
      Nat.add_right_comm, counts] at paired
    obtain ⟨core, waiting⟩ :=
      ih n (n' + front.groupCount) same_fst free.1 (by omega) (by omega) paired.2
    obtain ⟨core', waiting'⟩ :=
      ih' (n + fst.groupCount) n' same_snd free.2 (by omega) (by omega) paired.1
    rw [quantified_append]
    exact ⟨.sequence (Quantified.mirrors_settle core waiting) (Quantified.mirrors_settle core' waiting')
      (joins_term_append n' front back), rfl⟩
  | alternate fst snd ih ih' =>
    cases h with
    | alternate same same' =>
      have counts := same.groupCount_eq
      rw [groupCount_mirror] at counts
      rw [groupCount] at few few'
      rw [mirrorOrder, List.zipIdx_append, List.forall_mem_append, length_mirrorOrder,
        Nat.add_right_comm] at paired
      obtain ⟨core, waiting⟩ := ih n n' same free.1 (by omega) (by omega) paired.1
      obtain ⟨core', waiting'⟩ := ih' (n + fst.groupCount) (n' + fst.groupCount) same' free.2
        (by omega) (by omega) paired.2
      simp only [quantified, ← counts, and_true]
      exact .alternate (Quantified.mirrors_settle core waiting)
        (Quantified.mirrors_settle core' waiting')

/-- The group of a tree with number `k` is the one that its mirror opens as number `k'`. -/
def mirrorPairs (t : Tree) : List (Nat × Nat) := (t.mirrorOrder 0).zipIdx 1

/-- `t'` is the mirror of `t` as a pattern of its own.  The pattern has at most nine groups, and does not
ask for a line to start or end. -/
structure IsMirror (classes classes' : ClassTable) (t t' : Tree) : Prop where
  resembles : t.mirror.Resembles classes classes' t'
  unanchored : t.Unanchored
  few : t.groupCount ≤ 9

theorem IsMirror.mirrors_term (h : t.IsMirror classes classes' t') :
    Term.Mirrors (Atom.Mirrors classes classes') (fun k k' => (k, k') ∈ t.mirrorPairs) (t.term 0)
      (t'.term 0) := by
  have room : 0 + t.groupCount ≤ 9 := (Nat.zero_add _).symm ▸ h.few
  obtain ⟨core, waiting⟩ : Term.Mirrors (Atom.Mirrors classes classes')
      (fun k k' => (k, k') ∈ t.mirrorPairs) (t.quantified 0).core (t'.quantified 0).core ∧ _ :=
    mirrors_quantified 0 0 h.resembles h.unanchored room room fun _ member => member
  exact Quantified.mirrors_settle core waiting

theorem mem_mirrorPairs {k k' : Nat} (member : (k, k') ∈ t.mirrorPairs) :
    (0 < k ∧ k ≤ t.groupCount) ∧ 0 < k' ∧ k' ≤ t.groupCount := by
  obtain ⟨pos, found⟩ := List.mk_mem_zipIdx_iff_le_and_getElem?_sub.mp member
  have numbered := (mirrorOrder_perm 0 t).mem_iff.mp (List.mem_of_getElem? found)
  obtain ⟨within, -⟩ := List.getElem?_eq_some_iff.mp found
  rw [List.mem_range'_1] at numbered
  rw [length_mirrorOrder] at within
  omega

theorem mirrorPairs_unique {j j' k k' : Nat} (member : (j, j') ∈ t.mirrorPairs)
    (member' : (k, k') ∈ t.mirrorPairs) : j = k ↔ j' = k' := by
  obtain ⟨pos, found⟩ := List.mk_mem_zipIdx_iff_le_and_getElem?_sub.mp member
  obtain ⟨pos', found'⟩ := List.mk_mem_zipIdx_iff_le_and_getElem?_sub.mp member'
  have nodup : (t.mirrorOrder 0).Nodup := (mirrorOrder_perm 0 t).nodup_iff.mpr List.nodup_range'
  constructor
  · rintro rfl
    have same := (List.getElem?_inj (List.getElem?_eq_some_iff.mp found).1 nodup).mp
      (found.trans found'.symm)
    omega
  · rintro rfl
    exact Option.some.inj (found.symm.trans found')

def mirrorPairsOf (t : Option Tree) : List (Nat × Nat) := t.elim [] mirrorPairs

end Tree

end CursorRegex
