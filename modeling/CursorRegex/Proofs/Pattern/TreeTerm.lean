import CursorRegex.Proofs.Pattern.Rearranged
import CursorRegex.Proofs.Pattern.Term

/-! # The term of a tree

Which term the operators make of a tree.  Two things about a term are not in its tree: the number each
group is recorded under, which is its place among the opening parentheses (`groupNumber`), and the order
in which stacked quantifiers apply.  A quantifier that comes in lets those that bind at least as tightly
go first and makes the others wait behind it (`Quantified.quantify`).

The order is the only difference that is left between a tree and its term (`rearranged_term`). -/
set_option autoImplicit false

namespace CursorRegex

def groupNumber (n : Nat) : Option Nat := if n < 10 then some n else none

def Tree.groupCount : Tree → Nat
  | .atom _ => 0
  | .group _ body => body.groupCount + 1
  | .repeated _ body => body.groupCount
  | .sequence fst snd => fst.groupCount + snd.groupCount
  | .alternate fst snd => fst.groupCount + snd.groupCount

def Term.repeatedBy (e : Term) (qs : List Quantifier) : Term := qs.foldl (fun e q => .repeated q e) e

/-- A piece some of whose quantifiers still wait, the one to be applied first in front. -/
structure Quantified where
  core : Term
  waiting : List Quantifier

namespace Quantified

def settle (x : Quantified) : Term := x.core.repeatedBy x.waiting

def yields (q waits : Quantifier) : Bool :=
  decide (Operator.rank (.quantify q) ≤ Operator.rank (.quantify waits))

def quantify (q : Quantifier) (x : Quantified) : Quantified :=
  ⟨x.core.repeatedBy (x.waiting.takeWhile (yields q)), q :: x.waiting.dropWhile (yields q)⟩

end Quantified

namespace Tree

def quantified (n : Nat) : Tree → Quantified
  | .atom a => ⟨.atom a, []⟩
  | .group opening body => ⟨.group opening (groupNumber (n + 1)) (body.quantified (n + 1)).settle, []⟩
  | .repeated q body => (body.quantified n).quantify q
  | .sequence fst snd =>
    ⟨.sequence (fst.quantified n).settle (snd.quantified (n + fst.groupCount)).settle, []⟩
  | .alternate fst snd =>
    ⟨.alternate (fst.quantified n).settle (snd.quantified (n + fst.groupCount)).settle, []⟩

/-- The term of a tree, once `n` groups were opened in front of it. -/
def term (n : Nat) (t : Tree) : Term := (t.quantified n).settle

variable (n : Nat)

theorem term_group (opening : Span) (body : Tree) :
    (Tree.group opening body).term n = .group opening (groupNumber (n + 1)) (body.term (n + 1)) := rfl

theorem term_sequence (fst snd : Tree) :
    (Tree.sequence fst snd).term n = .sequence (fst.term n) (snd.term (n + fst.groupCount)) := rfl

theorem term_alternate (fst snd : Tree) :
    (Tree.alternate fst snd).term n = .alternate (fst.term n) (snd.term (n + fst.groupCount)) := rfl

end Tree

/-! ## The order of quantifiers -/

namespace Term

theorem repeatedBy_append (e : Term) (qs more : List Quantifier) :
    e.repeatedBy (qs ++ more) = (e.repeatedBy qs).repeatedBy more := List.foldl_append

theorem rearranged_repeatedBy {e e' : Term} (same : Tree.Rearranged e.tree e'.tree)
    (qs : List Quantifier) : Tree.Rearranged (e.repeatedBy qs).tree (e'.repeatedBy qs).tree := by
  induction qs generalizing e e' with
  | nil => exact same
  | cons q qs ih => exact ih (.repeated q same)

/-- A quantifier applied first may as well be applied last. -/
theorem rearranged_repeatedBy_cons (q : Quantifier) (qs : List Quantifier) (e : Term) :
    Tree.Rearranged (e.repeatedBy (q :: qs)).tree (.repeated q (e.repeatedBy qs).tree) := by
  induction qs generalizing e with
  | nil => exact .refl _
  | cons q' qs ih =>
    have swapped : Tree.Rearranged (Term.repeated q' (.repeated q e)).tree
        (Term.repeated q (.repeated q' e)).tree := .swap q' q e.tree
    exact .trans (rearranged_repeatedBy swapped qs) (ih (.repeated q' e))

end Term

theorem Quantified.rearranged_quantify (q : Quantifier) (x : Quantified) :
    Tree.Rearranged (x.quantify q).settle.tree (.repeated q x.settle.tree) := by
  have split : x.settle = (x.core.repeatedBy (x.waiting.takeWhile (yields q))).repeatedBy
      (x.waiting.dropWhile (yields q)) := by
    rw [← Term.repeatedBy_append, List.takeWhile_append_dropWhile, settle]
  rw [split]
  exact Term.rearranged_repeatedBy_cons q _ _

/-- The term of a tree differs from it in the order of stacked quantifiers only. -/
theorem Tree.rearranged_term (n : Nat) (t : Tree) : Rearranged (t.term n).tree t := by
  induction t generalizing n with
  | atom a => exact .refl _
  | group opening body ih => exact .group opening (ih (n + 1))
  | repeated q body ih =>
    exact .trans (Quantified.rearranged_quantify q (body.quantified n)) (.repeated q (ih n))
  | sequence fst snd ih ih' => exact .sequence (ih n) (ih' (n + fst.groupCount))
  | alternate fst snd ih ih' => exact .alternate (ih n) (ih' (n + fst.groupCount))

end CursorRegex
