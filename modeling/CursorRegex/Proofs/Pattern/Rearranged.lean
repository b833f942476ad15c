import CursorRegex.Search.Meaning

/-! # Stacked quantifiers apply in any order

Of several quantifiers behind one piece, a program applies the tighter first, and the grammar the one
written first.  `Tree.Rearranged` relates two trees that differ in nothing but the order of stacked
quantifiers, and `Rearranged.matches_iff` says that they match the same ranges: two different
quantifiers on one piece, in either order, match what a star matches. -/
set_option autoImplicit false

namespace CursorRegex

/-- Trees that differ in the order of stacked quantifiers only. -/
inductive Tree.Rearranged : Tree → Tree → Prop where
  | refl (t : Tree) : Rearranged t t
  | trans {t u v : Tree} (fst : Rearranged t u) (snd : Rearranged u v) : Rearranged t v
  | swap (q q' : Quantifier) (t : Tree) :
      Rearranged (.repeated q (.repeated q' t)) (.repeated q' (.repeated q t))
  | group {t u : Tree} (opening : Span) (inner : Rearranged t u) :
      Rearranged (.group opening t) (.group opening u)
  | repeated {t u : Tree} (q : Quantifier) (inner : Rearranged t u) :
      Rearranged (.repeated q t) (.repeated q u)
  | sequence {t t' u u' : Tree} (fst : Rearranged t t') (snd : Rearranged u u') :
      Rearranged (.sequence t u) (.sequence t' u')
  | alternate {t t' u u' : Tree} (fst : Rearranged t t') (snd : Rearranged u u') :
      Rearranged (.alternate t u) (.alternate t' u')

namespace Tree.Matches

variable {classes : ClassTable} {text : Text} {t : Tree} {q : Quantifier}

/-! ## Repetitions -/

theorem repeated_induction {motive : Nat → Nat → Prop} {i j : Nat}
    (h : (Tree.repeated q t).Matches classes text i j)
    (never : q ≠ .plus → ∀ i, i ≤ text.length → motive i i)
    (once : ∀ i j, t.Matches classes text i j → motive i j)
    (again : q ≠ .quest → ∀ i j k, t.Matches classes text i j → motive j k → motive i k) :
    motive i j := by
  generalize whole : Tree.repeated q t = u at h
  induction h with
  | atom | group | sequence | alternateLeft | alternateRight => cases whole
  | never optional bound =>
    cases whole
    exact never optional _ bound
  | once inner =>
    cases whole
    exact once _ _ inner
  | again endless fst more _ ih =>
    cases whole
    exact again endless _ _ _ fst (ih rfl)

theorem repeated_snoc {i j k : Nat} (endless : q ≠ .quest)
    (h : (Tree.repeated q t).Matches classes text i j) (last : t.Matches classes text j k) :
    (Tree.repeated q t).Matches classes text i k := by
  refine repeated_induction (motive := fun i j => t.Matches classes text j k →
    (Tree.repeated q t).Matches classes text i k) h ?_ ?_ ?_ last
  · intro _ i _ last
    exact .once last
  · intro i j fst last
    exact .again endless fst (.once last)
  · intro _ i j m fst more last
    exact .again endless fst (more last)

theorem star_append {i j k : Nat} (fst : (Tree.repeated .star t).Matches classes text i j)
    (snd : (Tree.repeated .star t).Matches classes text j k) :
    (Tree.repeated .star t).Matches classes text i k := by
  refine repeated_induction (motive := fun i j => (Tree.repeated .star t).Matches classes text j k →
    (Tree.repeated .star t).Matches classes text i k) fst ?_ ?_ ?_ snd
  · intro _ i _ snd
    exact snd
  · intro i j pass snd
    exact .again (by decide) pass snd
  · intro _ i j m pass more snd
    exact .again (by decide) pass (more snd)

theorem star_of_repeated {u : Tree} {i j : Nat}
    (within : ∀ i j, u.Matches classes text i j → (Tree.repeated .star t).Matches classes text i j)
    (h : (Tree.repeated q u).Matches classes text i j) :
    (Tree.repeated .star t).Matches classes text i j := by
  refine repeated_induction h ?_ within ?_
  · intro _ i bound
    exact .never (by decide) bound
  · intro _ i j k pass more
    exact star_append (within i j pass) more

/-- Two different quantifiers cover what a star does: one of them admits no pass, and one of them any
number. -/
theorem repeated_repeated_of_star {q' : Quantifier} {i j : Nat} (ne : q ≠ q')
    (h : (Tree.repeated .star t).Matches classes text i j) :
    (Tree.repeated q (.repeated q' t)).Matches classes text i j := by
  refine repeated_induction h ?_ ?_ ?_
  · intro _ i bound
    by_cases plus : q = .plus
    · subst plus
      exact .once (.never (Ne.symm ne) bound)
    · exact .never plus bound
  · intro i j pass
    exact .once (.once pass)
  · intro _ i j k pass more
    by_cases quest : q = .quest
    · subst quest
      refine .once ?_
      cases more with
      | never => exact .once pass
      | once inner => exact .again (Ne.symm ne) pass inner
      | again endless => exact absurd rfl endless
    · exact .again quest (.once pass) more

theorem star_of_repeated_repeated {q' : Quantifier} {i j : Nat}
    (h : (Tree.repeated q (.repeated q' t)).Matches classes text i j) :
    (Tree.repeated .star t).Matches classes text i j :=
  star_of_repeated (fun _ _ inner => star_of_repeated (fun _ _ pass => .once pass) inner) h

theorem repeated_comm {q' : Quantifier} {i j : Nat}
    (h : (Tree.repeated q (.repeated q' t)).Matches classes text i j) :
    (Tree.repeated q' (.repeated q t)).Matches classes text i j := by
  by_cases same : q = q'
  · subst same
    exact h
  · exact repeated_repeated_of_star (Ne.symm same) (star_of_repeated_repeated h)

theorem repeated_mono {u : Tree} {i j : Nat}
    (within : ∀ i j, t.Matches classes text i j → u.Matches classes text i j)
    (h : (Tree.repeated q t).Matches classes text i j) :
    (Tree.repeated q u).Matches classes text i j := by
  refine repeated_induction h ?_ ?_ ?_
  · intro optional i bound
    exact .never optional bound
  · intro i j pass
    exact .once (within i j pass)
  · intro endless i j k pass more
    exact .again endless (within i j pass) more

end Tree.Matches

/-! ## Rearranged trees -/

namespace Tree.Rearranged

variable {classes : ClassTable} {text : Text}

theorem symm {t u : Tree} (h : Rearranged t u) : Rearranged u t := by
  induction h with
  | refl t => exact .refl t
  | trans _ _ ih ih' => exact .trans ih' ih
  | swap q q' t => exact .swap q' q t
  | group opening _ ih => exact .group opening ih
  | repeated q _ ih => exact .repeated q ih
  | sequence _ _ ih ih' => exact .sequence ih ih'
  | alternate _ _ ih ih' => exact .alternate ih ih'

theorem matches_imp {t u : Tree} (h : Rearranged t u) :
    ∀ i j, t.Matches classes text i j → u.Matches classes text i j := by
  induction h with
  | refl t => exact fun _ _ m => m
  | trans _ _ ih ih' => exact fun i j m => ih' i j (ih i j m)
  | swap q q' t => exact fun i j m => Matches.repeated_comm m
  | group opening _ ih =>
    intro i j m
    cases m with
    | group inner => exact .group (ih i j inner)
  | repeated q _ ih => exact fun i j m => Matches.repeated_mono ih m
  | sequence _ _ ih ih' =>
    intro i k m
    cases m with
    | sequence fst snd => exact .sequence (ih _ _ fst) (ih' _ _ snd)
  | alternate _ _ ih ih' =>
    intro i j m
    cases m with
    | alternateLeft inner => exact .alternateLeft (ih i j inner)
    | alternateRight inner => exact .alternateRight (ih' i j inner)

theorem matches_iff {t u : Tree} (h : Rearranged t u) (i j : Nat) :
    t.Matches classes text i j ↔ u.Matches classes text i j :=
  ⟨h.matches_imp i j, h.symm.matches_imp i j⟩

end Tree.Rearranged

end CursorRegex
