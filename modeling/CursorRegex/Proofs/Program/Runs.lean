import CursorRegex.Proofs.Program.Paths

/-! # How a term is run through

`Term.Runs` is the grammar of the traces of a term: which instructions a path leaves in its block, one
after the other and at which positions, until it comes to the way out.  Every path from the entry of a
block to an accepting instruction begins with such a trace (`Coded.splits`), and what the trace reads is a
match of the term (`Runs.matches`). -/
set_option autoImplicit false

namespace CursorRegex

namespace Term

variable {classes : ClassTable} {text : Text} {dir : Direction}

section

variable (classes text dir)

inductive Runs : Term → Nat → Nat → List (Nat × Nat) → Nat → Prop where
  | atom {x : Atom} {lo pos mid : Nat} (range : dir.Between (x.Matches classes text) pos mid) :
      Runs (.atom x) lo pos [(lo, pos)] mid
  | group {opening : Span} {number : Option Nat} {body : Term} {lo pos mid : Nat}
      {tr : List (Nat × Nat)} (inner : Runs body lo pos tr mid) :
      Runs (.group opening number body) lo pos
        ((lo + body.size + 1, pos) :: (tr ++ [(lo + body.size, mid)])) mid
  | skip {q : Quantifier} {body : Term} {lo pos : Nat} (optional : q ≠ .plus) :
      Runs (.repeated q body) lo pos [(lo + body.size, pos)] pos
  | quest {body : Term} {lo pos mid : Nat} {tr : List (Nat × Nat)} (inner : Runs body lo pos tr mid) :
      Runs (.repeated .quest body) lo pos ((lo + body.size, pos) :: tr) mid
  | star {body : Term} {lo pos mid mid' : Nat} {tr tr' : List (Nat × Nat)}
      (inner : Runs body lo pos tr mid) (more : Runs (.repeated .star body) lo mid tr' mid') :
      Runs (.repeated .star body) lo pos ((lo + body.size, pos) :: (tr ++ tr')) mid'
  | plus {body : Term} {lo pos mid mid' : Nat} {tr tr' : List (Nat × Nat)}
      (inner : Runs body lo pos tr mid) (more : Runs (.repeated .star body) lo mid tr' mid') :
      Runs (.repeated .plus body) lo pos (tr ++ tr') mid'
  | sequenceForward {fst snd : Term} {lo pos mid mid' : Nat} {tr tr' : List (Nat × Nat)}
      (is : dir = .forward) (first : Runs fst lo pos tr mid)
      (second : Runs snd (lo + fst.size) mid tr' mid') :
      Runs (.sequence fst snd) lo pos (tr ++ tr') mid'
  | sequenceBackward {fst snd : Term} {lo pos mid mid' : Nat} {tr tr' : List (Nat × Nat)}
      (is : dir = .backward) (first : Runs snd (lo + fst.size) pos tr mid)
      (second : Runs fst lo mid tr' mid') : Runs (.sequence fst snd) lo pos (tr ++ tr') mid'
  | alternateLeft {fst snd : Term} {lo pos mid : Nat} {tr : List (Nat × Nat)}
      (inner : Runs fst lo pos tr mid) :
      Runs (.alternate fst snd) lo pos ((lo + fst.size + snd.size + 1, pos) :: tr) mid
  | alternateRight {fst snd : Term} {lo pos mid : Nat} {tr : List (Nat × Nat)}
      (inner : Runs snd (lo + fst.size) pos tr mid) :
      Runs (.alternate fst snd) lo pos ((lo + fst.size + snd.size + 1, pos) :: tr) mid

end

/-! ## What a trace reads -/

theorem between_le_trans {pos mid pos' : Nat} (fst : dir.Between (· ≤ ·) pos mid)
    (snd : dir.Between (· ≤ ·) mid pos') : dir.Between (· ≤ ·) pos pos' := by
  cases dir with
  | forward => exact Nat.le_trans fst snd
  | backward => exact Nat.le_trans snd fst

theorem between_le_refl (dir : Direction) (pos : Nat) : dir.Between (· ≤ ·) pos pos := by
  cases dir <;> exact Nat.le_refl pos

theorem le_of_between {pos mid pos' n : Nat} (fst : dir.Between (· ≤ ·) pos mid)
    (snd : dir.Between (· ≤ ·) mid pos') (low : pos ≤ n) (high : pos' ≤ n) : mid ≤ n := by
  cases dir with
  | forward => exact Nat.le_trans snd high
  | backward => exact Nat.le_trans fst low

theorem Runs.le {e : Term} {lo pos mid : Nat} {tr : List (Nat × Nat)}
    (h : e.Runs classes text dir lo pos tr mid) : dir.Between (· ≤ ·) pos mid := by
  induction h with
  | atom range => exact Direction.between_mono (fun _ _ => Atom.Matches.le) range
  | skip => exact between_le_refl dir _
  | group _ ih | quest _ ih | alternateLeft _ ih | alternateRight _ ih => exact ih
  | star _ _ ih ih' | plus _ _ ih ih' => exact between_le_trans ih ih'
  | sequenceForward _ _ _ ih ih' => exact between_le_trans ih ih'
  | sequenceBackward _ _ _ ih ih' => exact between_le_trans ih ih'

theorem between_again {q : Quantifier} {t : Tree} {pos mid pos' : Nat}
    (endless : q ≠ .quest) (fst : dir.Between (t.Matches classes text) pos mid)
    (more : dir.Between ((Tree.repeated q t).Matches classes text) mid pos') :
    dir.Between ((Tree.repeated q t).Matches classes text) pos pos' := by
  cases dir with
  | forward => exact .again endless fst more
  | backward => exact Tree.Matches.repeated_snoc endless more fst

theorem between_plus {t : Tree} {pos mid pos' : Nat}
    (fst : dir.Between (t.Matches classes text) pos mid)
    (more : dir.Between ((Tree.repeated .star t).Matches classes text) mid pos') :
    dir.Between ((Tree.repeated .plus t).Matches classes text) pos pos' := by
  have plus_of_star : ∀ i j, (Tree.repeated .star t).Matches classes text i j →
      i = j ∨ (Tree.repeated .plus t).Matches classes text i j := by
    intro i j reads
    refine Tree.Matches.repeated_induction (motive := fun i j =>
      i = j ∨ (Tree.repeated .plus t).Matches classes text i j) reads ?_ ?_ ?_
    · exact fun _ i _ => Or.inl rfl
    · exact fun i j pass => Or.inr (.once pass)
    · intro _ i j k pass more
      rcases more with rfl | more
      · exact Or.inr (.once pass)
      · exact Or.inr (.again (by decide) pass more)
  cases dir with
  | forward =>
    rcases plus_of_star _ _ more with rfl | more
    · exact .once fst
    · exact .again (by decide) fst more
  | backward =>
    rcases plus_of_star _ _ more with rfl | more
    · exact .once fst
    · exact Tree.Matches.repeated_snoc (by decide) more fst

theorem Runs.matches {e : Term} {lo pos mid : Nat} {tr : List (Nat × Nat)}
    (h : e.Runs classes text dir lo pos tr mid) (low : pos ≤ text.length)
    (high : mid ≤ text.length) : dir.Between (e.tree.Matches classes text) pos mid := by
  induction h with
  | atom range => exact Direction.between_mono (fun _ _ => .atom) range
  | group _ ih => exact Direction.between_mono (fun _ _ => .group) (ih low high)
  | skip optional => cases dir <;> exact .never optional low
  | quest _ ih => exact Direction.between_mono (fun _ _ => .once) (ih low high)
  | star inner more ih ih' =>
    have between := le_of_between inner.le more.le low high
    exact between_again (by decide) (ih low between) (ih' between high)
  | plus inner more ih ih' =>
    have between := le_of_between inner.le more.le low high
    exact between_plus (ih low between) (ih' between high)
  | sequenceForward is first second ih ih' =>
    have between := le_of_between first.le second.le low high
    subst is
    exact .sequence (ih low between) (ih' between high)
  | sequenceBackward is first second ih ih' =>
    have between := le_of_between first.le second.le low high
    subst is
    exact .sequence (ih' between high) (ih low between)
  | alternateLeft _ ih => exact Direction.between_mono (fun _ _ => .alternateLeft) (ih low high)
  | alternateRight _ ih => exact Direction.between_mono (fun _ _ => .alternateRight) (ih low high)

/-! ## Paths begin with traces -/

variable {a : Arena}

/-- The part of a path that goes through a block is a trace of it, and the path goes on at `k`. -/
def Splits (a : Arena) (classes : ClassTable) (text : Text) (dir : Direction)
    (runs : List (Nat × Nat) → Nat → Prop) (k r pos' : Nat) (trace : List (Nat × Nat)) : Prop :=
  ∃ tr mid rest, trace = tr ++ rest ∧ runs tr mid ∧ a.Path classes text dir k mid rest r pos'

/-- Through a loop, paths make any number of passes. -/
theorem splits_loop {body : Term} {lo k r pos pos' : Nat} {next : Option Nat}
    {trace : List (Nat × Nat)}
    (fork : a.get? (lo + body.size) = some ⟨.fork (body.first dir lo), some k⟩)
    (accepts : a.get? r = some ⟨.accept, next⟩)
    (pass : ∀ pos trace, a.Path classes text dir (body.first dir lo) pos trace r pos' →
      Splits a classes text dir (body.Runs classes text dir lo pos) (lo + body.size) r pos' trace)
    (path : a.Path classes text dir (lo + body.size) pos trace r pos') :
    Splits a classes text dir ((Term.repeated .star body).Runs classes text dir lo pos) k r pos'
      trace := by
  induction hn : trace.length using Nat.strongRecOn generalizing pos trace with
  | ind n ih =>
    subst hn
    obtain ⟨j, pos₁, rest, rfl, goes, tail⟩ := path.exists_cons fork nofun accepts
    obtain ⟨rfl | rfl, rfl⟩ := Arena.goes_fork fork goes
    · exact ⟨[_], _, rest, rfl, .skip (by decide), tail⟩
    · obtain ⟨tr, mid, rest₁, rfl, runs, again⟩ := pass _ rest tail
      have shorter : rest₁.length < ((lo + body.size, pos₁) :: (tr ++ rest₁)).length := by
        rw [List.length_cons, List.length_append]
        omega
      obtain ⟨tr', mid', rest₂, rfl, more, onward⟩ := ih rest₁.length shorter again rfl
      refine ⟨(lo + body.size, pos₁) :: (tr ++ tr'), mid', rest₂, ?_, .star runs more, onward⟩
      rw [List.cons_append, List.append_assoc]

theorem Coded.splits {e : Term} {lo k r pos pos' : Nat} {next : Option Nat}
    {trace : List (Nat × Nat)} (coded : e.Coded a dir lo k)
    (accepts : a.get? r = some ⟨.accept, next⟩)
    (path : a.Path classes text dir (e.first dir lo) pos trace r pos') :
    Splits a classes text dir (e.Runs classes text dir lo pos) k r pos' trace := by
  induction e generalizing lo k pos trace with
  | atom x =>
    obtain ⟨j, mid, rest, rfl, goes, tail⟩ := path.exists_cons coded nofun accepts
    obtain ⟨link, read⟩ := Arena.goes_atom coded goes
    cases link
    exact ⟨[_], mid, rest, rfl, .atom read, tail⟩
  | group opening number body ih =>
    obtain ⟨inside, close, opened⟩ := coded
    obtain ⟨j, pos₁, rest, rfl, goes, tail⟩ := path.exists_cons opened nofun accepts
    obtain ⟨rfl, rfl⟩ := Arena.goes_openGroup opened goes
    obtain ⟨tr, mid, rest₁, rfl, runs, inner⟩ := ih inside tail
    obtain ⟨j, pos₂, rest₂, rfl, goes, onward⟩ := inner.exists_cons close nofun accepts
    obtain ⟨rfl, rfl⟩ := Arena.goes_closeGroup close goes
    refine ⟨_ :: (tr ++ [_]), pos₂, rest₂, ?_, .group runs, onward⟩
    rw [List.cons_append, List.append_assoc]
    rfl
  | repeated q body ih =>
    cases q with
    | star => exact splits_loop coded.2 accepts (fun _ _ => ih coded.1) path
    | plus =>
      obtain ⟨inside, fork⟩ := coded
      obtain ⟨tr, mid, rest, rfl, runs, again⟩ := ih inside path
      obtain ⟨tr', mid', rest', rfl, more, onward⟩ :=
        splits_loop fork accepts (fun _ _ => ih inside) again
      exact ⟨tr ++ tr', mid', rest', (List.append_assoc _ _ _).symm, .plus runs more, onward⟩
    | quest =>
      obtain ⟨inside, fork⟩ := coded
      obtain ⟨j, pos₁, rest, rfl, goes, tail⟩ := path.exists_cons fork nofun accepts
      obtain ⟨rfl | rfl, rfl⟩ := Arena.goes_fork fork goes
      · exact ⟨[_], _, rest, rfl, .skip (by decide), tail⟩
      · obtain ⟨tr, mid, rest₁, rfl, runs, onward⟩ := ih inside tail
        exact ⟨_ :: tr, mid, rest₁, rfl, .quest runs, onward⟩
  | sequence fst snd ih ih' =>
    cases dir with
    | forward =>
      obtain ⟨tr, mid, rest, rfl, runs, next⟩ := ih coded.1 path
      obtain ⟨tr', mid', rest', rfl, runs', onward⟩ := ih' coded.2 next
      exact ⟨tr ++ tr', mid', rest', (List.append_assoc _ _ _).symm,
        .sequenceForward rfl runs runs', onward⟩
    | backward =>
      obtain ⟨tr, mid, rest, rfl, runs, next⟩ := ih' coded.2 path
      obtain ⟨tr', mid', rest', rfl, runs', onward⟩ := ih coded.1 next
      exact ⟨tr ++ tr', mid', rest', (List.append_assoc _ _ _).symm,
        .sequenceBackward rfl runs runs', onward⟩
  | alternate fst snd ih ih' =>
    obtain ⟨inside_fst, inside_snd, fork⟩ := coded
    obtain ⟨j, pos₁, rest, rfl, goes, tail⟩ := path.exists_cons fork nofun accepts
    obtain ⟨rfl | rfl, rfl⟩ := Arena.goes_fork fork goes
    · obtain ⟨tr, mid, rest₁, rfl, runs, onward⟩ := ih' inside_snd tail
      exact ⟨_ :: tr, mid, rest₁, rfl, .alternateRight runs, onward⟩
    · obtain ⟨tr, mid, rest₁, rfl, runs, onward⟩ := ih inside_fst tail
      exact ⟨_ :: tr, mid, rest₁, rfl, .alternateLeft runs, onward⟩

end Term

end CursorRegex
