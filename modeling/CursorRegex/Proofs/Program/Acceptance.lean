import CursorRegex.Proofs.Program.Runs

/-! # A program accepts what its term matches

A path from the entry of a block to an accepting instruction begins with a trace of the term, which is
a match (`Coded.splits`, `Runs.matches`).  Conversely every match is a path through the block
(`Coded.complete`).  Loops make the first an induction on the length of the path, and the second one on
the match.

So both halves of a program accept the ranges that the term matches (`Encodes.accepts_iff`), and
therefore the same ranges. -/
set_option autoImplicit false

namespace CursorRegex

namespace Term

variable {a : Arena} {classes : ClassTable} {text : Text} {dir : Direction}

/-! ## Every match is a path -/

theorem reaches_loop {q : Quantifier} {t : Tree} {f s pos pos' : Nat}
    {next : Option Nat} (fork : a.get? s = some ⟨.fork f, next⟩)
    (pass : ∀ pos pos', dir.Between (t.Matches classes text) pos pos' →
      a.Reaches classes text dir f pos s pos')
    (h : dir.Between ((Tree.repeated q t).Matches classes text) pos pos') :
    q ≠ .plus ∧ pos = pos' ∨ a.Reaches classes text dir f pos s pos' := by
  have back : ∀ pos, a.Reaches classes text dir s pos f pos :=
    fun pos => (Arena.Goes.forkRight fork).reaches
  cases dir with
  | forward =>
    refine Tree.Matches.repeated_induction (motive := fun i j =>
      q ≠ .plus ∧ i = j ∨ a.Reaches classes text .forward f i s j) h ?_ ?_ ?_
    · exact fun optional i _ => Or.inl ⟨optional, rfl⟩
    · exact fun i j fst => Or.inr (pass i j fst)
    · intro _ i j k fst more
      rcases more with ⟨-, rfl⟩ | more
      · exact Or.inr (pass i j fst)
      · exact Or.inr (((pass i j fst).trans (back j)).trans more)
  | backward =>
    refine Tree.Matches.repeated_induction (motive := fun i j =>
      q ≠ .plus ∧ j = i ∨ a.Reaches classes text .backward f j s i) h ?_ ?_ ?_
    · exact fun optional i _ => Or.inl ⟨optional, rfl⟩
    · exact fun i j fst => Or.inr (pass j i fst)
    · intro _ i j k fst more
      rcases more with ⟨-, rfl⟩ | more
      · exact Or.inr (pass k i fst)
      · exact Or.inr ((more.trans (back j)).trans (pass j i fst))

theorem Coded.complete {e : Term} {lo k pos pos' : Nat} (coded : e.Coded a dir lo k)
    (h : dir.Between (e.tree.Matches classes text) pos pos') :
    a.Reaches classes text dir (e.first dir lo) pos k pos' := by
  induction e generalizing lo k pos pos' with
  | atom x =>
    have read : dir.Between (x.Matches classes text) pos pos' := by
      refine Direction.between_mono (fun i j m => ?_) h
      cases m with
      | atom inner => exact inner
    exact (Arena.Goes.atom coded read).reaches
  | group opening number body ih =>
    obtain ⟨inside, close, opened⟩ := coded
    have read : dir.Between (body.tree.Matches classes text) pos pos' := by
      refine Direction.between_mono (fun i j m => ?_) h
      cases m with
      | group inner => exact inner
    have enter : a.Reaches classes text dir (lo + body.size + 1) pos (body.first dir lo) pos :=
      (Arena.Goes.openGroup opened).reaches
    exact (enter.trans (ih inside read)).trans (Arena.Goes.closeGroup close).reaches
  | repeated q body ih =>
    cases q with
    | star =>
      obtain ⟨inside, fork⟩ := coded
      have exit : a.Reaches classes text dir (lo + body.size) pos' k pos' :=
        (Arena.Goes.forkNext fork).reaches
      rcases reaches_loop fork (fun _ _ => ih inside) h with ⟨-, rfl⟩ | passes
      · exact exit
      · exact ((Arena.Goes.forkRight fork).reaches.trans passes).trans exit
    | plus =>
      obtain ⟨inside, fork⟩ := coded
      have exit : a.Reaches classes text dir (lo + body.size) pos' k pos' :=
        (Arena.Goes.forkNext fork).reaches
      rcases reaches_loop fork (fun _ _ => ih inside) h with ⟨optional, -⟩ | passes
      · exact absurd rfl optional
      · exact passes.trans exit
    | quest =>
      obtain ⟨inside, fork⟩ := coded
      have cases_read : pos = pos' ∨ dir.Between (body.tree.Matches classes text) pos pos' := by
        cases dir with
        | forward | backward =>
          cases h with
          | never => exact Or.inl rfl
          | once inner => exact Or.inr inner
          | again endless => exact absurd rfl endless
      rcases cases_read with rfl | read
      · exact (Arena.Goes.forkNext fork).reaches
      · exact (Arena.Goes.forkRight fork).reaches.trans (ih inside read)
  | sequence fst snd ih ih' =>
    cases dir with
    | forward =>
      cases h with
      | sequence read read' => exact (ih coded.1 read).trans (ih' coded.2 read')
    | backward =>
      cases h with
      | sequence read read' => exact (ih' coded.2 read').trans (ih coded.1 read)
  | alternate fst snd ih ih' =>
    obtain ⟨inside_fst, inside_snd, fork⟩ := coded
    have cases_read : dir.Between (fst.tree.Matches classes text) pos pos' ∨
        dir.Between (snd.tree.Matches classes text) pos pos' := by
      cases dir with
      | forward | backward =>
        cases h with
        | alternateLeft inner => exact Or.inl inner
        | alternateRight inner => exact Or.inr inner
    rcases cases_read with read | read
    · exact (Arena.Goes.forkRight fork).reaches.trans (ih inside_fst read)
    · exact (Arena.Goes.forkNext fork).reaches.trans (ih' inside_snd read)

end Term

/-! ## Whole programs -/

theorem matchesAt_congr {classes : ClassTable} {text : Text} {o : Option Term} {t : Option Tree}
    (same : Option.Rel (fun e t => Tree.Rearranged (Term.tree e) t) o t) (i j : Nat) :
    MatchesAt classes text (o.map Term.tree) i j ↔ MatchesAt classes text t i j := by
  cases same with
  | none => exact Iff.rfl
  | some same => exact same.matches_iff i j

namespace Program

variable {p : Program} {text : Text} {dir : Direction}

theorem Encodes.path_iff {o : Option Term} {pos pos' : Nat} (encodes : p.Encodes o)
    (low : pos ≤ text.length) (high : pos' ≤ text.length) :
    (∃ trace, p.AcceptingPath text dir pos pos' trace) ↔
      dir.Between (MatchesAt p.classes text (o.map Term.tree)) pos pos' := by
  obtain ⟨lo, entered, programs⟩ := encodes.halves dir
  constructor
  · rintro ⟨trace, r, next, path, accepts⟩
    rw [entered] at path
    cases o with
    | none =>
      rw [path.of_accept programs]
      cases dir <;> exact ⟨rfl, low⟩
    | some e =>
      obtain ⟨tr, mid, rest, rfl, runs, path⟩ := programs.1.splits accepts path
      rw [← path.of_accept programs.2] at runs
      exact runs.matches low high
  · intro reads
    cases o with
    | none =>
      have same : pos = pos' := by
        cases dir with
        | forward => exact reads.1
        | backward => exact reads.1.symm
      subst same
      exact ⟨[], lo, none, entered ▸ .nil lo pos, programs⟩
    | some e =>
      obtain ⟨trace, path⟩ := programs.1.complete reads
      exact ⟨trace, _, none, entered ▸ path, programs.2⟩

/-- In either direction, a program accepts a range of the text if its term matches there. -/
theorem Encodes.accepts_iff {o : Option Term} {i j : Nat} (encodes : p.Encodes o) (ordered : i ≤ j)
    (inside : j ≤ text.length) :
    p.Accepts text dir i j ↔ MatchesAt p.classes text (o.map Term.tree) i j := by
  have low := Nat.le_trans ordered inside
  cases dir with
  | forward => exact encodes.path_iff low inside
  | backward => exact encodes.path_iff inside low

/-- The two halves of a compiled program accept the same ranges of every text. -/
theorem accepts_forward_iff_backward {limits : Limits} {pattern : String}
    (compiled : compile limits pattern = .ok p) (text : Text) {i j : Nat} (ordered : i ≤ j)
    (inside : j ≤ text.length) : p.Accepts text .forward i j ↔ p.Accepts text .backward i j := by
  obtain ⟨tokens, o, t, -, -, encodes, -, -⟩ := compile_eq_ok compiled
  rw [encodes.accepts_iff ordered inside, encodes.accepts_iff ordered inside]

/-- A loop that is left in front of a newline, read from the left and hence from the right. -/
theorem accepts_loop_before_newline : ∃ p, compile {} "ab*$" = .ok p ∧ 0 ≤ 3 ∧
    3 ≤ (Text.ofArray #['a', 'b', 'b', '\n']).length ∧
    p.Accepts (.ofArray #['a', 'b', 'b', '\n']) .forward 0 3 ∧
    p.Accepts (.ofArray #['a', 'b', 'b', '\n']) .backward 0 3 := by
  have compiled : compile {} "ab*$" = .ok
      ⟨⟨#[⟨.atom (.char 'a'), some 2⟩, ⟨.atom (.char 'b'), some 2⟩, ⟨.fork 1, some 3⟩,
        ⟨.atom .lineEnd, some 4⟩, ⟨.accept, none⟩, ⟨.atom (.char 'a'), some 9⟩,
        ⟨.atom (.char 'b'), some 7⟩, ⟨.fork 6, some 5⟩, ⟨.atom .lineEnd, some 7⟩,
        ⟨.accept, none⟩]⟩, ⟨#[]⟩, 0, 8, 0, 5⟩ := by decide +kernel
  refine ⟨_, compiled, by decide, by decide, ?_⟩
  have same := accepts_forward_iff_backward compiled (.ofArray #['a', 'b', 'b', '\n'])
    (show 0 ≤ 3 by decide) (show 3 ≤ 4 by decide)
  rw [← same, and_self]
  refine ⟨[(0, 0), (2, 1), (1, 1), (2, 2), (1, 2), (2, 3), (3, 3)], 4, none, ?_, rfl⟩
  refine .cons (j := 2) (.atom rfl (.char rfl)) ?_
  refine .cons (j := 1) (.forkRight rfl) (.cons (j := 2) (.atom rfl (.char rfl)) ?_)
  refine .cons (j := 1) (.forkRight rfl) (.cons (j := 2) (.atom rfl (.char rfl)) ?_)
  exact .cons (j := 3) (.forkNext rfl) (.cons (j := 4) (.atom rfl (.lineEnd rfl)) (.nil 4 3))

end Program

end CursorRegex
