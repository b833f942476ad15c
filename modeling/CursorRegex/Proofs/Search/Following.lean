import CursorRegex.Proofs.Program.Acceptance
import CursorRegex.Proofs.Search.Running
import CursorRegex.Proofs.Search.View

/-! # Threads follow paths

At one position of a scan, a thread goes where paths of the program go in the part of the text that is
searched (`Moves.goes`, `Takes.goes`).  Conversely, once all threads have run, the paths that led on
from them have been followed up to the next position, or to an accepting instruction and then a match
is found that is no worse (`leads_of_ran`).  A path may branch off into a thread that some other attempt
has put there, but only into one that began no later. -/
set_option autoImplicit false

namespace CursorRegex.Scan

variable {limit left i j r e seed : Nat} {s : Scan} {t t' : Thread} {b : Board limit}

theorem judges (ready : s.Ready) (bound : left ≤ s.extent) : Judges s.program (s.cursor left) := by
  intro i x next here
  obtain ⟨v, verdict, -⟩ := verdict_eq ready bound (ready.closed.refers _ _ here)
  exact ⟨v, verdict⟩

def Goes (s : Scan) (i pos j pos' : Nat) : Prop :=
  s.program.arena.Goes s.program.classes s.view s.dir i pos j pos'

def Leads (s : Scan) (i pos e : Nat) : Prop :=
  ∃ trace r next, s.program.arena.Path s.program.classes s.view s.dir i pos trace r e ∧
    s.program.arena.get? r = some ⟨.accept, next⟩

theorem visit_eq (ready : s.Ready) (bound : left ≤ s.extent) (admits : Nat → Bool)
    (b : Board limit) :
    s.visit admits left b =
      if s.skips (s.upcoming left) b then .ok b
      else s.seed admits left b >>= fun b => b.runFrom s.program (s.cursor left) 0 >>= fun b =>
        .ok b.advance :=
  mapError_bind (ahead_eq ready bound) _

theorem lap_succ (s : Scan) (admits : Nat → Bool) (left : Nat) (b : Board limit) :
    s.lap admits (left + 1) b =
      if b.current.isEmpty && !s.attempts admits (left + 1) b then .ok b
      else s.visit admits (left + 1) b >>= s.lap admits left := by
  rw [lap]
  split
  · rfl
  · cases s.visit admits (left + 1) b <;> rfl

/-- What visits establish for one place after the other holds after a lap, also if the lap ends early. -/
theorem achieves_lap_of {halted : Board limit → Prop} {inv : Nat → Board limit → Prop}
    {admits : Nat → Bool}
    (visits : ∀ place b, place ≤ left → inv (place + 1) b →
      Achieves halted (inv place) (s.visit admits place b))
    (ends : ∀ place b, place < left → inv (place + 2) b → b.current.isEmpty = true →
      s.attempts admits (place + 1) b = false → inv 0 b)
    (h : inv (left + 1) b) : Achieves halted (inv 0) (s.lap admits left b) := by
  induction left generalizing b with
  | zero => exact visits 0 b (Nat.le_refl 0) h
  | succ left ih =>
    rw [lap_succ]
    by_cases early : (b.current.isEmpty && !s.attempts admits (left + 1) b) = true
    · rw [if_pos early]
      rw [Bool.and_eq_true, Bool.not_eq_true'] at early
      exact ends left b (Nat.lt_succ_self left) h early.1 early.2
    · rw [if_neg early]
      refine (visits (left + 1) b (Nat.le_refl _) h).bind fun b₁ visited => ?_
      exact ih (fun place b below => visits place b (Nat.le_succ_of_le below))
        (fun place b below => ends place b (Nat.lt_succ_of_lt below)) visited

/-! ## Threads go where paths go -/

theorem Moves.goes (ready : s.Ready) (bound : left ≤ s.extent)
    (moves : t.Moves s.program (s.cursor left) t') :
    s.Goes t.inst (s.pos left) t'.inst (s.pos left) ∧ t'.seed = t.seed := by
  cases moves with
  | atom here verdict =>
    obtain ⟨v, verdict', passes, -⟩ := verdict_eq ready bound (ready.closed.refers _ _ here)
    cases verdict'.symm.trans verdict
    exact ⟨.atom here (passes.mp rfl), rfl⟩
  | openGroup here => exact ⟨.openGroup here, rfl⟩
  | closeGroup here => exact ⟨.closeGroup here, rfl⟩
  | empty here => exact ⟨.empty here, rfl⟩
  | forkNext here => exact ⟨.forkNext here, rfl⟩
  | forkRight here => exact ⟨.forkRight here, rfl⟩

theorem Takes.goes (ready : s.Ready) (bound : left ≤ s.extent)
    (takes : t.Takes s.program (s.cursor left) t') :
    (∃ k, left = k + 1 ∧ s.Goes t.inst (s.pos left) t'.inst (s.pos k)) ∧ t'.seed = t.seed := by
  cases takes with
  | atom here verdict =>
    obtain ⟨v, verdict', -, taken⟩ := verdict_eq ready bound (ready.closed.refers _ _ here)
    cases verdict'.symm.trans verdict
    obtain ⟨k, before, range⟩ := taken.mp rfl
    exact ⟨⟨k, before, .atom here range⟩, rfl⟩

/-! ## Paths go where threads go -/

theorem step_of_between {x : Atom} {pos' : Nat} (bound : left ≤ s.extent)
    (range : s.dir.Between (x.Matches s.program.classes s.view) (s.pos left) pos') :
    pos' = s.pos left ∨ ∃ k, left = k + 1 ∧ pos' = s.pos k := by
  cases dir : s.dir with
  | forward =>
    rw [dir] at range
    have at_left : s.pos left = s.extent - left := by simp [pos, dir]
    rcases range.step with same | next
    · exact Or.inl same
    · subst next
      obtain ⟨c, found, -⟩ := Atom.matches_succ_iff.mp range
      cases left with
      | zero =>
        rw [at_left, Nat.sub_zero, view, Text.charAt?_take_of_le (Nat.le_refl _)] at found
        cases found
      | succ k =>
        refine Or.inr ⟨k, rfl, ?_⟩
        simp only [pos, dir]
        omega
  | backward =>
    rw [dir] at range
    have at_left : s.pos left = left := by simp [pos, dir]
    rcases range.step with same | next
    · exact Or.inl same.symm
    · refine Or.inr ⟨pos', at_left.symm.trans next, ?_⟩
      simp [pos, dir]

/-- From an atom that was passed, paths go on at the same position, and from one that took a character
at the next. -/
theorem goes_atom (ready : s.Ready) (bound : left ≤ s.extent) {x : Atom} {next : Option Nat}
    {pos' : Nat} {v : Verdict} (here : s.program.arena.get? i = some ⟨.atom x, next⟩)
    (verdict : (s.cursor left).verdict s.program.classes x = .ok v)
    (goes : s.Goes i (s.pos left) j pos') :
    next = some j ∧ (v = .pass ∧ pos' = s.pos left ∨
      v = .take ∧ ∃ k, left = k + 1 ∧ pos' = s.pos k) := by
  obtain ⟨w, verdict', passes, takes⟩ := verdict_eq ready bound (ready.closed.refers _ _ here)
  cases verdict'.symm.trans verdict
  obtain ⟨link, range⟩ := Arena.goes_atom here goes
  refine ⟨link, ?_⟩
  rcases step_of_between bound range with rfl | ⟨k, before, rfl⟩
  · exact Or.inl ⟨passes.mpr range, rfl⟩
  · exact Or.inr ⟨takes.mpr ⟨k, before, range⟩, k, before, rfl⟩

theorem Passes.goes (ready : s.Ready) (bound : left ≤ s.extent) {target pos' : Nat}
    (passes : Passes s.program (s.cursor left) i target) (goes : s.Goes i (s.pos left) j pos') :
    j = target ∧ pos' = s.pos left := by
  cases passes with
  | atom here verdict =>
    obtain ⟨link, ⟨-, pos_eq⟩ | ⟨taken, -⟩⟩ := goes_atom ready bound here verdict goes
    · cases link
      exact ⟨rfl, pos_eq⟩
    · cases taken
  | openGroup here => exact Arena.goes_openGroup here goes
  | closeGroup here => exact Arena.goes_closeGroup here goes
  | empty here => exact Arena.goes_empty here goes

/-- What a thread that has run owes to a path from its instruction: a match, a thread at the next
position, or a thread in the list that is being run, with less of the path before it. -/
theorem owes_of_ran (ready : s.Ready) (bound : left ≤ s.extent) {trace : List (Nat × Nat)}
    {next : Option Nat} (ran : Ran s.program (s.cursor left) b seed i)
    (path : s.program.arena.Path s.program.classes s.view s.dir i (s.pos left) trace r e)
    (accepts : s.program.arena.get? r = some ⟨.accept, next⟩) :
    Found s.dir b.best (s.dir.spanOf seed e) ∨
      (∃ k j, left = k + 1 ∧ b.next.Covers s.dir j seed ∧ s.Leads j (s.pos k) e) ∨
      ∃ right rest, b.current.Covers s.dir right seed ∧ rest.length < trace.length ∧
        s.program.arena.Path s.program.classes s.view s.dir right (s.pos left) rest r e := by
  induction ran generalizing trace with
  | stopped here verdict =>
    obtain ⟨j, pos', rest, shorter, goes, tail⟩ := path.step here nofun accepts
    obtain ⟨-, ⟨passed, -⟩ | ⟨taken, -⟩⟩ := goes_atom ready bound here verdict goes
    · cases passed
    · cases taken
  | took here verdict covered =>
    obtain ⟨j, pos', rest, shorter, goes, tail⟩ := path.step here nofun accepts
    obtain ⟨link, ⟨passed, -⟩ | ⟨-, k, rfl, rfl⟩⟩ := goes_atom ready bound here verdict goes
    · cases passed
    · cases link
      exact Or.inr (Or.inl ⟨k, _, rfl, covered, rest, r, next, tail, accepts⟩)
  | won here found =>
    rw [path.of_accept here]
    exact Or.inl found
  | passed passes _ ih =>
    obtain ⟨kind, next', here, ne⟩ := passes.here
    obtain ⟨j, pos', rest, shorter, goes, tail⟩ := path.step here ne accepts
    obtain ⟨rfl, rfl⟩ := Passes.goes ready bound passes goes
    rcases ih tail with found | onward | ⟨right, rest', covered', shorter', branch⟩
    · exact Or.inl found
    · exact Or.inr (Or.inl onward)
    · exact Or.inr (Or.inr ⟨right, rest', covered', by omega, branch⟩)
  | forked here covered _ ih =>
    obtain ⟨j, pos', rest, shorter, goes, tail⟩ := path.step here nofun accepts
    obtain ⟨rfl | rfl, rfl⟩ := Arena.goes_fork here goes
    · rcases ih tail with found | onward | ⟨right, rest', covered', shorter', branch⟩
      · exact Or.inl found
      · exact Or.inr (Or.inl onward)
      · exact Or.inr (Or.inr ⟨right, rest', covered', by omega, branch⟩)
    · exact Or.inr (Or.inr ⟨_, rest, covered, shorter, tail⟩)

/-- Once all threads have run, each path from one that waited has been followed. -/
theorem leads_of_ran (ready : s.Ready) (bound : left ≤ s.extent)
    (all : ∀ t ∈ b.current.threads, Ran s.program (s.cursor left) b t.seed t.inst)
    (covered : b.current.Covers s.dir i seed) (leads : s.Leads i (s.pos left) e) :
    Found s.dir b.best (s.dir.spanOf seed e) ∨
      ∃ k j, left = k + 1 ∧ b.next.Covers s.dir j seed ∧ s.Leads j (s.pos k) e := by
  obtain ⟨trace, r, next, path, accepts⟩ := leads
  -- each branch into another thread leaves a shorter path
  induction hn : trace.length using Nat.strongRecOn generalizing i trace with
  | ind n ih =>
    subst hn
    obtain ⟨t, member, rfl, le⟩ := covered
    rcases owes_of_ran ready bound (all t member) path accepts with
      found | ⟨k, j, rfl, covered, onward⟩ | ⟨right, rest, covered, shorter, branch⟩
    · exact Or.inl (found.of_not_beats (Direction.not_beats_spanOf le e))
    · exact Or.inr ⟨k, j, rfl, covered.of_not_prefers le, onward⟩
    · exact ih rest.length shorter (covered.of_not_prefers le) rest branch rfl

end CursorRegex.Scan
