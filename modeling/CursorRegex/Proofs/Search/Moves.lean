import CursorRegex.Proofs.Search.Queries
import Mathlib.Logic.Function.Iterate

/-! # A search, move by move

The functions that search call each other to the end.  Here a search makes one move at a time: it comes to
a place, takes a thread off the list there, or runs one instruction (`Scan.move`).  What is left to do
gives the same answer before and after each move (`Scan.answer_move`), as long as a thread has fuel left.
Of every stage on the way it can be said how many places were visited so far, how many threads are on the
list and how far a thread has come. -/
set_option autoImplicit false

namespace CursorRegex

/-- What a search does next: it visits a place, looks for a thread behind the first `ran` on the list of a
place, or runs the instruction that a thread has reached through `hops` others, as one of the first `ran`;
or a lap has ended the search. -/
inductive Task (limit : Nat) where
  | place (left : Nat) (b : Board limit)
  | list (left ran : Nat) (b : Board limit)
  | thread (left ran hops : Nat) (t : Thread) (b : Board limit)
  | ended (result : Except (Halt (Board limit)) (Board limit))

/-- How far a search is: whether it has wrapped around, how many places it has visited, and what it does
next. -/
structure Stage (limit : Nat) where
  wrapped : Bool
  visits : Nat
  task : Task limit

def Task.threads {limit : Nat} : Task limit → List Thread
  | .place _ b => b.current.threads.toList
  | .list _ _ b => b.current.threads.toList
  | .thread _ _ _ _ b => b.current.threads.toList
  | .ended _ => []

namespace Scan

variable {limit : Nat} (s : Scan) (start : Nat) (bounded : Bool)

def admits (wrapped : Bool) (pos : Nat) : Bool := !wrapped || s.dir.prefers pos start

def logged (wrapped : Bool) : List Event := if wrapped then [.wrapped s.dir s.extent] else []

def endLap (wrapped : Bool) (visits : Nat) (b : Board limit) : Stage limit :=
  if wrapped || (b.best.isSome || bounded) then ⟨wrapped, visits, .ended (.ok b)⟩
  else ⟨true, visits, .place s.extent b.drop⟩

def leave (wrapped : Bool) (visits : Nat) : Nat → Board limit → Stage limit
  | 0, b => s.endLap bounded wrapped visits b
  | left + 1, b => ⟨wrapped, visits, .place left b⟩

def move : Stage limit → Stage limit
  | ⟨wrapped, visits, .place left b⟩ =>
    if left != 0 && (b.current.isEmpty && !s.attempts (s.admits start wrapped) left b) then
      s.endLap bounded wrapped visits b
    else if s.skips (s.upcoming left) b then s.leave bounded wrapped (visits + 1) left b
    else
      match s.seed (s.admits start wrapped) left b with
      | .error halt => ⟨wrapped, visits + 1, .ended (.error halt)⟩
      | .ok b => ⟨wrapped, visits + 1, .list left 0 b⟩
  | ⟨wrapped, visits, .list left ran b⟩ =>
    if h : ran < b.current.threads.size then
      ⟨wrapped, visits, .thread left (ran + 1) 0 b.current.threads[ran] b⟩
    else s.leave bounded wrapped visits left b.advance
  | ⟨wrapped, visits, .thread left ran hops t b⟩ =>
    match b.hop s.program (s.cursor left) ran t with
    | .error halt => ⟨wrapped, visits, .ended (.error halt)⟩
    | .ok (none, b) => ⟨wrapped, visits, .list left ran b⟩
    | .ok (some t, b) => ⟨wrapped, visits, .thread left ran (hops + 1) t b⟩
  | ⟨wrapped, visits, .ended result⟩ => ⟨wrapped, visits, .ended result⟩

def stageAt (b : Board limit) (turns : Nat) : Stage limit :=
  (s.move start bounded)^[turns] ⟨false, 0, .place (s.leftAt start) b⟩

def report? : Stage limit → Option Report
  | ⟨wrapped, _, .ended (.ok b)⟩ => some ⟨b.best, s.logged wrapped⟩
  | ⟨wrapped, _, .ended (.error (.overflow _))⟩ => some ⟨none, s.logged wrapped ++ [.listOverflow]⟩
  | _ => none

def Wraps (stage : Stage limit) : Prop :=
  stage.wrapped = false ∧ (s.move start bounded stage).wrapped = true

/-! ## What is left to do -/

def onward (admits : Nat → Bool) : Nat → Board limit → Except (Halt (Board limit)) (Board limit)
  | 0, b => .ok b
  | left + 1, b => s.lap admits left b

def outcome (admits : Nat → Bool) : Task limit → Except (Halt (Board limit)) (Board limit)
  | .place left b => s.lap admits left b
  | .list left ran b =>
    b.runFrom s.program (s.cursor left) ran >>= fun b => s.onward admits left b.advance
  | .thread left ran hops t b =>
    b.drive s.program (s.cursor left) ran (s.program.arena.size - hops) t >>= fun b =>
      b.runFrom s.program (s.cursor left) ran >>= fun b => s.onward admits left b.advance
  | .ended result => result

def settle (wrapped : Bool) (result : Except (Halt (Board limit)) (Board limit)) :
    Except Fault (Report × Board limit) :=
  match wrapped, result with
  | true, result => conclude [.wrapped s.dir s.extent] result
  | false, .ok b =>
    if b.best.isSome || bounded then conclude [] (.ok b)
    else conclude [.wrapped s.dir s.extent] (s.lap (s.admits start true) s.extent b.drop)
  | false, .error halt => conclude [] (.error halt)

def answer (stage : Stage limit) : Except Fault (Report × Board limit) :=
  s.settle start bounded stage.wrapped (s.outcome (s.admits start stage.wrapped) stage.task)

variable {s start bounded} {left : Nat} {b : Board limit} {stage : Stage limit}

theorem stageAt_succ (s : Scan) (start : Nat) (bounded : Bool) (b : Board limit) (turns : Nat) :
    s.stageAt start bounded b (turns + 1) = s.move start bounded (s.stageAt start bounded b turns) :=
  Function.iterate_succ_apply' ..

theorem run_eq_answer (s : Scan) (start : Nat) (bounded : Bool) (b : Board limit) :
    s.run start bounded b = s.answer start bounded ⟨false, 0, .place (s.leftAt start) b⟩ := by
  change _ = s.settle start bounded false (s.lap (fun _ => true) (s.leftAt start) b)
  unfold run
  cases s.lap (fun _ => true) (s.leftAt start) b <;> rfl

theorem endLap_cases (s : Scan) (bounded wrapped : Bool) (visits : Nat) (b : Board limit) :
    (wrapped || (b.best.isSome || bounded)) = true ∧
        s.endLap bounded wrapped visits b = ⟨wrapped, visits, .ended (.ok b)⟩ ∨
      wrapped = false ∧ (b.best.isSome || bounded) = false ∧
        s.endLap bounded wrapped visits b = ⟨true, visits, .place s.extent b.drop⟩ := by
  unfold endLap
  split
  · next settled => exact Or.inl ⟨settled, rfl⟩
  · next goes_on =>
    obtain ⟨first, unsettled⟩ := Bool.or_eq_false_iff.mp ((Bool.not_eq_true _).mp goes_on)
    exact Or.inr ⟨first, unsettled, rfl⟩

theorem answer_endLap (wrapped : Bool) (visits : Nat) (b : Board limit) :
    s.answer start bounded (s.endLap bounded wrapped visits b) =
      s.settle start bounded wrapped (.ok b) := by
  rcases s.endLap_cases bounded wrapped visits b with ⟨-, ends⟩ | ⟨rfl, unsettled, wraps⟩
  · rw [ends]
    rfl
  · rw [wraps, settle, if_neg ((Bool.not_eq_true _).mpr unsettled)]
    rfl

theorem answer_leave (wrapped : Bool) (visits left : Nat) (b : Board limit) :
    s.answer start bounded (s.leave bounded wrapped visits left b) =
      s.settle start bounded wrapped (s.onward (s.admits start wrapped) left b) := by
  cases left with
  | zero => exact answer_endLap wrapped visits b
  | succ left => rfl

theorem lap_eq (s : Scan) (admits : Nat → Bool) (left : Nat) (b : Board limit) :
    s.lap admits left b =
      if left != 0 && (b.current.isEmpty && !s.attempts admits left b) then .ok b
      else s.visit admits left b >>= s.onward admits left := by
  cases left with
  | zero =>
    rw [lap]
    cases s.visit admits 0 b <;> rfl
  | succ left =>
    rw [lap_succ]
    rfl

/-- A move changes nothing about the answer. -/
theorem answer_move (ready : s.Ready) (bound : ∀ left b, stage.task = .place left b → left ≤ s.extent)
    (fuel : ∀ left ran hops t b, stage.task = .thread left ran hops t b → hops < s.program.arena.size) :
    s.answer start bounded (s.move start bounded stage) = s.answer start bounded stage := by
  obtain ⟨wrapped, visits, task⟩ := stage
  cases task with
  | place left b =>
    have unfolded := lap_eq s (s.admits start wrapped) left b
    rw [visit_eq ready (bound left b rfl)] at unfolded
    change _ = s.settle start bounded wrapped (s.lap (s.admits start wrapped) left b)
    rw [move, unfolded]
    split
    · exact answer_endLap wrapped visits b
    · split
      · exact answer_leave wrapped (visits + 1) left b
      · cases s.seed (s.admits start wrapped) left b with
        | error halt => rfl
        | ok b₁ =>
          change s.settle start bounded wrapped (b₁.runFrom s.program (s.cursor left) 0 >>= _) =
            s.settle start bounded wrapped
              ((b₁.runFrom s.program (s.cursor left) 0 >>= fun b => .ok b.advance) >>= _)
          rw [bind_assoc]
          rfl
  | list left ran b =>
    change _ = s.settle start bounded wrapped (b.runFrom s.program (s.cursor left) ran >>= _)
    rw [move, Board.runFrom]
    split
    · next more =>
      change s.settle start bounded wrapped (b.drive _ _ _ (s.program.arena.size - 0) _ >>= _) = _
      rw [Nat.sub_zero]
      cases b.drive s.program (s.cursor left) (ran + 1) s.program.arena.size b.current.threads[ran] <;> rfl
    · exact answer_leave wrapped visits left b.advance
  | thread left ran hops t b =>
    obtain ⟨more, count⟩ := Nat.exists_eq_add_of_lt (fuel left ran hops t b rfl)
    have here : s.program.arena.size - hops = more + 1 := by omega
    have next : s.program.arena.size - (hops + 1) = more := by omega
    change _ = s.settle start bounded wrapped
      (b.drive s.program (s.cursor left) ran (s.program.arena.size - hops) t >>= _)
    rw [move, here, Board.drive]
    cases hop : b.hop s.program (s.cursor left) ran t with
    | error halt => rfl
    | ok after =>
      obtain ⟨o, b₁⟩ := after
      cases o with
      | none => rfl
      | some t' =>
        change s.settle start bounded wrapped (b₁.drive _ _ _ (s.program.arena.size - (hops + 1)) _ >>= _) = _
        rw [next]
        rfl
  | ended result => rfl

theorem wrapped_leave (visits left : Nat) (b : Board limit) :
    (s.leave bounded true visits left b).wrapped = true := by
  cases left <;> rfl

theorem wrapped_move (wrapped : stage.wrapped = true) : (s.move start bounded stage).wrapped = true := by
  obtain ⟨wrapped, visits, task⟩ := stage
  cases wrapped
  cases task with
  | place left b =>
    rw [move]
    split
    · rfl
    · split
      · exact wrapped_leave (visits + 1) left b
      · cases s.seed (s.admits start true) left b <;> rfl
  | list left ran b =>
    rw [move]
    split
    · rfl
    · exact wrapped_leave visits left b.advance
  | thread left ran hops t b =>
    rw [move]
    rcases b.hop s.program (s.cursor left) ran t with halt | ⟨_ | t', b₁⟩ <;> rfl
  | ended result => rfl

theorem wrapped_stageAt {turns turns' : Nat} (le : turns ≤ turns')
    (wrapped : (s.stageAt start bounded b turns).wrapped = true) :
    (s.stageAt start bounded b turns').wrapped = true := by
  induction le with
  | refl => exact wrapped
  | step le ih =>
    rw [stageAt_succ]
    exact wrapped_move ih

/-- A search does not wrap around twice. -/
theorem Wraps.not_lt {turns turns' : Nat} (wraps : s.Wraps start bounded (s.stageAt start bounded b turns))
    (wraps' : s.Wraps start bounded (s.stageAt start bounded b turns')) : ¬ turns < turns' := by
  intro later
  have wrapped := wraps.2
  rw [← stageAt_succ] at wrapped
  exact absurd (wraps'.1.symm.trans (wrapped_stageAt later wrapped)) nofun

end Scan

end CursorRegex
