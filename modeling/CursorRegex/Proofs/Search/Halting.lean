import CursorRegex.Proofs.Search.Capacity
import CursorRegex.Proofs.Search.Moves

/-! # Searches end

It does not take a full list for a search to end.  At every stage the attempts of the threads for one
instruction are preferred in turn, so there are no more threads than instructions and attempts allow
(`Scan.most`), and an active thread follows links that come to an end (`Scan.Sane`).  Each move leaves less
to do: places, threads at a place, instructions on the way of a thread (`Scan.progress_move`).  The number
of moves is thus bounded by the program and the text alone, whatever the limit on threads is
(`Regex.search_ends`). -/
set_option autoImplicit false

namespace CursorRegex

namespace Scan

variable {limit : Nat}

def most (s : Scan) : Nat :=
  s.program.slots s.dir (min ((s.program.half s.dir).card - 1) s.extent)

def share (s : Scan) : Nat := s.most * (s.program.arena.size + 1) + 2

structure Attempts (s : Scan) (seeds : Finset Nat) : Prop where
  few : seeds.card - 1 ≤ min ((s.program.half s.dir).card - 1) s.extent
  within : ∀ seed ∈ seeds, seed ≤ s.extent

structure Busy (s : Scan) (seeds : Finset Nat) (left ran : Nat) (b : Board limit) : Prop where
  bound : left ≤ s.extent
  attempts : s.Attempts seeds
  exact : b.Exact s.program.arena.size ran
  keeps : (b.roster ran).KeepsTo s.program s.dir seeds

/-- What is true of the stages of a search.  A thread that is active has a trail of links before it, and
the trail is no longer than the fuel that is left. -/
inductive Sane (s : Scan) (bounded : Bool) : Stage limit → Prop where
  | place {wrapped : Bool} {visits left : Nat} {b : Board limit} (bound : left ≤ s.extent)
      (waits : s.Waits b) : Sane s bounded ⟨wrapped, visits, .place left b⟩
  | list {wrapped : Bool} {visits left ran : Nat} {b : Board limit} {seeds : Finset Nat}
      (busy : s.Busy seeds left ran b) : Sane s bounded ⟨wrapped, visits, .list left ran b⟩
  | thread {wrapped : Bool} {visits left ran hops last : Nat} {t : Thread} {b : Board limit}
      {seeds : Finset Nat} {l : List Nat} (busy : s.Busy seeds left ran b)
      (allowed : t.Allowed s.program s.dir seeds) (within : t.inst < s.program.arena.size)
      (trail : Trail s.program.arena.nextOf t.inst l last)
      (fuel : hops + l.length ≤ s.program.arena.size) :
      Sane s bounded ⟨wrapped, visits, .thread left ran hops t b⟩
  | found {wrapped : Bool} {visits : Nat} {b : Board limit}
      (settled : (wrapped || (b.best.isSome || bounded)) = true) :
      Sane s bounded ⟨wrapped, visits, .ended (.ok b)⟩
  | full {wrapped : Bool} {visits : Nat} {b : Board limit} :
      Sane s bounded ⟨wrapped, visits, .ended (.error (.overflow b))⟩

variable {s : Scan} {start : Nat} {bounded : Bool} {left ran accepting : Nat} {b : Board limit}
  {stage : Stage limit} {seeds : Finset Nat}

/-! ## What is known of the lists -/

theorem Busy.ascending (h : s.Busy seeds left ran b) :
    Thread.Ascending s.dir (s.program.branches s.dir) b.current.threads.toList := by
  rw [← ThreadList.Exact.done_append_todo ran b.current]
  exact h.keeps.ascending

/-- A list has no more threads than instructions and attempts allow, however much room there is. -/
theorem Busy.size_le (h : s.Busy seeds left ran b) : b.current.threads.size ≤ s.most := by
  have count := h.keeps.ascending.length_le h.keeps.allowed
  have whole := ThreadList.Exact.done_append_todo ran b.current
  rw [← Array.length_toList, ← whole]
  exact Nat.le_trans count (Program.slots_mono h.attempts.few)

theorem Waits.busy (h : s.Waits b) (bound : left ≤ s.extent) : s.Busy b.seeds left 0 b :=
  ⟨bound, ⟨h.attempts_le, h.seeds_le⟩, h.exact, h.keepsTo⟩

theorem Busy.run_first (h : s.Busy seeds left ran b) (ready : s.Ready)
    (more : ran < b.current.threads.size) :
    s.Busy seeds left (ran + 1) b ∧ b.current.threads[ran].Allowed s.program s.dir seeds ∧
      s.program.arena.Ends b.current.threads[ran].inst := by
  have first : b.current.todo ran = b.current.threads[ran] :: b.current.threads.toList.drop (ran + 1) :=
    List.drop_eq_getElem_cons (i := ran) (l := b.current.threads.toList) more
  obtain ⟨within, -⟩ := h.exact.first_within first
  obtain ⟨exact, roster⟩ := h.exact.run_first first
  have keeps := h.keeps
  rw [Board.roster, first] at keeps
  have allowed := keeps.allowed b.current.threads[ran] (List.mem_append_right _ List.mem_cons_self)
  exact ⟨⟨h.bound, h.attempts, exact, roster ▸ keeps.run_first⟩, allowed, ready.closed.ends _ within⟩

theorem Busy.advance (h : s.Busy seeds left ran b) : s.Waits b.advance :=
  Waits.advance h.exact h.keeps h.attempts.within

/-! ## One move -/

theorem sane_endLap (waits : s.Waits b) (wrapped : Bool) (visits : Nat) :
    s.Sane bounded (s.endLap bounded wrapped visits b) := by
  rcases s.endLap_cases bounded wrapped visits b with ⟨settled, ends⟩ | ⟨-, -, wraps⟩
  · rw [ends]
    exact .found settled
  · rw [wraps]
    exact .place (Nat.le_refl _) waits.drop

theorem sane_leave (bound : left ≤ s.extent) (waits : s.Waits b) (wrapped : Bool) (visits : Nat) :
    s.Sane bounded (s.leave bounded wrapped visits left b) := by
  cases left with
  | zero => exact sane_endLap waits wrapped visits
  | succ left => exact .place (Nat.le_of_succ_le bound) waits

section

variable (ready : s.Ready)
  (contained : s.program.arena.SelfContained (s.program.half s.dir) s.entry accepting)

include ready contained

theorem sane_visit (start : Nat) (bound : left ≤ s.extent) (waits : s.Waits b) (wrapped : Bool)
    (visits : Nat) : s.Sane bounded (s.move start bounded ⟨wrapped, visits, .place left b⟩) := by
  rw [move]
  split
  · exact sane_endLap waits wrapped visits
  · split
    · exact sane_leave bound waits wrapped (visits + 1)
    · have begins : Achieves (fun _ => True) s.Waits (s.seed (s.admits start wrapped) left b) :=
        waits.achieves_seed ready contained (fun _ _ => trivial) bound
      generalize s.seed (s.admits start wrapped) left b = result at begins
      cases result with
      | ok b₁ =>
        have waits₁ : s.Waits b₁ := begins
        exact .list (waits₁.busy bound)
      | error halt =>
        cases halt with
        | overflow b₁ => exact .full
        | fault cause => cases begins

theorem sane_hop {hops last : Nat} {t : Thread} {l : List Nat} (start : Nat)
    (busy : s.Busy seeds left ran b) (allowed : t.Allowed s.program s.dir seeds)
    (within : t.inst < s.program.arena.size) (trail : Trail s.program.arena.nextOf t.inst l last)
    (fuel : hops + l.length ≤ s.program.arena.size) (wrapped : Bool) (visits : Nat) :
    s.Sane bounded (s.move start bounded ⟨wrapped, visits, .thread left ran hops t b⟩) := by
  obtain ⟨a, does⟩ := Thread.exists_does ready.closed (judges ready busy.bound) within
  have acts := does.keepsTo contained allowed
  have performed := Board.performed s.dir busy.exact (does.within ready.closed)
  have keeps := busy.keeps.perform acts
  have hop : b.hop s.program (s.cursor left) ran t = a.perform s.dir ran b := does.hop_eq ran b
  rw [move, hop]
  generalize a.perform s.dir ran b = result at performed
  cases performed with
  | full overfull => exact .full
  | @room b₁ exact₁ roster =>
    have busy₁ : s.Busy seeds left ran b₁ := ⟨busy.bound, busy.attempts, exact₁, roster ▸ keeps⟩
    cases goes : a.thread with
    | none => exact .list busy₁
    | some t' =>
      -- the trail of the thread is one instruction shorter, and so is the fuel
      obtain ⟨bound, l', trail', shorter⟩ := ready.closed.follow within trail (does.nextOf goes)
      exact .thread busy₁ (acts.thread goes) bound trail' (by omega)

theorem sane_move (start : Nat) (h : s.Sane bounded stage) :
    s.Sane bounded (s.move start bounded stage) := by
  cases h with
  | place bound waits => exact sane_visit ready contained start bound waits _ _
  | list busy =>
    rw [move]
    split
    · next more =>
      obtain ⟨busy₁, allowed, ends⟩ := busy.run_first ready more
      obtain ⟨last, l, trail, enough⟩ := ends.bounded
      have fuel := Nat.le_trans (Nat.le_of_eq (Nat.zero_add _)) enough
      exact .thread busy₁ allowed ends.lt_size trail fuel
    · exact sane_leave busy.bound busy.advance _ _
  | thread busy allowed within trail fuel =>
    exact sane_hop ready contained start busy allowed within trail fuel _ _
  | found settled => exact .found settled
  | full => exact .full

end

/-! ## What is left to do -/

def later (s : Scan) (wrapped : Bool) : Nat := if wrapped then 0 else s.extent + 1

def unvisited (s : Scan) : Stage limit → Nat
  | ⟨wrapped, _, .place left _⟩ => left + 1 + s.later wrapped
  | ⟨wrapped, _, .list left _ _⟩ => left + s.later wrapped
  | ⟨wrapped, _, .thread left _ _ _ _⟩ => left + s.later wrapped
  | ⟨_, _, .ended _⟩ => 0

def pending (s : Scan) : Task limit → Nat
  | .place _ _ => 0
  | .list _ ran _ => (s.most - ran) * (s.program.arena.size + 1) + 1
  | .thread _ ran hops _ _ =>
    (s.most - ran) * (s.program.arena.size + 1) + (s.program.arena.size - hops) + 1
  | .ended _ => 0

def potential (s : Scan) (stage : Stage limit) : Nat :=
  s.unvisited stage * s.share + s.pending stage.task

theorem potential_lt_of_unvisited {stage stage' : Stage limit}
    (fewer : s.unvisited stage' < s.unvisited stage) (few : s.pending stage'.task < s.share) :
    s.potential stage' < s.potential stage := by
  have places := Nat.mul_le_mul_right s.share fewer
  rw [Nat.succ_mul] at places
  unfold potential
  omega

/-- At the stage a place has been left, and so many others may still be visited. -/
structure Between (s : Scan) (visits places : Nat) (stage : Stage limit) : Prop where
  visits : stage.visits = visits
  unvisited : s.unvisited stage ≤ places
  idle : s.pending stage.task = 0

theorem between_endLap (wrapped : Bool) (visits : Nat) (b : Board limit) :
    s.Between visits (s.later wrapped) (s.endLap bounded wrapped visits b) := by
  rcases s.endLap_cases bounded wrapped visits b with ⟨-, ends⟩ | ⟨rfl, -, wraps⟩
  · rw [ends]
    exact ⟨rfl, Nat.zero_le _, rfl⟩
  · rw [wraps]
    exact ⟨rfl, Nat.le_refl _, rfl⟩

theorem between_leave (wrapped : Bool) (visits left : Nat) (b : Board limit) :
    s.Between visits (left + s.later wrapped) (s.leave bounded wrapped visits left b) := by
  cases left with
  | zero =>
    rw [Nat.zero_add]
    exact between_endLap wrapped visits b
  | succ left => exact ⟨rfl, Nat.le_refl _, rfl⟩

/-- A visit takes one of the places that were left, and each move takes something. -/
structure Progress (s : Scan) (stage stage' : Stage limit) : Prop where
  places : stage'.visits + s.unvisited stage' ≤ stage.visits + s.unvisited stage
  less : s.potential stage' < s.potential stage

theorem Progress.of_pending {stage stage' : Stage limit} (visits : stage'.visits = stage.visits)
    (le : s.unvisited stage' ≤ s.unvisited stage)
    (fewer : s.pending stage'.task < s.pending stage.task) : s.Progress stage stage' := by
  constructor
  · rw [visits]
    exact Nat.add_le_add_left le _
  · exact Nat.add_lt_add_of_le_of_lt (Nat.mul_le_mul_right _ le) fewer

theorem Between.progress_of_pending {places : Nat} {stage stage' : Stage limit}
    (between : s.Between stage.visits places stage') (le : places ≤ s.unvisited stage)
    (busy : 0 < s.pending stage.task) : s.Progress stage stage' := by
  refine .of_pending between.visits (Nat.le_trans between.unvisited le) ?_
  rw [between.idle]
  exact busy

theorem unvisited_place (s : Scan) (wrapped : Bool) (visits left : Nat) (b : Board limit) :
    s.unvisited ⟨wrapped, visits, .place left b⟩ = left + s.later wrapped + 1 := Nat.add_right_comm ..

/-- Whatever comes of a place, it is not visited again on this lap. -/
structure Passed (s : Scan) (wrapped : Bool) (visits left : Nat) (stage : Stage limit) : Prop where
  visits_le : stage.visits ≤ visits + 1
  unvisited_le : s.unvisited stage ≤ left + s.later wrapped
  pending_lt : s.pending stage.task < s.share

theorem Between.passed {wrapped : Bool} {visits count places : Nat} (h : s.Between count places stage)
    (count_le : count ≤ visits + 1) (le : places ≤ left + s.later wrapped) :
    s.Passed wrapped visits left stage := by
  refine ⟨h.visits ▸ count_le, Nat.le_trans h.unvisited le, ?_⟩
  rw [h.idle]
  exact Nat.succ_pos _

theorem passed_visit (start : Nat) (bounded wrapped : Bool) (visits left : Nat) (b : Board limit) :
    s.Passed wrapped visits left (s.move start bounded ⟨wrapped, visits, .place left b⟩) := by
  rw [move]
  split
  · exact (between_endLap wrapped visits b).passed (Nat.le_succ _) (Nat.le_add_left _ _)
  · split
    · exact (between_leave wrapped (visits + 1) left b).passed (Nat.le_refl _) (Nat.le_refl _)
    · cases s.seed (s.admits start wrapped) left b with
      | error halt => exact ⟨Nat.le_refl _, Nat.zero_le _, Nat.succ_pos _⟩
      | ok b₁ => exact ⟨Nat.le_refl _, Nat.le_refl _, Nat.lt_succ_self _⟩

theorem progress_visit (start : Nat) (wrapped : Bool) (visits left : Nat) (b : Board limit) :
    s.Progress ⟨wrapped, visits, .place left b⟩
      (s.move start bounded ⟨wrapped, visits, .place left b⟩) := by
  obtain ⟨visits_le, unvisited_le, pending_lt⟩ := passed_visit (s := s) start bounded wrapped visits left b
  have here := s.unvisited_place wrapped visits left b
  constructor
  · dsimp only
    omega
  · refine potential_lt_of_unvisited ?_ pending_lt
    omega

theorem progress_list (start : Nat) (few : b.current.threads.size ≤ s.most) (wrapped : Bool)
    (visits left ran : Nat) :
    s.Progress ⟨wrapped, visits, .list left ran b⟩
      (s.move start bounded ⟨wrapped, visits, .list left ran b⟩) := by
  rw [move]
  split
  · next more =>
    refine .of_pending rfl (Nat.le_refl _) ?_
    change (s.most - (ran + 1)) * (s.program.arena.size + 1) + s.program.arena.size + 1 <
      (s.most - ran) * (s.program.arena.size + 1) + 1
    have taken : s.most - ran = s.most - (ran + 1) + 1 := by omega
    rw [taken, Nat.succ_mul]
    omega
  · exact (between_leave wrapped visits left b.advance).progress_of_pending (Nat.le_refl _)
      (Nat.succ_pos _)

theorem progress_hop {hops : Nat} (start : Nat) (on_way : hops < s.program.arena.size) (wrapped : Bool)
    (visits left ran : Nat) (t : Thread) (b : Board limit) :
    s.Progress ⟨wrapped, visits, .thread left ran hops t b⟩
      (s.move start bounded ⟨wrapped, visits, .thread left ran hops t b⟩) := by
  let others := (s.most - ran) * (s.program.arena.size + 1)
  rw [move]
  rcases b.hop s.program (s.cursor left) ran t with halt | ⟨_ | t', b₁⟩
  · exact .of_pending rfl (Nat.zero_le _) (Nat.succ_pos _)
  · refine .of_pending rfl (Nat.le_refl _) ?_
    change others + 1 < others + (s.program.arena.size - hops) + 1
    omega
  · refine .of_pending rfl (Nat.le_refl _) ?_
    change others + (s.program.arena.size - (hops + 1)) + 1 <
      others + (s.program.arena.size - hops) + 1
    omega

theorem Sane.left_le (h : s.Sane bounded stage) (task : stage.task = .place left b) :
    left ≤ s.extent := by
  cases h <;> cases task
  assumption

theorem Sane.hops_lt {hops : Nat} {t : Thread} (h : s.Sane bounded stage)
    (task : stage.task = .thread left ran hops t b) : hops < s.program.arena.size := by
  cases h with
  | thread busy allowed within trail fuel =>
    cases task
    cases trail <;> exact Nat.lt_of_lt_of_le (Nat.lt_add_of_pos_right (Nat.succ_pos _)) fuel
  | place | list | found | full => cases task

theorem progress_move (start : Nat) (h : s.Sane bounded stage)
    (goes_on : ∀ result, stage.task ≠ .ended result) :
    s.Progress stage (s.move start bounded stage) := by
  have on_way {left ran hops : Nat} {t : Thread} {b : Board limit}
      (task : stage.task = .thread left ran hops t b) := h.hops_lt task
  cases h with
  | place => exact progress_visit start _ _ _ _
  | list busy => exact progress_list start busy.size_le _ _ _ _
  | thread => exact progress_hop start (on_way rfl) _ _ _ _ _ _
  | found => exact absurd rfl (goes_on _)
  | full => exact absurd rfl (goes_on _)

theorem places_move (start : Nat) (h : s.Sane bounded stage) :
    (s.move start bounded stage).visits + s.unvisited (s.move start bounded stage) ≤
      stage.visits + s.unvisited stage := by
  by_cases ended : ∃ result, stage.task = .ended result
  · obtain ⟨wrapped, visits, task⟩ := stage
    obtain ⟨result, rfl⟩ := ended
    exact Nat.le_refl _
  · exact (progress_move start h fun result task => ended ⟨result, task⟩).places

theorem Sane.ascending (h : s.Sane bounded stage) :
    Thread.Ascending s.dir (s.program.branches s.dir) stage.task.threads := by
  cases h with
  | place bound waits => exact (waits.busy bound).ascending
  | list busy => exact busy.ascending
  | thread busy => exact busy.ascending
  | found | full => exact .nil

theorem Sane.length_threads_le (h : s.Sane bounded stage) : stage.task.threads.length ≤ s.most := by
  cases h with
  | place bound waits => exact (waits.busy bound).size_le
  | list busy => exact busy.size_le
  | thread busy => exact busy.size_le
  | found | full => exact Nat.zero_le _

theorem Sane.exists_report {result : Except (Halt (Board limit)) (Board limit)} (start : Nat)
    (h : s.Sane bounded stage) (ended : stage.task = .ended result) :
    ∃ report b, s.report? stage = some report ∧ s.answer start bounded stage = .ok (report, b) := by
  cases h with
  | @found wrapped visits b settled =>
    refine ⟨_, b, rfl, ?_⟩
    cases wrapped with
    | false => exact if_pos settled
    | true => rfl
  | @full wrapped visits b =>
    refine ⟨_, b, rfl, ?_⟩
    cases wrapped <;> rfl
  | place | list | thread => cases ended

/-! ## All moves -/

section

variable (ready : s.Ready)
  (contained : s.program.arena.SelfContained (s.program.half s.dir) s.entry accepting)
  (within : start ≤ s.extent) (waits : s.Waits b)

include ready contained within waits

theorem sane_stageAt (bounded : Bool) (turns : Nat) : s.Sane bounded (s.stageAt start bounded b turns) := by
  induction turns with
  | zero => exact .place (leftAt_le within) waits
  | succ turns ih =>
    rw [stageAt_succ]
    exact sane_move ready contained start ih

theorem visits_stageAt (bounded : Bool) (turns : Nat) :
    (s.stageAt start bounded b turns).visits + s.unvisited (s.stageAt start bounded b turns) ≤
      2 * (s.extent + 1) := by
  induction turns with
  | zero =>
    have first := leftAt_le within
    change 0 + (s.leftAt start + 1 + (s.extent + 1)) ≤ _
    omega
  | succ turns ih =>
    have sane := sane_stageAt ready contained within waits bounded turns
    rw [stageAt_succ]
    exact Nat.le_trans (places_move start sane) ih

theorem answer_stageAt (bounded : Bool) (turns : Nat) :
    s.answer start bounded (s.stageAt start bounded b turns) = s.run start bounded b := by
  induction turns with
  | zero => exact (run_eq_answer s start bounded b).symm
  | succ turns ih =>
    have sane := sane_stageAt ready contained within waits bounded turns
    rw [stageAt_succ, ← ih]
    exact answer_move ready (fun _ _ => sane.left_le) fun _ _ _ _ _ => sane.hops_lt

/-- From each stage on, the search is over after as many moves as may be made. -/
theorem exists_ended (bounded : Bool) (turns : Nat) :
    ∃ more ≤ s.potential (s.stageAt start bounded b turns), ∃ result,
      (s.stageAt start bounded b (turns + more)).task = .ended result := by
  induction measure : s.potential (s.stageAt start bounded b turns) using Nat.strongRecOn
    generalizing turns with
  | ind n ih =>
    subst measure
    by_cases ended : ∃ result, (s.stageAt start bounded b turns).task = .ended result
    · obtain ⟨result, ends⟩ := ended
      exact ⟨0, Nat.zero_le _, result, ends⟩
    · have sane := sane_stageAt ready contained within waits bounded turns
      have less := (progress_move start sane fun result task => ended ⟨result, task⟩).less
      rw [← stageAt_succ] at less
      obtain ⟨more, few, result, ends⟩ := ih _ less (turns + 1) rfl
      refine ⟨more + 1, Nat.le_trans (Nat.succ_le_succ few) less, result, ?_⟩
      rwa [Nat.add_assoc, Nat.add_comm 1] at ends

theorem exists_report_stageAt (bounded : Bool) : ∃ turns ≤ 2 * (s.extent + 1) * s.share, ∃ report b',
    s.report? (s.stageAt start bounded b turns) = some report ∧
      s.run start bounded b = .ok (report, b') := by
  obtain ⟨turns, few, result, ended⟩ := exists_ended ready contained within waits bounded 0
  rw [Nat.zero_add] at ended
  have sane := sane_stageAt ready contained within waits bounded turns
  obtain ⟨report, b', told, answered⟩ := sane.exists_report start ended
  rw [answer_stageAt ready contained within waits] at answered
  have places := visits_stageAt ready contained within waits bounded 0
  refine ⟨turns, Nat.le_trans few ?_, report, b', told, answered⟩
  exact Nat.mul_le_mul_right s.share (Nat.le_trans (Nat.le_add_left _ _) places)

end

/-- At a stage of a search, of two threads for one instruction the second has the attempt that is preferred,
there are no more threads than instructions and attempts allow, and the thread that is active has passed
through fewer instructions than there are. -/
structure Moderate (s : Scan) (stage : Stage limit) : Prop where
  ascending : stage.task.threads.Pairwise fun t u =>
    u.inst = t.inst → u.inst ∈ s.program.branches s.dir ∧ s.dir.prefers u.seed t.seed = true
  length_le : stage.task.threads.length ≤ s.most
  hops_lt : ∀ left ran hops t b, stage.task = .thread left ran hops t b → hops < s.program.arena.size

theorem Sane.moderate (h : s.Sane bounded stage) : s.Moderate stage :=
  ⟨h.ascending, h.length_threads_le, fun _ _ _ _ _ => h.hops_lt⟩

end Scan

/-! ## Searches -/

namespace Regex

variable {r : Regex} {limits : Limits} {pattern : String} {text : Text}

theorem exists_selfContained (compiled : compileWith limits pattern = .ok r) (dir : Direction) :
    ∃ accepting, r.program.arena.SelfContained (r.program.half dir) (r.program.entry dir) accepting := by
  obtain ⟨program, built, rfl⟩ := map_eq_ok.mp compiled
  exact (Program.exists_selfContained built).2 dir

def stageAt (r : Regex) (text : Text) (query : Query) (first : Option Char) (turns : Nat) :
    Stage r.limits.threads :=
  (r.scanOf text query first).stageAt (query.start text) query.bounded r.board turns

/-- Whatever the limits are, a search is over after a number of moves that depends only on the program and
on how much of the text is searched.  Each stage on the way has the answer of the search still to give.  No
more places are visited than two laps have and the search wraps around at most once, a list has a further
thread for an instruction only if its attempt is preferred to those before, and no thread passes through as
many instructions as there are. -/
theorem search_ends (compiled : compileWith limits pattern = .ok r) (full : text.Full) (query : Query) :
    ∃ first report s, s = r.scanOf text query first ∧
      r.program.arena.firstChar (r.program.entry query.dir) = .ok first ∧
      r.answer text query = .ok report ∧
      (∃ b, s.run (query.start text) query.bounded r.board = .ok (report, b)) ∧
      (∀ turns, s.answer (query.start text) query.bounded (r.stageAt text query first turns) =
        s.run (query.start text) query.bounded r.board) ∧
      (∃ turns ≤ 2 * (s.extent + 1) * s.share,
        s.report? (r.stageAt text query first turns) = some report) ∧
      (∀ turns, (r.stageAt text query first turns).visits ≤ 2 * (text.length + 1) ∧
        s.Moderate (r.stageAt text query first turns)) ∧
      ∀ turns turns', s.Wraps (query.start text) query.bounded (r.stageAt text query first turns) →
        s.Wraps (query.start text) query.bounded (r.stageAt text query first turns') → turns = turns' := by
  obtain ⟨classes, tree, -, -, realizes⟩ := compileWith_eq_ok compiled
  obtain ⟨report, answered⟩ := realizes.exists_report full query
  obtain ⟨o, encodes, -⟩ := realizes
  obtain ⟨first, b, begins, ready, run⟩ := exists_run encodes full answered
  obtain ⟨accepting, contained⟩ := exists_selfContained compiled query.dir
  have within := query.start_le text
  have waits : (r.scanOf text query first).Waits r.board := waits_board query first
  obtain ⟨turns, few, report', b', told, run'⟩ :=
    Scan.exists_report_stageAt ready contained within waits query.bounded
  cases run.symm.trans run'
  refine ⟨first, report, _, rfl, begins, answered, ⟨b, run⟩,
    Scan.answer_stageAt ready contained within waits query.bounded, ⟨turns, few, told⟩,
    fun turns => ⟨?_, ?_⟩, ?_⟩
  · have places := Scan.visits_stageAt ready contained within waits query.bounded turns
    have part := Nat.succ_le_succ (query.extent_le text)
    exact Nat.le_trans (Nat.le_add_right _ _) (Nat.le_trans places (Nat.mul_le_mul_left 2 part))
  · exact (Scan.sane_stageAt ready contained within waits query.bounded turns).moderate
  · intro turns turns' wraps wraps'
    exact Nat.le_antisymm (Nat.le_of_not_lt (wraps'.not_lt wraps)) (Nat.le_of_not_lt (wraps.not_lt wraps'))

/-- A star over stars over an optional group matches the empty string in many ways, and the limit is out of
reach.  Still the search is over. -/
theorem search_ends_stacked_stars : ∃ r report turns,
    compileWith { threads := 1000000 } "((a?)*)*+" = .ok r ∧
    (Text.ofArray #['a', 'a', 'b']).Full ∧
    r.answer (.ofArray #['a', 'a', 'b']) (.forward 1 none) = .ok report ∧
    (r.scanOf (.ofArray #['a', 'a', 'b']) (.forward 1 none) none).report?
      (r.stageAt (.ofArray #['a', 'a', 'b']) (.forward 1 none) none turns) = some report ∧
    ∀ turns, (r.stageAt (.ofArray #['a', 'a', 'b']) (.forward 1 none) none turns).visits ≤ 8 := by
  have begins : (compileWith { threads := 1000000 } "((a?)*)*+").map (fun r =>
      r.program.arena.firstChar (r.program.entry .forward)) = .ok (.ok none) := by
    decide +kernel
  obtain ⟨r, compiled, begins⟩ := map_eq_ok.mp begins
  have full := Text.full_ofArray #['a', 'a', 'b']
  obtain ⟨first, report, s, rfl, begins', answered, -, -, ⟨turns, -, told⟩, stages, -⟩ :=
    search_ends compiled full (.forward 1 none)
  cases begins.symm.trans begins'
  exact ⟨r, report, turns, compiled, full, answered, told, fun turns => (stages turns).1⟩

end Regex

end CursorRegex
