import CursorRegex.Proofs.Search.Halting

/-! # Where attempts begin

At a place a position is tried if the lap admits it and no match is known (`Scan.attempt?`), and
`Scan.tried` lists what was tried in so many moves.  The list is a prefix of all positions in the order in
which two laps come to them, from the start on and then before it (`Scan.order`): as long as no match is
known, what was tried and what is still to be tried make up the order (`Scan.tried_append_untried`).  So
no position is tried twice and none is left out, and a search that finds nothing has tried them all.  No
thread comes on a list but by an attempt of the same lap (`Scan.stems_stageAt`). -/
set_option autoImplicit false

namespace CursorRegex

variable {limit : Nat}

/-- A match is known, or a list had no room. -/
def Task.Settled : Task limit → Prop
  | .place _ b | .list _ _ b | .thread _ _ _ _ b | .ended (.ok b) => b.best.isSome = true
  | .ended (.error _) => True

def Task.places : Task limit → Nat
  | .place left _ => left + 1
  | .list left _ _ | .thread left _ _ _ _ => left
  | .ended _ => 0

/-- All attempts that have threads on the board are of one kind. -/
structure Board.Stems (kind : Nat → Prop) (b : Board limit) : Prop where
  current : ∀ t ∈ b.current.threads, kind t.seed
  next : ∀ t ∈ b.next.threads, kind t.seed

def Task.Stems (kind : Nat → Prop) : Task limit → Prop
  | .place _ b | .list _ _ b => b.Stems kind
  | .thread _ _ _ t b => kind t.seed ∧ b.Stems kind
  | .ended _ => True

theorem Hopped.stems {kind : Nat → Prop} {p : Program} {c : Cursor} {ran : Nat} {t : Thread}
    {b : Board limit} {after : Option Thread × Board limit} (h : Hopped p c ran t b after)
    (here : kind t.seed) (stems : b.Stems kind) : (∀ t' ∈ after.1, kind t'.seed) ∧ after.2.Stems kind := by
  cases h with
  | stopped => exact ⟨nofun, stems⟩
  | took takes added =>
    have new : kind _ := takes.seed_eq ▸ here
    exact ⟨nofun, stems.current, added.forall_mem new stems.next⟩
  | @won m wins =>
    obtain ⟨current, next⟩ := Board.lists_offer c.dir m b
    exact ⟨nofun, current ▸ stems.current, next ▸ stems.next⟩
  | moved moves =>
    refine ⟨fun t' is => ?_, stems⟩
    cases is
    exact moves.seed_eq ▸ here
  | forked at_fork added =>
    refine ⟨fun t' is => ?_, added.forall_mem here stems.current, stems.next⟩
    cases is
    exact here

theorem Task.Stems.threads {kind : Nat → Prop} {task : Task limit} (h : task.Stems kind) :
    ∀ t ∈ task.threads, kind t.seed := by
  intro t member
  cases task with
  | place | list => exact h.current t (Array.mem_toList_iff.mp member)
  | thread => exact h.2.current t (Array.mem_toList_iff.mp member)
  | ended => cases member

theorem Task.Stems.mono {kind kind' : Nat → Prop} {task : Task limit} (h : task.Stems kind)
    (le : ∀ i, kind i → kind' i) : task.Stems kind' := by
  have board {b : Board limit} (stems : b.Stems kind) : b.Stems kind' :=
    ⟨fun t member => le _ (stems.current t member), fun t member => le _ (stems.next t member)⟩
  cases task with
  | place | list => exact board h
  | thread => exact ⟨le _ h.1, board h.2⟩
  | ended => trivial

namespace Scan

/-- The position that is tried at this stage, if one is.  To pass over a place because of the character
ahead is to try it. -/
def attempt? (s : Scan) (start : Nat) : Stage limit → Option Nat
  | ⟨wrapped, _, .place left b⟩ =>
    if s.attempts (s.admits start wrapped) left b then some (s.pos left) else none
  | _ => none

/-- What was tried in so many moves, from first to last. -/
def tried (s : Scan) (start : Nat) (bounded : Bool) (b : Board limit) (turns : Nat) : List Nat :=
  (List.range turns).filterMap fun turn => s.attempt? start (s.stageAt start bounded b turn)

/-- The positions that a lap admits with fewer than `places` characters left, in the order of the lap. -/
def along (s : Scan) (admits : Nat → Bool) : Nat → List Nat
  | 0 => []
  | left + 1 => (if admits (s.pos left) then [s.pos left] else []) ++ s.along admits left

/-- All positions, from the start on and then before it. -/
def order (s : Scan) (start : Nat) : List Nat :=
  s.along (s.admits start false) (s.leftAt start + 1) ++ s.along (s.admits start true) (s.extent + 1)

def afterLap (s : Scan) (start : Nat) (wrapped : Bool) : List Nat :=
  if wrapped then [] else s.along (s.admits start true) (s.extent + 1)

/-- What is to be tried from this stage on, unless a match is found. -/
def untried (s : Scan) (start : Nat) (stage : Stage limit) : List Nat :=
  s.along (s.admits start stage.wrapped) stage.task.places ++ s.afterLap start stage.wrapped

variable {s : Scan} {start i turns left ran accepting : Nat} {bounded wrapped : Bool} {b : Board limit}
  {stage : Stage limit}

theorem tried_succ (s : Scan) (start : Nat) (bounded : Bool) (b : Board limit) (turns : Nat) :
    s.tried start bounded b (turns + 1) =
      s.tried start bounded b turns ++ (s.attempt? start (s.stageAt start bounded b turns)).toList := by
  simp only [tried, List.range_succ, List.filterMap_append, List.filterMap_cons, List.filterMap_nil]
  cases s.attempt? start (s.stageAt start bounded b turns) <;> rfl

theorem attempts_of_unmatched {admits : Nat → Bool} (unmatched : b.best = none) (left : Nat) :
    s.attempts admits left b = admits (s.pos left) := by
  rw [attempts, unmatched]
  rfl

theorem attempt?_eq_some (h : s.attempt? start stage = some i) : ∃ wrapped visits left b,
    stage = ⟨wrapped, visits, .place left b⟩ ∧ b.best = none ∧ s.admits start wrapped i = true ∧
      s.pos left = i := by
  obtain ⟨wrapped, visits, task⟩ := stage
  cases task with
  | place left b =>
    by_cases attempts : s.attempts (s.admits start wrapped) left b = true
    · simp only [attempt?, attempts, if_true, Option.some.injEq] at h
      subst h
      rw [Scan.attempts, Bool.and_eq_true, Option.isNone_iff_eq_none] at attempts
      exact ⟨wrapped, visits, left, b, rfl, attempts.1, attempts.2, rfl⟩
    · simp [attempt?, attempts] at h
  | list | thread | ended => cases h

theorem attempt?_of_settled (settled : stage.task.Settled) : s.attempt? start stage = none := by
  rw [Option.eq_none_iff_forall_ne_some]
  intro i begins
  obtain ⟨wrapped, visits, left, b, rfl, unmatched, -⟩ := attempt?_eq_some begins
  simp [Task.Settled, unmatched] at settled

/-! ## The order of the positions -/

section

variable {admits : Nat → Bool} {places : Nat}

theorem mem_along : i ∈ s.along admits places ↔ admits i = true ∧ ∃ left < places, s.pos left = i := by
  induction places with
  | zero => simp [along]
  | succ left ih =>
    rw [along, List.mem_append, ih, List.mem_ite_nil_right, List.mem_singleton]
    constructor
    · rintro (⟨admitted, rfl⟩ | ⟨admitted, k, low, rfl⟩)
      · exact ⟨admitted, left, Nat.lt_succ_self left, rfl⟩
      · exact ⟨admitted, k, Nat.lt_succ_of_lt low, rfl⟩
    · rintro ⟨admitted, k, low, rfl⟩
      rcases Nat.lt_succ_iff_lt_or_eq.mp low with lower | rfl
      · exact Or.inr ⟨admitted, k, lower, rfl⟩
      · exact Or.inl ⟨admitted, rfl⟩

theorem nodup_along (bound : places ≤ s.extent + 1) : (s.along admits places).Nodup := by
  induction places with
  | zero => exact List.nodup_nil
  | succ left ih =>
    rw [along]
    split
    · refine List.nodup_cons.mpr ⟨?_, ih (Nat.le_of_succ_le bound)⟩
      intro member
      obtain ⟨-, k, low, same⟩ := mem_along.mp member
      exact absurd (pos_injective (by omega) (by omega) same) (Nat.ne_of_lt low)
    · exact ih (Nat.le_of_succ_le bound)

theorem mem_along_first (within : start ≤ s.extent) :
    i ∈ s.along (s.admits start false) (s.leftAt start + 1) ↔
      i ≤ s.extent ∧ s.dir.prefers i start = false := by
  rw [mem_along, ← begins_ahead_iff within]
  constructor
  · rintro ⟨-, left, low, rfl⟩
    exact ⟨left, Nat.zero_le _, Nat.le_of_lt_succ low, rfl, rfl⟩
  · rintro ⟨left, -, bound, rfl, -⟩
    exact ⟨rfl, left, Nat.lt_succ_of_le bound, rfl⟩

theorem mem_along_second :
    i ∈ s.along (s.admits start true) (s.extent + 1) ↔
      i ≤ s.extent ∧ s.dir.prefers i start = true := by
  rw [mem_along, ← begins_behind_iff]
  constructor
  · rintro ⟨admitted, left, low, rfl⟩
    exact ⟨left, Nat.zero_le _, Nat.le_of_lt_succ low, rfl, admitted⟩
  · rintro ⟨left, -, bound, rfl, admitted⟩
    exact ⟨admitted, left, Nat.lt_succ_of_le bound, rfl⟩

end

theorem nodup_order (within : start ≤ s.extent) : (s.order start).Nodup := by
  refine List.nodup_append.mpr ⟨nodup_along ?_, nodup_along (Nat.le_refl _), ?_⟩
  · exact Nat.succ_le_succ (leftAt_le within)
  · intro i first j second same
    subst same
    have after := ((mem_along_first within).mp first).2
    have before := (mem_along_second.mp second).2
    exact absurd (after.symm.trans before) Bool.false_ne_true

theorem along_forward {admits : Nat → Bool} {places : Nat} (forward : s.dir = .forward)
    (bound : places ≤ s.extent + 1) :
    s.along admits places = (List.range' (s.extent + 1 - places) places).filter admits := by
  induction places with
  | zero => rfl
  | succ left ih =>
    have here : s.pos left = s.extent + 1 - (left + 1) := by
      simp only [pos, forward]
      omega
    have next : s.extent + 1 - (left + 1) + 1 = s.extent + 1 - left := by omega
    rw [along, ih (Nat.le_of_succ_le bound), List.range'_succ, next, List.filter_cons, ← here]
    split <;> rfl

theorem order_forward (forward : s.dir = .forward) (within : start ≤ s.extent) :
    s.order start = List.range' start (s.extent + 1 - start) ++ List.range start := by
  have first : s.leftAt start + 1 = s.extent + 1 - start := by
    simp only [leftAt, forward]
    omega
  have whole := List.range'_append_1 (s := 0) (m := start) (n := s.extent + 1 - start)
  rw [Nat.zero_add, Nat.add_sub_cancel' (Nat.le_succ_of_le within), ← List.range_eq_range'] at whole
  have ahead : (List.range' start (s.extent + 1 - start)).filter (s.admits start false) =
      List.range' start (s.extent + 1 - start) :=
    List.filter_eq_self.mpr fun i _ => rfl
  have before : (List.range start).filter (s.admits start true) = List.range start :=
    List.filter_eq_self.mpr fun i member => by
      simp [admits, Direction.prefers, forward, List.mem_range.mp member]
  have none_ahead : (List.range' start (s.extent + 1 - start)).filter (s.admits start true) = [] :=
    List.filter_eq_nil_iff.mpr fun i member => by
      simp [admits, Direction.prefers, forward, (List.mem_range'_1.mp member).1]
  rw [order, first, along_forward forward (Nat.sub_le _ _), along_forward forward (Nat.le_refl _),
    Nat.sub_sub_self (Nat.le_succ_of_le within), Nat.sub_self, ← whole, List.filter_append, ahead,
    before, none_ahead, List.append_nil]

/-! ## No position left out -/

theorem best_addCurrent {dir : Direction} {t : Thread} {b' : Board limit}
    (added : b.addCurrent dir ran t = .ok b') : b'.best = b.best := by
  obtain ⟨current, next, best⟩ := b
  simp only [Board.addCurrent] at added
  split at added
  · cases added
    rfl
  · cases added

theorem best_seed {admits : Nat → Bool} {b' : Board limit} (seeded : s.seed admits left b = .ok b') :
    b'.best = b.best := by
  unfold seed at seeded
  split at seeded
  · exact best_addCurrent seeded
  · cases seeded
    rfl

theorem settled_endLap (found : b.best.isSome = true) (wrapped : Bool) (visits : Nat) :
    (s.endLap bounded wrapped visits b).task.Settled := by
  rcases s.endLap_cases bounded wrapped visits b with ⟨-, ends⟩ | ⟨-, unsettled, -⟩
  · rw [ends]
    exact found
  · simp [found] at unsettled

theorem settled_leave (found : b.best.isSome = true) (wrapped : Bool) (visits left : Nat) :
    (s.leave bounded wrapped visits left b).task.Settled := by
  cases left with
  | zero => exact settled_endLap found wrapped visits
  | succ left => exact found

theorem settled_move (ready : s.Ready) (start : Nat) (sane : s.Sane bounded stage)
    (settled : stage.task.Settled) : (s.move start bounded stage).task.Settled := by
  cases sane with
  | @place wrapped visits left b =>
    rw [move]
    split
    · exact settled_endLap settled wrapped visits
    · split
      · exact settled_leave settled wrapped (visits + 1) left
      · cases seeded : s.seed (s.admits start wrapped) left b with
        | error halt => trivial
        | ok b₁ =>
          have found : b₁.best.isSome = true := best_seed seeded ▸ settled
          exact found
  | @list wrapped visits left ran b =>
    rw [move]
    split
    · exact settled
    · exact settled_leave (b := b.advance) settled wrapped visits left
  | @thread wrapped visits left ran hops last t b seeds l busy allowed within =>
    have hopped := Board.achieves_hop ready.closed (judges ready busy.bound) busy.exact.sound within ran
    rw [move]
    generalize b.hop s.program (s.cursor left) ran t = result at hopped
    cases result with
    | error halt => trivial
    | ok after =>
      have found : after.2.best.isSome = true := hopped.isSome_best settled
      obtain ⟨_ | t', b₁⟩ := after <;> exact found
  | found => exact settled
  | full => trivial

theorem untried_endLap (start : Nat) (wrapped : Bool) (visits : Nat) (unmatched : b.best = none) :
    s.untried start (s.endLap false wrapped visits b) = s.afterLap start wrapped := by
  rcases s.endLap_cases false wrapped visits b with ⟨last, ends⟩ | ⟨rfl, -, wraps⟩
  · rw [ends]
    simp [unmatched] at last
    subst last
    rfl
  · rw [wraps]
    exact List.append_nil _

theorem untried_leave (start : Nat) (wrapped : Bool) (visits left : Nat) (unmatched : b.best = none) :
    s.untried start (s.leave false wrapped visits left b) =
      s.along (s.admits start wrapped) left ++ s.afterLap start wrapped := by
  cases left with
  | zero => exact untried_endLap start wrapped visits unmatched
  | succ left => rfl

/-- A place that is admitted has none in front that is not. -/
theorem admits_of_lt {more fewer : Nat} (bound : more ≤ s.extent) (lt : fewer < more)
    (admitted : s.admits start wrapped (s.pos fewer) = true) :
    s.admits start wrapped (s.pos more) = true := by
  cases wrapped with
  | false => rfl
  | true => exact Direction.prefers_trans (prefers_pos bound lt) admitted

theorem along_eq_nil (bound : left ≤ s.extent) (refused : s.admits start wrapped (s.pos left) = false) :
    s.along (s.admits start wrapped) left = [] := by
  rw [List.eq_nil_iff_forall_not_mem]
  intro i member
  obtain ⟨admitted, k, low, rfl⟩ := mem_along.mp member
  exact absurd (refused.symm.trans (admits_of_lt bound low admitted)) Bool.false_ne_true

theorem untried_place (start : Nat) (wrapped : Bool) (visits left : Nat) (unmatched : b.best = none) :
    s.untried start ⟨wrapped, visits, .place left b⟩ =
      (s.attempt? start ⟨wrapped, visits, .place left b⟩).toList ++
        (s.along (s.admits start wrapped) left ++ s.afterLap start wrapped) := by
  rw [untried, Task.places, along, List.append_assoc, attempt?, attempts_of_unmatched unmatched]
  split <;> rfl

/-- As long as no match is known, a move tries what comes next in the order, or nothing. -/
theorem untried_move (start : Nat) (sane : s.Sane false stage) (unsettled : ¬ stage.task.Settled) :
    ∃ rest, s.untried start stage = (s.attempt? start stage).toList ++ rest ∧
      ((s.move start false stage).task.Settled ∨ s.untried start (s.move start false stage) = rest) := by
  cases sane with
  | @place wrapped visits left b bound =>
    have unmatched : b.best = none := Option.not_isSome_iff_eq_none.mp unsettled
    refine ⟨_, untried_place start wrapped visits left unmatched, ?_⟩
    rw [move]
    split
    · next ends =>
      rw [attempts_of_unmatched unmatched] at ends
      simp only [Bool.and_eq_true, Bool.not_eq_true'] at ends
      rw [untried_endLap start wrapped visits unmatched, along_eq_nil bound ends.2.2]
      exact Or.inr rfl
    · split
      · exact Or.inr (untried_leave start wrapped (visits + 1) left unmatched)
      · cases s.seed (s.admits start wrapped) left b with
        | error halt => exact Or.inl trivial
        | ok b₁ => exact Or.inr rfl
  | @list wrapped visits left ran b =>
    have unmatched : b.advance.best = none := Option.not_isSome_iff_eq_none.mp unsettled
    refine ⟨_, rfl, Or.inr ?_⟩
    rw [move]
    split
    · rfl
    · exact untried_leave start wrapped visits left unmatched
  | @thread wrapped visits left ran hops last t b =>
    refine ⟨_, rfl, ?_⟩
    rw [move]
    rcases b.hop s.program (s.cursor left) ran t with halt | ⟨_ | t', b₁⟩
    · exact Or.inl trivial
    · exact Or.inr rfl
    · exact Or.inr rfl
  | found => exact ⟨_, rfl, Or.inr rfl⟩
  | full => exact absurd trivial unsettled

section

variable (ready : s.Ready)
  (contained : s.program.arena.SelfContained (s.program.half s.dir) s.entry accepting)
  (within : start ≤ s.extent) (waits : s.Waits b)

include ready contained within waits

theorem tried_append_untried (turns : Nat) : s.tried start false b turns <+: s.order start ∧
    (¬ (s.stageAt start false b turns).task.Settled →
      s.tried start false b turns ++ s.untried start (s.stageAt start false b turns) = s.order start) := by
  induction turns with
  | zero => exact ⟨List.nil_prefix, fun _ => rfl⟩
  | succ turns ih =>
    have sane := sane_stageAt ready contained within waits false turns
    rw [tried_succ, stageAt_succ]
    by_cases settled : (s.stageAt start false b turns).task.Settled
    · have settled' := settled_move ready start sane settled
      rw [attempt?_of_settled settled, Option.toList_none, List.append_nil]
      exact ⟨ih.1, fun unsettled => absurd settled' unsettled⟩
    · obtain ⟨rest, is, onward⟩ := untried_move start sane settled
      have whole := ih.2 settled
      rw [is, ← List.append_assoc] at whole
      refine ⟨⟨rest, whole⟩, fun unsettled => ?_⟩
      rw [onward.resolve_left unsettled]
      exact whole

theorem nodup_tried (turns : Nat) : (s.tried start false b turns).Nodup := by
  have inOrder := (tried_append_untried ready contained within waits turns).1
  exact inOrder.sublist.nodup (nodup_order within)

/-- The first lap has the positions from the start on, the second those before it. -/
theorem prefers_of_attempt? (begins : s.attempt? start (s.stageAt start false b turns) = some i) :
    s.dir.prefers i start = (s.stageAt start false b turns).wrapped := by
  have whole := (tried_append_untried ready contained within waits turns).2
  obtain ⟨wrapped, visits, left, b', here, unmatched, admitted, rfl⟩ := attempt?_eq_some begins
  have unsettled : ¬ (Task.place left b').Settled := Option.not_isSome_iff_eq_none.mpr unmatched
  rw [here] at whole ⊢
  cases wrapped with
  | true => exact admitted
  | false =>
    have lap := whole unsettled
    rw [untried, ← List.append_assoc] at lap
    have first := List.append_cancel_right lap
    have member : s.pos left ∈ s.along (s.admits start false) (s.leftAt start + 1) := by
      rw [← first, List.mem_append, mem_along]
      exact Or.inr ⟨rfl, left, Nat.lt_succ_self left, rfl⟩
    exact ((mem_along_first within).mp member).2

/-- A search that is over and has found nothing has tried all positions. -/
theorem tried_eq_order {report : Report} (told : s.report? (s.stageAt start false b turns) = some report)
    (nothing : report.found = none) (quiet : .listOverflow ∉ report.log) :
    s.tried start false b turns = s.order start := by
  have sane := sane_stageAt ready contained within waits false turns
  have whole := (tried_append_untried ready contained within waits turns).2
  generalize s.stageAt start false b turns = stage at told sane whole
  cases sane with
  | @found wrapped visits b' settled =>
    cases told
    have unmatched : b'.best = none := nothing
    have last : wrapped = true := by simpa [unmatched] using settled
    subst last
    have unsettled : ¬ (Task.ended (.ok b')).Settled := Option.not_isSome_iff_eq_none.mpr unmatched
    exact (List.append_nil _).symm.trans (whole unsettled)
  | full =>
    cases told
    exact absurd (by simp) quiet
  | place | list | thread => cases told

end

/-- From the start on, and then in front of it. -/
example : (Regex.compile "(b|ab*)c").toOption.map (fun r =>
    (r.scan .forward (.ofArray #['b', 'a', 'd', 'b', 'e']) 5 none).tried 2 false r.board 130) =
      some [2, 3, 4, 5, 0, 1] := by
  decide +kernel

/-! ## No thread without an attempt -/

theorem not_mem_next (h : s.Waits b) (t : Thread) : t ∉ b.next.threads := by
  intro member
  have listed : t ∈ b.next.todo 0 := Array.mem_toList_iff.mpr member
  rw [h.idle] at listed
  cases listed

theorem stems_endLap {kind : Bool → Nat → Prop} (waits : s.Waits b) (wrapped : Bool) (visits : Nat) :
    (s.endLap bounded wrapped visits b).task.Stems (kind (s.endLap bounded wrapped visits b).wrapped) := by
  rcases s.endLap_cases bounded wrapped visits b with ⟨-, ends⟩ | ⟨-, -, wraps⟩
  · rw [ends]
    trivial
  · rw [wraps]
    exact ⟨fun t member => absurd member (b.current.not_mem_clear t),
      fun t member => absurd member (not_mem_next waits t)⟩

theorem stems_leave {kind : Bool → Nat → Prop} (waits : s.Waits b) (stems : b.Stems (kind wrapped))
    (visits left : Nat) : (s.leave bounded wrapped visits left b).task.Stems
      (kind (s.leave bounded wrapped visits left b).wrapped) := by
  cases left with
  | zero => exact stems_endLap waits wrapped visits
  | succ left => exact stems

theorem stems_seed {kind : Nat → Prop} {admits : Nat → Bool} {b' : Board limit} (ready : s.Ready)
    (waits : s.Waits b) (stems : b.Stems kind) (new : s.attempts admits left b = true → kind (s.pos left))
    (seeded : s.seed admits left b = .ok b') : b'.Stems kind := by
  unfold seed at seeded
  split at seeded
  · next attempts =>
    have added := Board.achieves_addCurrent (t := ⟨s.entry, s.pos left, .none⟩) waits.exact.sound
      ready.entry s.dir 0
    rw [seeded] at added
    obtain ⟨l, rfl, -, added⟩ := added
    exact ⟨added.forall_mem (new attempts) stems.current, stems.next⟩
  · cases seeded
    exact stems

theorem stems_visit {kind : Bool → Nat → Prop} {visits : Nat} (ready : s.Ready) (waits : s.Waits b)
    (stems : b.Stems (kind wrapped))
    (new : ∀ i, s.attempt? start ⟨wrapped, visits, .place left b⟩ = some i → kind wrapped i) :
    (s.move start bounded ⟨wrapped, visits, .place left b⟩).task.Stems
      (kind (s.move start bounded ⟨wrapped, visits, .place left b⟩).wrapped) := by
  rw [move]
  split
  · exact stems_endLap waits wrapped visits
  split
  · exact stems_leave waits stems (visits + 1) left
  cases seeded : s.seed (s.admits start wrapped) left b with
  | error halt => trivial
  | ok b₁ => exact stems_seed ready waits stems (fun attempts => new _ (if_pos attempts)) seeded

theorem stems_move (kind : Bool → Nat → Prop) (ready : s.Ready) (sane : s.Sane bounded stage)
    (stems : stage.task.Stems (kind stage.wrapped))
    (new : ∀ i, s.attempt? start stage = some i → kind stage.wrapped i) :
    (s.move start bounded stage).task.Stems (kind (s.move start bounded stage).wrapped) := by
  cases sane with
  | place bound waits => exact stems_visit ready waits stems new
  | @list wrapped visits left ran b seeds busy =>
    rw [move]
    split
    · exact ⟨stems.current _ (Array.getElem_mem _), stems⟩
    · have cleared : b.advance.Stems (kind wrapped) :=
        ⟨stems.next, fun t member => absurd member (b.current.not_mem_clear t)⟩
      exact stems_leave busy.advance cleared visits left
  | @thread wrapped visits left ran hops last t b seeds l busy allowed within =>
    have hopped := Board.achieves_hop ready.closed (judges ready busy.bound) busy.exact.sound within ran
    rw [move]
    generalize b.hop s.program (s.cursor left) ran t = result at hopped
    cases result with
    | error halt => trivial
    | ok after =>
      obtain ⟨here, stems₁⟩ := hopped.stems stems.1 stems.2
      obtain ⟨_ | t', b₁⟩ := after
      · exact stems₁
      · exact ⟨here t' rfl, stems₁⟩
  | found | full => trivial

section

variable (ready : s.Ready)
  (contained : s.program.arena.SelfContained (s.program.half s.dir) s.entry accepting)
  (within : start ≤ s.extent) (waits : s.Waits b) (none_waits : ∀ t, t ∉ b.current.threads)

include ready contained within waits none_waits

/-- The attempts of all threads began before, and on the same lap. -/
theorem stems_stageAt (turns : Nat) : (s.stageAt start false b turns).task.Stems fun i =>
    i ∈ s.tried start false b turns ∧
      s.dir.prefers i start = (s.stageAt start false b turns).wrapped := by
  induction turns with
  | zero =>
    exact ⟨fun t member => absurd member (none_waits t),
      fun t member => absurd member (not_mem_next waits t)⟩
  | succ turns ih =>
    have sane := sane_stageAt ready contained within waits false turns
    let kind : Bool → Nat → Prop := fun wrapped i =>
      i ∈ s.tried start false b (turns + 1) ∧ s.dir.prefers i start = wrapped
    have known : (s.stageAt start false b turns).task.Stems
        (kind (s.stageAt start false b turns).wrapped) := by
      refine ih.mono fun i h => ⟨?_, h.2⟩
      rw [tried_succ]
      exact List.mem_append_left _ h.1
    rw [stageAt_succ]
    refine stems_move kind ready sane known ?_
    intro i begins
    refine ⟨?_, prefers_of_attempt? ready contained within waits begins⟩
    rw [tried_succ, begins]
    exact List.mem_append_right _ (List.mem_singleton_self i)

end

/-! ## A search that wraps around -/

/-- What is told of the attempts of a search with two laps, where `order` lists the positions from the
start on and then those before it.  Its stages have the answer of `run` still to give, so that they are
those of this search. -/
structure TriesOnce (s : Scan) (start : Nat) (b : Board limit) (report : Report) (order : List Nat) :
    Prop where
  run : ∃ b', s.run start false b = .ok (report, b')
  answer : ∀ turns, s.answer start false (s.stageAt start false b turns) = s.run start false b
  once : ∀ turns, (s.tried start false b turns).Nodup
  inOrder : ∀ turns, s.tried start false b turns <+: order
  stems : ∀ turns, ∀ t ∈ (s.stageAt start false b turns).task.threads,
    t.seed ∈ s.tried start false b turns ∧
      s.dir.prefers t.seed start = (s.stageAt start false b turns).wrapped
  all : ∃ turns, s.report? (s.stageAt start false b turns) = some report ∧
    (report.found = none → .listOverflow ∉ report.log → s.tried start false b turns = order)

theorem triesOnce {report : Report} {b' : Board limit} (ready : s.Ready)
    (contained : s.program.arena.SelfContained (s.program.half s.dir) s.entry accepting)
    (within : start ≤ s.extent) (waits : s.Waits b) (none_waits : ∀ t, t ∉ b.current.threads)
    (run : s.run start false b = .ok (report, b')) : s.TriesOnce start b report (s.order start) := by
  obtain ⟨turns, -, report', b'', told, run'⟩ := exists_report_stageAt ready contained within waits false
  cases run.symm.trans run'
  refine ⟨⟨b', run⟩, answer_stageAt ready contained within waits false,
    nodup_tried ready contained within waits, fun turns => ?_, fun turns t member => ?_, turns, told, ?_⟩
  · exact (tried_append_untried ready contained within waits turns).1
  · have stems := stems_stageAt ready contained within waits none_waits turns
    exact stems.threads t member
  · exact tried_eq_order ready contained within waits told

end Scan

end CursorRegex
