import CursorRegex.Proofs.Search.Choice
import CursorRegex.Proofs.Search.Lockstep

/-! # Two searches side by side

Two scans are twins if they read the same characters in the same order, begin their attempts with related
threads, and let related threads do related things.  Then their boards stay related from visit to visit
(`Twins.agree_visit`), over whole laps (`Twins.agree_lap`), and in the end they tell the same
(`Twins.alike`), unless one had less room for its threads and says so. -/
set_option autoImplicit false

namespace CursorRegex

def Event.toward (dir : Direction) : Event → Event
  | .wrapped _ pos => .wrapped dir pos
  | .listOverflow => .listOverflow

namespace Board

variable {limit size ran : Nat} {b : Board limit}

theorem Exact.roster_advance (exact : b.Exact size ran) :
    b.advance.roster 0 = ⟨[], b.next.todo 0, [], b.best⟩ := by
  obtain ⟨-, current, idle, best⟩ := exact.advance
  rw [roster, current, idle, best]
  rfl

theorem Exact.drop (exact : b.Exact size ran) :
    b.drop.Exact size 0 ∧ b.drop.roster 0 = ⟨[], [], b.next.todo 0, b.best⟩ := by
  refine ⟨⟨exact.current.clear, exact.next⟩, ?_⟩
  have cleared : b.drop.current = .empty size := ThreadList.clear_eq exact.current.sound
  rw [roster, cleared]
  rfl

theorem isEmpty_current (b : Board limit) : b.current.isEmpty = (b.current.todo 0).isEmpty := by
  simp [ThreadList.isEmpty, ThreadList.todo]

end Board

namespace Scan

variable {limit limit' left : Nat} {s s' : Scan} {link : Link s.dir s'.dir}
  {admits admits' : Nat → Bool} {b b₁ : Board limit} {b' b₁' : Board limit'}

variable (s s' link) in
/-- Scans that see the same ahead of them and whose programs do related things with related threads. -/
structure Twins : Prop where
  ready : s.Ready
  ready' : s'.Ready
  extent : s.extent = s'.extent
  first : s.first = s'.first
  upcoming : ∀ left, left ≤ s.extent → s.upcoming left = s'.upcoming left
  begins : ∀ left, left ≤ s.extent →
    link.Threads ⟨s.entry, s.pos left, .none⟩ ⟨s'.entry, s'.pos left, .none⟩
  acts : ∀ left, left ≤ s.extent → ∀ {t t' : Thread} {a a' : Act}, link.Threads t t' →
    t.Does s.program (s.cursor left) a → t'.Does s'.program (s'.cursor left) a' → link.Acts a a'

theorem separates_all (ready : s.Ready) (bound : left ≤ s.extent) :
    Separates s.program (s.cursor left) .all :=
  ⟨ready.closed, judges ready bound, fun _ _ left_out => nomatch left_out⟩

variable (s s' link b b') in
def Beside : Prop :=
  link.Boards .all .all s.program.arena.size s'.program.arena.size 0 0 b b'

theorem Beside.rosters (h : s.Beside s' link b b') : link.Rosters (b.roster 0) (b'.roster 0) := by
  have rosters := Link.Boards.rosters h
  rwa [Roster.only_all, Roster.only_all] at rosters

theorem Beside.of_rosters (exact : b.Exact s.program.arena.size 0)
    (exact' : b'.Exact s'.program.arena.size 0) (rosters : link.Rosters (b.roster 0) (b'.roster 0)) :
    s.Beside s' link b b' := by
  refine ⟨exact, exact', ?_⟩
  rwa [Roster.only_all, Roster.only_all]

theorem Beside.isEmpty_eq (h : s.Beside s' link b b') : b.current.isEmpty = b'.current.isEmpty := by
  have todo : List.Forall₂ link.Threads (b.current.todo 0) (b'.current.todo 0) := h.rosters.todo
  rw [Board.isEmpty_current, Board.isEmpty_current]
  generalize b.current.todo 0 = ts at todo
  generalize b'.current.todo 0 = ts' at todo
  cases todo <;> rfl

theorem Beside.isNone_eq (h : s.Beside s' link b b') : b.best.isNone = b'.best.isNone := by
  have best : Option.Rel link.captures b.best b'.best := h.rosters.best
  generalize b.best = o at best
  generalize b'.best = o' at best
  cases best <;> rfl

theorem Beside.drop (h : s.Beside s' link b b') : s.Beside s' link b.drop b'.drop := by
  obtain ⟨exact, roster⟩ := h.exact.drop
  obtain ⟨exact', roster'⟩ := h.exact'.drop
  refine .of_rosters exact exact' ?_
  rw [roster, roster']
  exact ⟨.nil, .nil, h.rosters.next, h.rosters.best⟩

theorem Beside.start (sound : b.Sound s.program.arena.size) (sound' : b'.Sound s'.program.arena.size)
    (none_waits : ∀ t, t ∉ b.current.threads) (none_waits' : ∀ t, t ∉ b'.current.threads)
    (idle : ∀ t, t ∉ b.next.threads) (idle' : ∀ t, t ∉ b'.next.threads)
    (unmatched : b.best = none) (unmatched' : b'.best = none) : s.Beside s' link b b' := by
  refine .of_rosters ⟨.of_sound sound.current none_waits, .of_sound sound.next idle⟩
    ⟨.of_sound sound'.current none_waits', .of_sound sound'.next idle'⟩ ?_
  rw [Board.roster, Board.roster, ThreadList.todo_eq_nil none_waits, ThreadList.todo_eq_nil none_waits',
    ThreadList.todo_eq_nil idle, ThreadList.todo_eq_nil idle', unmatched, unmatched']
  exact ⟨.nil, .nil, .nil, .none⟩

namespace Twins

theorem aligns (twins : s.Twins s' link) (bound : left ≤ s.extent) :
    link.Aligns (s.cursor left) (s'.cursor left) s.program s'.program .all .all where
  left := separates_all twins.ready bound
  right := separates_all twins.ready' (twins.extent ▸ bound)
  here_eq _ := rfl
  ahead_eq _ := rfl
  acts threads _ := twins.acts left bound threads

theorem attempts_eq (h : s.Beside s' link b b') (same : admits (s.pos left) = admits' (s'.pos left)) :
    s.attempts admits left b = s'.attempts admits' left b' := by
  rw [attempts, attempts, h.isNone_eq, same]

theorem agree_seed (twins : s.Twins s' link) (bound : left ≤ s.extent) (h : s.Beside s' link b b')
    (same : admits (s.pos left) = admits' (s'.pos left)) :
    Agree (Link.Roomy limit .all limit') (Link.Roomy limit' .all limit) (s.Beside s' link)
      (s.seed admits left b) (s'.seed admits' left b') := by
  unfold seed
  rw [attempts_eq h same]
  split
  · have begins := twins.begins left bound
    have performed := (twins.aligns bound).agree_perform h (.fork begins begins)
      ⟨twins.ready.entry, twins.ready.entry⟩ ⟨twins.ready'.entry, twins.ready'.entry⟩
    rw [Board.addCurrent_eq, Board.addCurrent_eq]
    exact performed.map fun _ _ related => related.2.2
  · exact h

theorem agree_visit (twins : s.Twins s' link) (bound : left ≤ s.extent) (h : s.Beside s' link b b')
    (same : admits (s.pos left) = admits' (s'.pos left)) :
    Agree (Link.Roomy limit .all limit') (Link.Roomy limit' .all limit) (s.Beside s' link)
      (s.visit admits left b) (s'.visit admits' left b') := by
  have skips : s.skips (s.upcoming left) b = s'.skips (s'.upcoming left) b' := by
    rw [Scan.skips, Scan.skips, h.isEmpty_eq, twins.first, twins.upcoming left bound]
  rw [visit_eq twins.ready bound, visit_eq twins.ready' (twins.extent ▸ bound), skips]
  split
  · exact h
  · refine (twins.agree_seed bound h same).bind fun b₁ b₁' seeded => ?_
    refine ((twins.aligns bound).agree_runFrom seeded).bind ?_
    rintro b₂ b₂' ⟨j, j', exact, exact', rosters⟩
    rw [Roster.only_all, Roster.only_all] at rosters
    refine Beside.of_rosters exact.advance.1 exact'.advance.1 ?_
    rw [exact.roster_advance, exact'.roster_advance]
    exact ⟨.nil, rosters.next, .nil, rosters.best⟩

theorem agree_lap (admits admits' : Nat → Bool) (twins : s.Twins s' link) (bound : left ≤ s.extent)
    (h : s.Beside s' link b b')
    (same : ∀ place, place ≤ left → admits (s.pos place) = admits' (s'.pos place)) :
    Agree (Link.Roomy limit .all limit') (Link.Roomy limit' .all limit) (s.Beside s' link)
      (s.lap admits left b) (s'.lap admits' left b') := by
  induction left generalizing b b' with
  | zero => exact twins.agree_visit bound h (same 0 (Nat.le_refl 0))
  | succ left ih =>
    have here := same (left + 1) (Nat.le_refl _)
    rw [lap_succ, lap_succ, h.isEmpty_eq, attempts_eq h here]
    split
    · exact h
    · refine (twins.agree_visit bound h here).bind fun b₁ b₁' visited => ?_
      exact ih (Nat.le_of_succ_le bound) visited fun place below => same place (Nat.le_succ_of_le below)

/-! ## What the searches tell -/

variable (link limit limit') in
/-- Two reports that say the same, unless one says that there was too little room. -/
inductive Alike : Report → Report → Prop where
  | short {report report' : Report} (less : limit < limit') (full : .listOverflow ∈ report.log) :
      Alike report report'
  | short' {report report' : Report} (less : limit' < limit) (full : .listOverflow ∈ report'.log) :
      Alike report report'
  | same {report report' : Report} (log : report'.log = report.log.map (·.toward s'.dir))
      (found : Option.Rel link.captures report.found report'.found) : Alike report report'

theorem lt_of_not_roomy (cramped : ¬ Link.Roomy limit .all limit') : limit < limit' :=
  Nat.lt_of_not_le fun le => cramped ⟨le, rfl⟩

theorem alike_of_conclude {log log' : List Event} {x : Except (Halt (Board limit)) (Board limit)}
    {x' : Except (Halt (Board limit')) (Board limit')} {report report' : Report}
    (h : Agree (Link.Roomy limit .all limit') (Link.Roomy limit' .all limit) (s.Beside s' link) x x')
    (logs : log' = log.map (·.toward s'.dir)) (ended : conclude log x = .ok (report, b₁))
    (ended' : conclude log' x' = .ok (report', b₁')) : Alike limit limit' link report report' := by
  subst logs
  match x, x', h with
  | .error (.fault _), _, _ => cases ended
  | _, .error (.fault _), _ => cases ended'
  | .ok b₁, .ok b₁', h =>
    cases ended
    cases ended'
    exact .same rfl h.rosters.best
  | .ok _, .error (.overflow _), cramped =>
    cases ended'
    exact .short' (lt_of_not_roomy cramped) (by simp)
  | .error (.overflow _), .ok _, cramped =>
    cases ended
    exact .short (lt_of_not_roomy cramped) (by simp)
  | .error (.overflow _), .error (.overflow _), _ =>
    cases ended
    cases ended'
    exact .same (by rw [List.map_append]; rfl) .none

theorem alike {start start' : Nat} {bounded : Bool} {report report' : Report}
    (twins : s.Twins s' link) (h : s.Beside s' link b b') (within : start ≤ s.extent)
    (ahead : s.leftAt start = s'.leftAt start')
    (behind : ∀ place, place ≤ s.extent →
      s.dir.prefers (s.pos place) start = s'.dir.prefers (s'.pos place) start')
    (ran : s.run start bounded b = .ok (report, b₁))
    (ran' : s'.run start' bounded b' = .ok (report', b₁')) : Alike limit limit' link report report' := by
  have first := twins.agree_lap (fun _ => true) (fun _ => true) (leftAt_le within) h fun _ _ => rfl
  unfold run at ran ran'
  rw [← ahead] at ran'
  generalize s.lap (fun _ => true) (s.leftAt start) b = x at first ran
  generalize s'.lap (fun _ => true) (s.leftAt start) b' = x' at first ran'
  match x, x', first with
  | .error (.fault _), _, _ => cases ran
  | _, .error (.fault _), _ => cases ran'
  | .ok _, .error (.overflow _), cramped =>
    cases ran'
    exact .short' (lt_of_not_roomy cramped) List.mem_cons_self
  | .error (.overflow _), .ok _, cramped =>
    cases ran
    exact .short (lt_of_not_roomy cramped) List.mem_cons_self
  | .error (.overflow _), .error (.overflow _), both => exact alike_of_conclude both rfl ran ran'
  | .ok b₂, .ok b₂', beside =>
    have matched : b₂.best.isSome = b₂'.best.isSome := by
      rw [← Option.not_isNone, ← Option.not_isNone, beside.isNone_eq]
    dsimp only at ran ran'
    rw [← matched] at ran'
    by_cases settled : (b₂.best.isSome || bounded) = true
    · rw [if_pos settled] at ran ran'
      exact alike_of_conclude beside rfl ran ran'
    · rw [if_neg settled] at ran ran'
      rw [← twins.extent] at ran'
      exact alike_of_conclude (twins.agree_lap _ _ (Nat.le_refl _) beside.drop behind) rfl ran ran'

end Twins

end Scan

end CursorRegex
