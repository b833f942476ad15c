import CursorRegex.Proofs.Search.Answer
import CursorRegex.Proofs.Search.Lockstep
import CursorRegex.Proofs.Search.Queries

/-! # What a match records does not depend on where the search began

Searches from different starts begin different attempts, and these get in each other's way.  But an
attempt that leads to no match only ever waits at instructions that lead nowhere (`Scan.live`), where
nothing else can wait that does lead to a match.  Apart from such threads, two laps that find a match of
one attempt are the same from the place where it began (`Scan.Same`): what lies before leads nowhere, and
behind it both begin attempts wherever one can lead to a match, until a match is found. -/
set_option autoImplicit false

namespace CursorRegex

theorem Link.acts_refl {dir : Direction} (a : Act) : (Link.refl dir).Acts a a := by
  have same : ∀ t, (Link.refl dir).Threads t t := fun t => ⟨rfl, rfl, rfl⟩
  cases a with
  | stop => exact .stop
  | move t => exact .move (same t)
  | take t => exact .take (same t)
  | fork later t => exact .fork (same later) (same t)
  | win m => exact .win rfl

theorem Link.threads_refl_iff {dir : Direction} {t t' : Thread} :
    (Link.refl dir).Threads t t' ↔ t = t' := by
  constructor
  · rintro ⟨inst, seed, marks⟩
    obtain ⟨i, s, m⟩ := t
    cases inst
    cases seed
    cases marks
    rfl
  · rintro rfl
    exact ⟨rfl, rfl, rfl⟩

theorem Link.rosters_refl_iff {dir : Direction} {r r' : Roster} :
    (Link.refl dir).Rosters r r' ↔ r = r' := by
  have threads : (Link.refl dir).Threads = Eq := by
    funext t t'
    exact propext threads_refl_iff
  have lists : ∀ ts ts', List.Forall₂ (Link.refl dir).Threads ts ts' ↔ ts = ts' := by
    intro ts ts'
    rw [threads, List.forall₂_eq_eq_eq]
  obtain ⟨done, todo, next, best⟩ := r
  obtain ⟨done', todo', next', best'⟩ := r'
  constructor
  · rintro ⟨same_done, same_todo, same_next, same_best⟩
    cases (lists _ _).mp same_done
    cases (lists _ _).mp same_todo
    cases (lists _ _).mp same_next
    cases same_best with
    | none => rfl
    | some captures =>
      cases captures
      rfl
  · rintro ⟨⟩
    refine ⟨(lists _ _).mpr rfl, (lists _ _).mpr rfl, (lists _ _).mpr rfl, ?_⟩
    cases best with
    | none => exact .none
    | some m => exact .some rfl

namespace Scan

variable {limit left : Nat} {s : Scan} {admits admits' : Nat → Bool} {b b' b₁ b₁' : Board limit}
  {m m' : Captures}

/-! ## Instructions that lead nowhere -/

open Classical in
/-- Whether instruction `i` leads to a match with `left` characters left. -/
noncomputable def live (s : Scan) (left i : Nat) : Bool := decide (∃ e, s.Leads i (s.pos left) e)

noncomputable def liveAhead (s : Scan) : Nat → Nat → Bool
  | 0, _ => false
  | left + 1, i => s.live left i

noncomputable def sieve (s : Scan) (left : Nat) : Sieve := ⟨s.live left, s.liveAhead left⟩

theorem not_live_iff {i : Nat} : s.live left i = false ↔ ∀ e, ¬ s.Leads i (s.pos left) e := by
  simp [live]

theorem Leads.step {i j pos pos' e : Nat} (goes : s.Goes i pos j pos') (leads : s.Leads j pos' e) :
    s.Leads i pos e := by
  obtain ⟨trace, r, next, path, accepts⟩ := leads
  exact ⟨_, r, next, .cons goes path, accepts⟩

/-- Threads where nothing leads on only go on among such places. -/
theorem separates_live (ready : s.Ready) (bound : left ≤ s.extent) :
    Separates s.program (s.cursor left) (s.sieve left) := by
  refine ⟨ready.closed, judges ready bound, fun t a left_out does => ?_⟩
  replace left_out := not_live_iff.mp left_out
  have moves : ∀ t', t.Moves s.program (s.cursor left) t' → s.live left t'.inst = false := by
    intro t' moves
    rw [not_live_iff]
    intro e leads
    exact left_out e (leads.step (Moves.goes ready bound moves).1)
  cases does with
  | stop => trivial
  | move goes => exact moves _ goes
  | fork here => exact ⟨moves _ (.forkRight here), moves _ (.forkNext here)⟩
  | take takes =>
    obtain ⟨⟨k, rfl, goes⟩, -⟩ := Takes.goes ready bound takes
    change s.live k _ = false
    rw [not_live_iff]
    intro e leads
    exact left_out e (leads.step goes)
  | win wins =>
    cases wins with
    | accept here => exact left_out _ ⟨[], _, _, .nil _ _, here⟩

theorem aligns_live (ready : s.Ready) (bound : left ≤ s.extent) :
    (Link.refl s.dir).Aligns (s.cursor left) (s.cursor left) s.program s.program (s.sieve left)
      (s.sieve left) := by
  have separates := separates_live ready bound
  refine ⟨separates, separates, ?_, ?_, ?_⟩
  · rintro i _ rfl
    rfl
  · rintro i _ rfl
    rfl
  · intro t t' a a' threads _ does does'
    cases Link.threads_refl_iff.mp threads
    cases does.unique does'
    exact Link.acts_refl a

/-! ## Visits that find nothing new -/

/-- No thread that leads to a match waits at the places with fewer than `low` characters left. -/
structure Quiet (s : Scan) (low : Nat) (b : Board limit) : Prop where
  exact : b.Exact s.program.arena.size 0
  none_counts : Thread.kept (s.liveAhead low) (b.current.todo 0) = []
  idle : b.next.todo 0 = []

theorem Quiet.of_isEmpty {low fewer : Nat} (h : s.Quiet low b) (none_left : b.current.isEmpty = true) :
    s.Quiet fewer b := by
  have nothing : b.current.todo 0 = [] :=
    ThreadList.todo_eq_nil (ThreadList.not_mem_of_isEmpty none_left)
  exact ⟨h.exact, by rw [nothing]; rfl, h.idle⟩

/-- An attempt that leads nowhere adds no thread that leads anywhere. -/
theorem only_seed (ready : s.Ready) (exact : b.Exact s.program.arena.size 0)
    (nowhere : s.attempts admits left b = true → s.live left s.entry = false)
    (seeded : s.seed admits left b = .ok b₁) :
    b₁.Exact s.program.arena.size 0 ∧
      (b₁.roster 0).only (s.sieve left) = (b.roster 0).only (s.sieve left) := by
  unfold seed at seeded
  by_cases attempts : s.attempts admits left b = true
  · rw [if_pos attempts, Board.addCurrent_eq] at seeded
    obtain ⟨⟨o, b₂⟩, done, rfl⟩ := map_eq_ok.mp seeded
    have left_out := nowhere attempts
    have performed := Board.performed (a := .fork ⟨s.entry, s.pos left, .none⟩
      ⟨s.entry, s.pos left, .none⟩) s.dir exact ⟨ready.entry, ready.entry⟩
    rw [done] at performed
    cases performed with
    | room exact' roster =>
      refine ⟨exact', ?_⟩
      rw [roster]
      exact Roster.only_perform_of_idle s.dir _ ⟨left_out, left_out⟩
  · rw [if_neg attempts] at seeded
    cases seeded
    exact ⟨exact, rfl⟩

theorem Quiet.visit (ready : s.Ready) (bound : left ≤ s.extent) (h : s.Quiet (left + 1) b)
    (nowhere : s.attempts admits left b = true → s.live left s.entry = false)
    (visited : s.visit admits left b = .ok b₁) : s.Quiet left b₁ ∧ b₁.best = b.best := by
  rw [visit_eq ready bound] at visited
  by_cases skips : s.skips (s.upcoming left) b = true
  · rw [if_pos skips] at visited
    cases visited
    simp only [Scan.skips, Bool.and_eq_true] at skips
    exact ⟨h.of_isEmpty skips.1.1, rfl⟩
  · rw [if_neg skips] at visited
    obtain ⟨b₂, seeded, visited⟩ := bind_eq_ok.mp visited
    obtain ⟨b₃, ran, visited⟩ := bind_eq_ok.mp visited
    cases visited
    obtain ⟨exact₂, same₂⟩ := only_seed ready h.exact nowhere seeded
    have none_counts : Thread.kept (s.live left) (b₂.current.todo 0) = [] :=
      (congrArg Roster.todo same₂).trans h.none_counts
    obtain ⟨j, exact₃, same₃⟩ := (separates_live ready bound).only_runFrom exact₂ none_counts ran
    obtain ⟨exact, current, idle, best⟩ := exact₃.advance
    have same := same₃.trans same₂
    refine ⟨⟨exact, ?_, idle⟩, ?_⟩
    · rw [current]
      refine (congrArg Roster.next same).trans ?_
      rw [Roster.only, Board.roster, h.idle]
      rfl
    · rw [best]
      exact congrArg Roster.best same

theorem lap_succ_eq_ok (ended : s.lap admits (left + 1) b = .ok b₁) :
    b.current.isEmpty = true ∧ s.attempts admits (left + 1) b = false ∧ b₁ = b ∨
      ∃ b₂, s.visit admits (left + 1) b = .ok b₂ ∧ s.lap admits left b₂ = .ok b₁ := by
  rw [lap_succ] at ended
  by_cases ends : (b.current.isEmpty && !s.attempts admits (left + 1) b) = true
  · rw [if_pos ends] at ended
    cases ended
    simp only [Bool.and_eq_true, Bool.not_eq_true'] at ends
    exact Or.inl ⟨ends.1, ends.2, rfl⟩
  · rw [if_neg ends] at ended
    exact Or.inr (bind_eq_ok.mp ended)

/-- Once the best match is known, a lap without threads that count keeps it. -/
theorem Quiet.lap_settled (ready : s.Ready) (bound : left ≤ s.extent) (h : s.Quiet (left + 1) b)
    (known : b.best = some m) (ended : s.lap admits left b = .ok b₁) : b₁.best = some m := by
  have none_begins : ∀ {left} {b : Board limit}, b.best = some m → s.attempts admits left b = true →
      s.live left s.entry = false := by
    intro left b known attempts
    simp [Scan.attempts, known] at attempts
  induction left generalizing b with
  | zero => exact (h.visit ready bound (none_begins known) ended).2.trans known
  | succ left ih =>
    rcases lap_succ_eq_ok ended with ⟨-, -, rfl⟩ | ⟨b₂, visited, ended⟩
    · exact known
    · obtain ⟨quiet, best⟩ := h.visit ready bound (none_begins known) visited
      exact ih (Nat.le_of_succ_le bound) quiet (best.trans known) ended

/-- A lap whose first attempts lead nowhere is one that begins behind them, if it finds anything. -/
theorem Quiet.lap_until {low : Nat} (ready : s.Ready) (bound : left ≤ s.extent) (le : low ≤ left)
    (h : s.Quiet (left + 1) b) (unmatched : b.best = none)
    (nowhere : ∀ place, low < place → place ≤ left → admits (s.pos place) = true →
      s.live place s.entry = false)
    (ended : s.lap admits left b = .ok b₁) (found : b₁.best = some m) :
    ∃ b₂, s.Quiet (low + 1) b₂ ∧ b₂.best = none ∧ s.lap admits low b₂ = .ok b₁ := by
  induction left generalizing b with
  | zero =>
    cases Nat.le_zero.mp le
    exact ⟨b, h, unmatched, ended⟩
  | succ left ih =>
    rcases Nat.eq_or_lt_of_le le with rfl | lt
    · exact ⟨b, h, unmatched, ended⟩
    rcases lap_succ_eq_ok ended with ⟨-, -, rfl⟩ | ⟨b₂, visited, ended⟩
    · cases unmatched.symm.trans found
    · have dead : s.attempts admits (left + 1) b = true → s.live (left + 1) s.entry = false := by
        intro attempts
        simp only [Scan.attempts, Bool.and_eq_true] at attempts
        exact nowhere (left + 1) lt (Nat.le_refl _) attempts.2
      obtain ⟨quiet, best⟩ := h.visit ready bound dead visited
      exact ih (Nat.le_of_succ_le bound) (Nat.le_of_lt_succ lt) quiet (best.trans unmatched)
        (fun place above below => nowhere place above (Nat.le_succ_of_le below)) ended

/-! ## Two laps side by side -/

/-- Before the places with fewer than `low` characters left, the boards differ only in threads that lead
nowhere. -/
structure Same (s : Scan) (low : Nat) (b b' : Board limit) : Prop where
  exact : b.Exact s.program.arena.size 0
  exact' : b'.Exact s.program.arena.size 0
  threads : Thread.kept (s.liveAhead low) (b.current.todo 0) =
    Thread.kept (s.liveAhead low) (b'.current.todo 0)
  idle : b.next.todo 0 = []
  idle' : b'.next.todo 0 = []
  best : b.best = b'.best

namespace Same

theorem symm {low : Nat} (h : s.Same low b b') : s.Same low b' b :=
  ⟨h.exact', h.exact, h.threads.symm, h.idle', h.idle, h.best.symm⟩

theorem of_quiet {low : Nat} (quiet : s.Quiet low b) (quiet' : s.Quiet low b')
    (best : b.best = b'.best) : s.Same low b b' :=
  ⟨quiet.exact, quiet'.exact, quiet.none_counts.trans quiet'.none_counts.symm, quiet.idle, quiet'.idle,
    best⟩

theorem quiet_of_isEmpty {low : Nat} (h : s.Same low b b') (none_left : b.current.isEmpty = true) :
    s.Quiet low b ∧ s.Quiet low b' := by
  have nothing : b.current.todo 0 = [] :=
    ThreadList.todo_eq_nil (ThreadList.not_mem_of_isEmpty none_left)
  have none_counts : Thread.kept (s.liveAhead low) (b.current.todo 0) = [] := by
    rw [nothing]
    rfl
  exact ⟨⟨h.exact, none_counts, h.idle⟩, ⟨h.exact', h.threads ▸ none_counts, h.idle'⟩⟩

theorem rosters (h : s.Same (left + 1) b b') :
    (b.roster 0).only (s.sieve left) = (b'.roster 0).only (s.sieve left) := by
  have threads : Thread.kept (s.sieve left).here (b.current.todo 0) =
    Thread.kept (s.sieve left).here (b'.current.todo 0) := h.threads
  simp only [Roster.only, Board.roster, threads, h.idle, h.idle', h.best]
  rfl

theorem seed (ready : s.Ready) (h : s.Same (left + 1) b b')
    (agree : s.live left s.entry = true → s.attempts admits left b = s.attempts admits' left b')
    (bound : left ≤ s.extent) (seeded : s.seed admits left b = .ok b₁)
    (seeded' : s.seed admits' left b' = .ok b₁') :
    (Link.refl s.dir).Boards (s.sieve left) (s.sieve left) s.program.arena.size s.program.arena.size 0 0
      b₁ b₁' := by
  have same := h.rosters
  cases counts : s.live left s.entry with
  | false =>
    obtain ⟨exact, only⟩ := only_seed ready h.exact (fun _ => counts) seeded
    obtain ⟨exact', only'⟩ := only_seed ready h.exact' (fun _ => counts) seeded'
    exact ⟨exact, exact', Link.rosters_refl_iff.mpr (only.trans (same.trans only'.symm))⟩
  | true =>
    unfold Scan.seed at seeded seeded'
    rw [← agree counts] at seeded'
    by_cases attempts : s.attempts admits left b = true
    · rw [if_pos attempts, Board.addCurrent_eq] at seeded seeded'
      obtain ⟨⟨o, b₂⟩, done, rfl⟩ := map_eq_ok.mp seeded
      obtain ⟨⟨o', b₂'⟩, done', rfl⟩ := map_eq_ok.mp seeded'
      have aligns := aligns_live ready bound
      have boards : (Link.refl s.dir).Boards (s.sieve left) (s.sieve left) s.program.arena.size
          s.program.arena.size 0 0 b b' :=
        ⟨h.exact, h.exact', Link.rosters_refl_iff.mpr same⟩
      have within : (Act.fork ⟨s.entry, s.pos left, .none⟩ ⟨s.entry, s.pos left, .none⟩).Within
          s.program.arena.size := ⟨ready.entry, ready.entry⟩
      exact ((aligns.agree_perform boards (Link.acts_refl _) within within).ok_ok done done').2.2
    · rw [if_neg attempts] at seeded seeded'
      cases seeded
      cases seeded'
      exact ⟨h.exact, h.exact', Link.rosters_refl_iff.mpr same⟩

/-- No attempt that begins where a visit is skipped leads anywhere. -/
theorem visit_of_skips (ready : s.Ready) (bound : left ≤ s.extent) (h : s.Same (left + 1) b b')
    (skips : s.skips (s.upcoming left) b = true) (visited : s.visit admits left b = .ok b₁)
    (visited' : s.visit admits' left b' = .ok b₁') : s.Same left b₁ b₁' := by
  have nowhere : s.live left s.entry = false := not_live_iff.mpr (not_leads_of_skips ready bound skips)
  simp only [Scan.skips, Bool.and_eq_true] at skips
  obtain ⟨quiet, quiet'⟩ := h.quiet_of_isEmpty skips.1.1
  obtain ⟨quiet₁, best⟩ := quiet.visit ready bound (fun _ => nowhere) visited
  obtain ⟨quiet₁', best'⟩ := quiet'.visit ready bound (fun _ => nowhere) visited'
  exact .of_quiet quiet₁ quiet₁' (best.trans (h.best.trans best'.symm))

theorem visit (ready : s.Ready) (bound : left ≤ s.extent) (h : s.Same (left + 1) b b')
    (agree : s.live left s.entry = true → s.attempts admits left b = s.attempts admits' left b')
    (visited : s.visit admits left b = .ok b₁) (visited' : s.visit admits' left b' = .ok b₁') :
    s.Same left b₁ b₁' := by
  by_cases skips : s.skips (s.upcoming left) b = true
  · exact h.visit_of_skips ready bound skips visited visited'
  by_cases skips' : s.skips (s.upcoming left) b' = true
  · exact (h.symm.visit_of_skips ready bound skips' visited' visited).symm
  rw [visit_eq ready bound, if_neg skips] at visited
  rw [visit_eq ready bound, if_neg skips'] at visited'
  obtain ⟨b₂, seeded, visited⟩ := bind_eq_ok.mp visited
  obtain ⟨b₃, ran, visited⟩ := bind_eq_ok.mp visited
  obtain ⟨b₂', seeded', visited'⟩ := bind_eq_ok.mp visited'
  obtain ⟨b₃', ran', visited'⟩ := bind_eq_ok.mp visited'
  cases visited
  cases visited'
  have boards := h.seed ready agree bound seeded seeded'
  obtain ⟨j, j', exact, exact', rosters⟩ :=
    ((aligns_live ready bound).agree_runFrom boards).ok_ok ran ran'
  have same := Link.rosters_refl_iff.mp rosters
  obtain ⟨exact₁, current, idle, best⟩ := exact.advance
  obtain ⟨exact₁', current', idle', best'⟩ := exact'.advance
  refine ⟨exact₁, exact₁', ?_, idle, idle', ?_⟩
  · rw [current, current']
    exact congrArg Roster.next same
  · rw [best, best']
    exact congrArg Roster.best same

/-- Two laps that differ in threads that lead nowhere find the same match, if both find one and both begin
attempts wherever one leads to a match. -/
theorem lap (ready : s.Ready) (bound : left ≤ s.extent) (h : s.Same (left + 1) b b')
    (all : ∀ place, place ≤ left → s.live place s.entry = true → admits (s.pos place) = true)
    (all' : ∀ place, place ≤ left → s.live place s.entry = true → admits' (s.pos place) = true)
    (ended : s.lap admits left b = .ok b₁) (ended' : s.lap admits' left b' = .ok b₁')
    (found : b₁.best = some m) (found' : b₁'.best = some m') : m = m' := by
  have agree : ∀ {place} {b b' : Board limit}, place ≤ left → b.best = b'.best →
      s.live place s.entry = true → s.attempts admits place b = s.attempts admits' place b' := by
    intro place b b' below best counts
    rw [attempts, attempts, best, all place below counts, all' place below counts]
  induction left generalizing b b' with
  | zero =>
    have same := h.visit ready bound (agree (Nat.le_refl 0) h.best) ended ended'
    exact Option.some.inj (found.symm.trans (same.best.trans found'))
  | succ left ih =>
    rcases lap_succ_eq_ok ended with ⟨none_left, -, rfl⟩ | ⟨b₂, visited, onward⟩
    · have settled := (h.quiet_of_isEmpty none_left).2.lap_settled ready bound (h.best ▸ found) ended'
      exact Option.some.inj (settled.symm.trans found')
    rcases lap_succ_eq_ok ended' with ⟨none_left', -, rfl⟩ | ⟨b₂', visited', onward'⟩
    · have settled := (h.symm.quiet_of_isEmpty none_left').2.lap_settled ready bound
        (h.best.symm ▸ found') ended
      exact Option.some.inj (found.symm.trans settled)
    have same := h.visit ready bound (agree (Nat.le_refl _) h.best) visited visited'
    exact ih (Nat.le_of_succ_le bound) same (fun place below => all place (Nat.le_succ_of_le below))
      (fun place below => all' place (Nat.le_succ_of_le below)) onward onward'
      (fun below => agree (Nat.le_succ_of_le below))

end Same

/-! ## Two searches -/

/-- The lap that finds the match of a search, from a board without threads.  It begins attempts wherever
one leads to a match. -/
structure Finds (s : Scan) (admits : Nat → Bool) (start : Nat) (m : Captures) (b b₁ : Board limit) :
    Prop where
  within : start ≤ s.extent
  quiet : s.Quiet (start + 1) b
  unmatched : b.best = none
  ended : s.lap admits start b = .ok b₁
  found : b₁.best = some m
  choice : s.Chooses admits start (some m)
  all : ∀ place, place ≤ s.extent → s.live place s.entry = true → admits (s.pos place) = true

theorem quiet_of_idle {low : Nat} (sound : b.Sound s.program.arena.size)
    (none_waits : ∀ t, t ∉ b.current.threads) (idle : ∀ t, t ∉ b.next.threads) : s.Quiet low b := by
  have nothing : b.current.todo 0 = [] := ThreadList.todo_eq_nil none_waits
  exact ⟨⟨.of_sound sound.current none_waits, .of_sound sound.next idle⟩,
    by rw [nothing]; rfl, ThreadList.todo_eq_nil idle⟩

theorem exists_finds {start : Nat} {bounded : Bool} {report : Report} (ready : s.Ready)
    (within : start ≤ s.extent) (sound : b.Sound s.program.arena.size)
    (none_waits : ∀ t, t ∉ b.current.threads) (idle : ∀ t, t ∉ b.next.threads)
    (unmatched : b.best = none) (ran : s.run start bounded b = .ok (report, b₁))
    (found : report.found = some m) :
    ∃ admits start', ∃ b₀ b₁ : Board limit, s.Finds admits start' m b₀ b₁ := by
  have ahead := achieves_ahead ready within sound none_waits idle unmatched
  cases runsTo_of_run ran with
  | first lap settled =>
    rw [lap] at ahead
    have found : b₁.best = some m := found
    exact ⟨fun _ => true, _, b, b₁, leftAt_le within, quiet_of_idle sound none_waits idle, unmatched, lap,
      found, found ▸ ahead.chooses, fun _ _ _ => rfl⟩
  | @second b₂ _ lap unmatched₁ unbounded again =>
    rw [lap] at ahead
    have found : b₁.best = some m := found
    have nothing : s.Chooses (fun _ => true) (s.leftAt start) none := unmatched₁ ▸ ahead.chooses
    have behind := ahead.achieves_behind ready unmatched₁ start
    rw [again] at behind
    refine ⟨_, _, b₂.drop, b₁, Nat.le_refl _, ?_, unmatched₁, again, found, found ▸ behind.chooses, ?_⟩
    · exact quiet_of_idle ⟨ThreadList.sound_clear ahead.current, ahead.next⟩ b₂.current.not_mem_clear
        ahead.idle
    · intro place inside counts
      cases before : s.dir.prefers (s.pos place) start with
      | true => rfl
      | false =>
        have low := pos_le ready inside
        rw [length_view ready] at low
        have begins := (begins_ahead_iff within).mpr ⟨low, before⟩
        rw [not_live_iff.mpr fun e => nothing _ e begins] at counts
        cases counts
  | firstOverflow | secondOverflow => cases found

theorem Finds.exists_place {start : Nat} (ready : s.Ready) (h : s.Finds admits start m b b₁) :
    ∃ place e b₂, place ≤ start ∧ m.whole = s.dir.spanOf (s.pos place) e ∧ s.Quiet (place + 1) b₂ ∧
      b₂.best = none ∧ s.lap admits place b₂ = .ok b₁ := by
  obtain ⟨⟨seed, e, ⟨place, -, le, rfl, admitted⟩, leads, whole⟩, best⟩ := h.choice
  have nowhere : ∀ earlier, place < earlier → earlier ≤ start → admits (s.pos earlier) = true →
      s.live earlier s.entry = false := by
    intro earlier lt below admitted
    refine not_live_iff.mpr fun e' leads => ?_
    have worse := best _ e' ⟨earlier, Nat.zero_le _, below, rfl, admitted⟩ leads
    have better := prefers_pos (Nat.le_trans below h.within) lt
    rw [whole, Direction.beats_spanOf_of_prefers better] at worse
    cases worse
  obtain ⟨b₂, quiet, unmatched, ended⟩ :=
    h.quiet.lap_until ready h.within le h.unmatched nowhere h.ended h.found
  exact ⟨place, e, b₂, le, whole, quiet, unmatched, ended⟩

theorem Finds.unique {start start' : Nat} (ready : s.Ready) (h : s.Finds admits start m b b₁)
    (h' : s.Finds admits' start' m' b' b₁') (whole : m.whole = m'.whole) : m = m' := by
  obtain ⟨place, e, b₂, le, at_place, quiet, unmatched, ended⟩ := h.exists_place ready
  obtain ⟨place', e', b₂', le', at_place', quiet', unmatched', ended'⟩ := h'.exists_place ready
  have bound := Nat.le_trans le h.within
  have seeds : s.pos place = s.pos place' := by
    have spans := at_place.symm.trans (whole.trans at_place')
    cases dir : s.dir with
    | forward =>
      rw [dir] at spans
      exact congrArg Span.start spans
    | backward =>
      rw [dir] at spans
      exact congrArg Span.stop spans
  cases pos_injective bound (Nat.le_trans le' h'.within) seeds
  have same := Same.of_quiet quiet quiet' (unmatched.trans unmatched'.symm)
  exact same.lap ready bound (fun _ below => h.all _ (Nat.le_trans below bound))
    (fun _ below => h'.all _ (Nat.le_trans below bound)) ended ended' h.found h'.found

end Scan

namespace Regex

variable {limits : Limits} {pattern : String} {r : Regex} {text : Text} {query query' : Query}

/-- Two searches in one direction, up to one place, that find matches over the same range record the same,
wherever they began. -/
theorem captures_eq_of_whole_eq {report report' : Report} {m m' : Captures}
    (compiled : compileWith limits pattern = .ok r) (full : text.Full)
    (dirs : query.dir = query'.dir) (extents : query.extent text = query'.extent text)
    (searched : r.answer text query = .ok report) (searched' : r.answer text query' = .ok report')
    (found : report.found = some m) (found' : report'.found = some m') (whole : m.whole = m'.whole) :
    m = m' := by
  obtain ⟨tokens, tree, -, -, -, encodes⟩ := exists_tree compiled
  obtain ⟨first, b, begins, ready, ran⟩ := exists_run encodes full searched
  obtain ⟨first', b', begins', ready', ran'⟩ := exists_run encodes full searched'
  rw [← dirs, begins] at begins'
  cases begins'
  have same : r.scanOf text query' first = r.scanOf text query first := by
    rw [scanOf, scanOf, dirs, extents]
  rw [same] at ran'
  have within' := query'.start_le text
  rw [← extents] at within'
  obtain ⟨admits, start, b₀, b₁, finds⟩ := Scan.exists_finds ready (query.start_le text) r.sound_board
    r.not_mem_current_board r.not_mem_next_board rfl ran found
  obtain ⟨admits', start', b₀', b₁', finds'⟩ := Scan.exists_finds ready within' r.sound_board
    r.not_mem_current_board r.not_mem_next_board rfl ran' found'
  exact finds.unique ready finds' whole

/-- A search that wraps around records what the search from the start of the text does. -/
theorem captures_eq_of_wrapped : ∃ text r report report' m m',
    text = .ofArray #['x', 'a', 'a', 'b'] ∧ text.Full ∧ compileWith {} "(a*)(b|ab)" = .ok r ∧
    r.answer text (.forward 0 none) = .ok report ∧ report.log = [] ∧ report.found = some m ∧
    r.answer text (.forward 4 none) = .ok report' ∧ report'.log = [.wrapped .forward 4] ∧
    report'.found = some m' ∧ m.whole = ⟨1, 4⟩ ∧ m'.whole = ⟨1, 4⟩ ∧ m = m' := by
  have ran : (compileWith {} "(a*)(b|ab)").map (fun r =>
      (r.answer (.ofArray #['x', 'a', 'a', 'b']) (.forward 0 none),
        r.answer (.ofArray #['x', 'a', 'a', 'b']) (.forward 4 none))) =
      .ok (.ok ⟨some ⟨⟨1, 4⟩,
          #v[some ⟨1, 2⟩, some ⟨2, 4⟩, none, none, none, none, none, none, none]⟩, []⟩,
        .ok ⟨some ⟨⟨1, 4⟩,
          #v[some ⟨1, 2⟩, some ⟨2, 4⟩, none, none, none, none, none, none, none]⟩,
          [.wrapped .forward 4]⟩) := by
    decide +kernel
  obtain ⟨r, compiled, ran⟩ := map_eq_ok.mp ran
  obtain ⟨ran, ran'⟩ := Prod.mk.inj ran
  have full := Text.full_ofArray #['x', 'a', 'a', 'b']
  have dirs : (Query.forward 0 none).dir = (Query.forward 4 none).dir := rfl
  have same := captures_eq_of_whole_eq compiled full dirs rfl ran ran' rfl rfl rfl
  exact ⟨_, r, _, _, _, _, rfl, full, compiled, ran, rfl, rfl, ran', rfl, rfl, rfl, rfl, same⟩

end Regex

end CursorRegex
