import CursorRegex.Proofs.Search.Heredity
import CursorRegex.Proofs.Search.Queries
import CursorRegex.Proofs.Search.Roster

/-! # Places that are passed over

Where no thread waits, a search passes over a place whose character is not the one that every match begins
with.  Had it begun an attempt there, the first instruction would have stopped it, and both lists would be
cleared again: the board after the visit is the board before (`Scan.visit_unskipped`).  So laps, runs and
searches that pass over nothing end as those that do (`Regex.answer_eq_unskipped`), and in particular they
find, log and overflow alike, provided that there is room for the one thread of an attempt. -/
set_option autoImplicit false

namespace CursorRegex

theorem ThreadList.eq_empty {limit size : Nat} {l : ThreadList limit} (sound : l.Sound size)
    (none_waits : ∀ t, t ∉ l.threads) : l = .empty size := by
  have cleared := clear_eq sound
  obtain ⟨threads, index, size_le⟩ := l
  have nothing : threads = #[] := Array.eq_empty_iff_forall_not_mem.mpr none_waits
  subst nothing
  exact cleared

namespace Board

variable {limit size : Nat} {b : Board limit}

structure Vacant (size : Nat) (b : Board limit) : Prop extends b.Sound size where
  none_waits : ∀ t, t ∉ b.current.threads
  idle : ∀ t, t ∉ b.next.threads

namespace Vacant

theorem eq (h : b.Vacant size) : b = ⟨.empty size, .empty size, b.best⟩ := by
  obtain ⟨current, next, best⟩ := b
  have current_eq : current = .empty size := ThreadList.eq_empty h.current h.none_waits
  have next_eq : next = .empty size := ThreadList.eq_empty h.next h.idle
  rw [current_eq, next_eq]

theorem exact (h : b.Vacant size) : b.Exact size 0 :=
  ⟨.of_sound h.current h.none_waits, .of_sound h.next h.idle⟩

theorem roster_eq (h : b.Vacant size) : b.roster 0 = ⟨[], [], [], b.best⟩ := by
  have waits : b.current.todo 0 = [] := ThreadList.todo_eq_nil h.none_waits
  have ahead : b.next.todo 0 = [] := ThreadList.todo_eq_nil h.idle
  rw [roster, waits, ahead]
  rfl

/-- Once the only thread has run that was there, the board is as it was before. -/
theorem advance_eq {b₁ : Board limit} {ran : Nat} (h : b.Vacant size) (exact : b₁.Exact size ran)
    (idle : b₁.next.todo 0 = []) (best : b₁.best = b.best) : b₁.advance = b := by
  have none_ahead : ∀ t, t ∉ b₁.next.threads := by
    intro t member
    have waits : t ∈ b₁.next.todo 0 := Array.mem_toList_iff.mpr member
    rw [idle] at waits
    cases waits
  have vacant : b₁.advance.Vacant size :=
    ⟨⟨exact.next.sound, ThreadList.sound_clear exact.current.sound⟩, none_ahead, b₁.current.not_mem_clear⟩
  rw [vacant.eq, h.eq]
  exact congrArg _ best

end Vacant

end Board

namespace Scan

variable {limit start left : Nat} {s : Scan} {admits : Nat → Bool} {b b' : Board limit}
  {bounded : Bool}

def unskipped (s : Scan) : Scan := { s with first := none }

theorem ready_unskipped (ready : s.Ready) : s.unskipped.Ready := { ready with first := nofun }

theorem skips_unskipped (s : Scan) (ahead : Option Char) (b : Board limit) :
    s.unskipped.skips ahead b = false := by
  simp [skips, unskipped]

/-! ## One attempt -/

theorem exists_seed (ready : s.Ready) (room : 0 < limit) (vacant : b.Vacant s.program.arena.size)
    (attempts : s.attempts admits left b = true) :
    ∃ b₁, s.seed admits left b = .ok b₁ ∧ b₁.Exact s.program.arena.size 0 ∧
      b₁.roster 0 = ⟨[], [⟨s.entry, s.pos left, .none⟩], [], b.best⟩ := by
  let t : Thread := ⟨s.entry, s.pos left, .none⟩
  have added : (b.roster 0).perform s.dir (.fork t t) = ⟨[], [t], [], b.best⟩ := by
    rw [vacant.roster_eq]
    rfl
  have fits : ((b.roster 0).perform s.dir (.fork t t)).Fits limit := by
    rw [added]
    exact ⟨room, Nat.zero_le limit⟩
  have within : (Act.fork t t).Within s.program.arena.size := ⟨ready.entry, ready.entry⟩
  have begins := Board.achieves_perform vacant.exact within fits
  unfold seed
  rw [if_pos attempts, Board.addCurrent_eq]
  generalize (Act.fork t t).perform s.dir 0 b = result at begins
  match result, begins with
  | .ok (o, b₁), ⟨_, exact, roster⟩ => exact ⟨b₁, rfl, exact, roster.trans added⟩

theorem runFrom_of_stop {p : Program} {c : Cursor} {t : Thread} {x : Atom} {next : Option Nat}
    (exact : b.Exact p.arena.size 0) (only : b.current.todo 0 = [t])
    (here : p.arena.get? t.inst = some ⟨.atom x, next⟩) (stops : c.verdict p.classes x = .ok .stop) :
    b.runFrom p c 0 = .ok b ∧ b.Exact p.arena.size 1 := by
  obtain ⟨exact₁, -⟩ := exact.run_first only
  have none_left : b.current.todo 1 = [] := (exact.current.run_first only).2.2
  have within : t.inst < p.arena.size := (exact.first_within only).1
  have driven : b.drive p c 1 p.arena.size t = .ok b := by
    obtain ⟨fuel, size⟩ := Nat.exists_eq_add_one.mpr (Nat.zero_lt_of_lt within)
    rw [size, Board.drive, (Thread.Does.stop here stops).hop_eq]
    rfl
  refine ⟨?_, exact₁⟩
  rw [Board.runFrom_of_cons only, driven]
  exact Board.runFrom_of_nil none_left

/-- At a place that is passed over, a visit would leave the board as it is. -/
theorem visit_of_skips (admits : Nat → Bool) (ready : s.Ready) (room : 0 < limit)
    (vacant : b.Vacant s.program.arena.size) (skips : s.skips (s.upcoming left) b = true) :
    (s.seed admits left b >>= fun b => b.runFrom s.program (s.cursor left) 0 >>= fun b =>
      .ok b.advance) = .ok b := by
  obtain ⟨c, next, here, stops⟩ := exists_stop_of_skips ready skips
  by_cases attempts : s.attempts admits left b = true
  · obtain ⟨b₁, begins, exact, roster⟩ := exists_seed ready room vacant attempts
    obtain ⟨ran, exact₁⟩ := runFrom_of_stop exact (congrArg Roster.todo roster) here stops
    have same := vacant.advance_eq exact₁ (congrArg Roster.next roster) (congrArg Roster.best roster)
    refine bind_eq_ok.mpr ⟨b₁, begins, bind_eq_ok.mpr ⟨b₁, ran, ?_⟩⟩
    rw [same]
  · have begins : s.seed admits left b = .ok b := if_neg attempts
    have nothing : b.current.todo 0 = [] := congrArg Roster.todo vacant.roster_eq
    have idle : b.next.todo 0 = [] := congrArg Roster.next vacant.roster_eq
    refine bind_eq_ok.mpr ⟨b, begins, bind_eq_ok.mpr ⟨b, Board.runFrom_of_nil nothing, ?_⟩⟩
    rw [vacant.advance_eq vacant.exact idle rfl]

/-! ## Whole searches -/

/-- Between visits both lists fit the program, and no thread waits for the place after the next. -/
def Tidy (s : Scan) (low : Nat) (b : Board limit) : Prop :=
  s.Bears (fun _ _ => True) (fun _ => True) low b

theorem inherits_true (ready : s.Ready) : s.Inherits (fun _ _ => True) (fun _ => True) := by
  refine ⟨fun _ _ => trivial, fun left bound => ⟨fun _ _ _ _ => trivial, ?_, fun _ _ _ _ => trivial⟩⟩
  intro t t' _ takes
  obtain ⟨⟨k, before, -⟩, -⟩ := Takes.goes ready bound takes
  exact ⟨k, before, trivial⟩

theorem visit_unskipped (ready : s.Ready) (room : 0 < limit) (bound : left ≤ s.extent)
    (tidy : s.Tidy (left + 1) b) : s.unskipped.visit admits left b = s.visit admits left b := by
  rw [visit_eq ready bound, visit_eq (ready_unskipped ready) bound, skips_unskipped]
  by_cases skips : s.skips (s.upcoming left) b = true
  · have none_left : b.current.isEmpty = true := by
      simp only [Scan.skips, Bool.and_eq_true] at skips
      exact skips.1.1
    have vacant : b.Vacant s.program.arena.size :=
      ⟨tidy.toSound, ThreadList.not_mem_of_isEmpty none_left, fun t member => tidy.ahead t member⟩
    have same := visit_of_skips admits ready room vacant skips
    rw [if_pos skips]
    exact same
  · rw [if_neg skips]
    rfl

theorem lap_unskipped (ready : s.Ready) (room : 0 < limit) (bound : left ≤ s.extent)
    (tidy : s.Tidy (left + 1) b) : s.unskipped.lap admits left b = s.lap admits left b := by
  induction left generalizing b with
  | zero => exact visit_unskipped ready room bound tidy
  | succ left ih =>
    have visited : Achieves _ (s.Tidy (left + 1)) (s.visit admits (left + 1) b) :=
      (inherits_true ready).achieves_visit ready bound tidy
    rw [lap_succ, lap_succ, visit_unskipped ready room bound tidy]
    refine if_congr Iff.rfl rfl ?_
    generalize s.visit admits (left + 1) b = result at visited
    match result, visited with
    | .ok b₁, tidy₁ => exact ih (Nat.le_of_succ_le bound) tidy₁
    | .error (.overflow b₁), _ => rfl

theorem run_unskipped (ready : s.Ready) (room : 0 < limit) (within : start ≤ s.extent)
    (vacant : b.Vacant s.program.arena.size) (unmatched : b.best = none) (bounded : Bool) :
    s.unskipped.run start bounded b = s.run start bounded b := by
  have tidy : s.Tidy (s.leftAt start + 1) b :=
    bears_start vacant.toSound vacant.none_waits vacant.idle unmatched _
  have first : Achieves _ (s.Tidy 0) (s.lap (fun _ => true) (s.leftAt start) b) :=
    (inherits_true ready).achieves_lap ready (leftAt_le within) tidy
  unfold run
  have same : s.unskipped.lap (fun _ => true) (s.unskipped.leftAt start) b =
      s.lap (fun _ => true) (s.leftAt start) b := lap_unskipped ready room (leftAt_le within) tidy
  rw [same]
  generalize s.lap (fun _ => true) (s.leftAt start) b = result at first
  match result, first with
  | .ok b₁, tidy₁ =>
    have second : s.unskipped.lap (s.dir.prefers · start) s.extent b₁.drop =
        s.lap (s.dir.prefers · start) s.extent b₁.drop :=
      lap_unskipped ready room (Nat.le_refl _) tidy₁.drop
    dsimp only
    refine if_congr Iff.rfl rfl ?_
    exact congrArg _ second
  | .error (.overflow b₁), _ => rfl

end Scan

section

variable {r : Regex} {m : Matcher r} {tree : Option Tree} {text : Text}

/-- As `Matcher.answer`, but no place is passed over. -/
def Matcher.answerUnskipped (text : Text) (query : Query) :
    Matcher r → Except Fault (Report × Matcher r)
  | ⟨current, next⟩ => do
    let (report, board) ← (r.scanOf text query none).run (query.start text) query.bounded
      ⟨current.clear, next.clear, none⟩
    return (report, ⟨board.current, board.next⟩)

theorem Matcher.Sound.answer_unskipped (sound : m.Sound) (realizes : r.Realizes tree)
    (full : text.Full) (room : 0 < r.limits.threads) (query : Query) :
    m.answer text query = m.answerUnskipped text query := by
  obtain ⟨current, next⟩ := m
  obtain ⟨o, encodes, -⟩ := realizes
  obtain ⟨first, begins, isFirst⟩ := Arena.exists_firstChar (encodes.entry_lt query.dir)
  have ready : (r.scanOf text query first).Ready :=
    Regex.ready_scan encodes full (query.extent_le text) (query.extent_of_backward text) isFirst
  have vacant : (Board.mk current.clear next.clear none).Vacant r.program.arena.size :=
    ⟨⟨ThreadList.sound_clear sound.current, ThreadList.sound_clear sound.next⟩,
      current.not_mem_clear, next.not_mem_clear⟩
  have run := Scan.run_unskipped ready room (query.start_le text) vacant rfl query.bounded
  have searched : (Matcher.mk current next : Matcher r).answer text query =
      ((r.scanOf text query first).run (query.start text) query.bounded
        ⟨current.clear, next.clear, none⟩ >>= fun (report, board) =>
          .ok (report, ⟨board.current, board.next⟩)) := by
    rw [Matcher.answer_eq, Matcher.search, begins]
    rfl
  rw [searched, ← run]
  rfl

end

namespace Regex

variable {r : Regex} {limits : Limits} {pattern : String} {text : Text}

def answerUnskipped (r : Regex) (text : Text) (query : Query) : Except Fault Report :=
  ((Matcher.new r).answerUnskipped text query).map (·.1)

/-- Whether a search passes over places makes no difference to what it finds and logs, nor to the lists
that it leaves behind. -/
theorem answer_eq_unskipped (compiled : compileWith limits pattern = .ok r) (full : text.Full)
    (room : 1 ≤ limits.threads) (query : Query) :
    (∃ report, r.answer text query = .ok report ∧ r.answerUnskipped text query = .ok report) ∧
      ∀ m : Matcher r, m.Sound → m.answer text query = m.answerUnskipped text query := by
  obtain ⟨classes, tree, -, -, realizes⟩ := compileWith_eq_ok compiled
  obtain ⟨report, answered⟩ := realizes.exists_report full query
  have room' : 0 < r.limits.threads := by
    obtain ⟨program, built, rfl⟩ := map_eq_ok.mp compiled
    exact room
  have same : ∀ m : Matcher r, m.Sound → m.answer text query = m.answerUnskipped text query :=
    fun m sound => sound.answer_unskipped realizes full room' query
  refine ⟨⟨report, answered, ?_⟩, same⟩
  rw [answerUnskipped, ← same _ Matcher.sound_new]
  exact answered

/-- Around the end of the text, with room for one thread: the search from behind the only `b` passes over
all places but that one, and finds it on the second lap. -/
theorem answer_eq_unskipped_wrapped : ∃ r report, compileWith { threads := 1 } "b" = .ok r ∧
    (Text.ofArray #['a', 'b', 'a']).Full ∧
    r.program.arena.firstChar (r.program.entry .forward) = .ok (some 'b') ∧
    r.answer (.ofArray #['a', 'b', 'a']) (.forward 2 none) = .ok report ∧
    r.answerUnskipped (.ofArray #['a', 'b', 'a']) (.forward 2 none) = .ok report ∧
    report.log = [.wrapped .forward 3] ∧ report.found.map (·.whole) = some ⟨1, 2⟩ := by
  have ran : (compileWith { threads := 1 } "b").map (fun r =>
      (r.program.arena.firstChar (r.program.entry .forward),
        (r.answer (.ofArray #['a', 'b', 'a']) (.forward 2 none)).map fun report =>
          (report.log, report.found.map (·.whole)))) =
      .ok (.ok (some 'b'), .ok ([.wrapped .forward 3], some ⟨1, 2⟩)) := by
    decide +kernel
  obtain ⟨r, compiled, ran⟩ := map_eq_ok.mp ran
  have full := Text.full_ofArray #['a', 'b', 'a']
  obtain ⟨⟨report, answered, unskipped⟩, -⟩ :=
    answer_eq_unskipped compiled full (Nat.le_refl 1) (.forward 2 none)
  have told := congrArg Prod.snd ran
  rw [answered] at told
  have both := Except.ok.inj told
  exact ⟨r, report, compiled, full, congrArg Prod.fst ran, answered, unskipped, congrArg Prod.fst both,
    congrArg Prod.snd both⟩

end Regex

end CursorRegex
