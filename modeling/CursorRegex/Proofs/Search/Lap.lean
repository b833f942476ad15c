import CursorRegex.Proofs.Search.Following

/-! # What a lap finds

A lap visits places with fewer and fewer characters left.  `Underway low` describes the board when the
attempts from places with `low` or more characters left have begun: all threads and matches come from
such attempts, and every match such an attempt can make is found, up to one no worse, or still under
way in a thread.  A visit lowers `low` by one (`achieves_visit`), whether it is skipped or not.

A lap may end early, when no thread is alive and no attempt is to begin; then nothing that is left out
could matter.  In the end the best match is the best one that any admitted attempt of the lap can make
(`achieves_lap`). -/
set_option autoImplicit false

namespace CursorRegex.Scan

variable {limit start left low : Nat} {s : Scan} {admits : Nat → Bool} {b : Board limit}

/-- A lap from `start` begins an attempt at `seed`, and no later than with `low` characters left. -/
def Begins (s : Scan) (admits : Nat → Bool) (start low seed : Nat) : Prop :=
  ∃ left, low ≤ left ∧ left ≤ start ∧ seed = s.pos left ∧ admits seed = true

theorem Begins.mono {seed fewer : Nat} (h : s.Begins admits start low seed) (le : fewer ≤ low) :
    s.Begins admits start fewer seed := by
  obtain ⟨left, above, below, at_left, admitted⟩ := h
  exact ⟨left, Nat.le_trans le above, below, at_left, admitted⟩

def Origin (s : Scan) (admits : Nat → Bool) (start low left : Nat) (t : Thread) : Prop :=
  s.Begins admits start low t.seed ∧
    s.program.arena.Reaches s.program.classes s.view s.dir s.entry t.seed t.inst (s.pos left)

def Made (s : Scan) (admits : Nat → Bool) (start low : Nat) (m : Captures) : Prop :=
  ∃ seed e, s.Begins admits start low seed ∧ s.Leads s.entry seed e ∧ m.whole = s.dir.spanOf seed e

theorem Made.mono {fewer : Nat} {m : Captures} (h : s.Made admits start low m) (le : fewer ≤ low) :
    s.Made admits start fewer m := by
  obtain ⟨seed, e, begins, leads, whole⟩ := h
  exact ⟨seed, e, begins.mono le, leads, whole⟩

structure Underway (s : Scan) (admits : Nat → Bool) (start low : Nat) (b : Board limit) : Prop
    extends b.Sound s.program.arena.size where
  threads : ∀ t ∈ b.current.threads, ∃ k, low = k + 1 ∧ s.Origin admits start low k t
  idle : ∀ t, t ∉ b.next.threads
  made : ∀ m ∈ b.best, s.Made admits start low m
  promised : ∀ seed e, s.Begins admits start low seed → s.Leads s.entry seed e →
    Found s.dir b.best (s.dir.spanOf seed e) ∨
      ∃ k i, low = k + 1 ∧ b.current.Covers s.dir i seed ∧ s.Leads i (s.pos k) e

/-! ## Positions -/

theorem prefers_pos {fewer more : Nat} (bound : more ≤ s.extent) (lt : fewer < more) :
    s.dir.prefers (s.pos more) (s.pos fewer) = true := by
  cases dir : s.dir <;> simp only [pos, dir, Direction.prefers, decide_eq_true_eq] <;> omega

theorem pos_injective {place place' : Nat} (within : place ≤ s.extent) (within' : place' ≤ s.extent)
    (same : s.pos place = s.pos place') : place = place' := by
  cases dir : s.dir <;> simp only [pos, dir] at same <;> omega

theorem Begins.cases {seed : Nat} (h : s.Begins admits start left seed) :
    seed = s.pos left ∧ admits (s.pos left) = true ∨ s.Begins admits start (left + 1) seed := by
  obtain ⟨place, above, below, rfl, admitted⟩ := h
  by_cases here : place = left
  · subst here
    exact Or.inl ⟨rfl, admitted⟩
  · exact Or.inr ⟨place, by omega, below, rfl, admitted⟩

/-- A match made by an attempt that began before is better than any that begins now. -/
theorem Made.found {m : Captures} (bound : start ≤ s.extent) (h : s.Made admits start (left + 1) m)
    (is : m ∈ b.best) {place e : Nat} (later : place ≤ left) :
    Found s.dir b.best (s.dir.spanOf (s.pos place) e) := by
  obtain ⟨seed, e', ⟨place', above, below, rfl, -⟩, -, whole⟩ := h
  have better := prefers_pos (Nat.le_trans below bound) (Nat.lt_of_le_of_lt later above)
  refine ⟨m, is, ?_⟩
  rw [whole]
  exact Direction.not_beats_of_beats (Direction.beats_spanOf_of_prefers better e' e)

/-! ## Places that are passed over -/

/-- Where no thread waits and no attempt begins, all that attempts begun before can make is found. -/
theorem Underway.found_of_isEmpty (h : s.Underway admits start low b)
    (none_left : b.current.isEmpty = true) {seed e : Nat} (begins : s.Begins admits start low seed)
    (leads : s.Leads s.entry seed e) : Found s.dir b.best (s.dir.spanOf seed e) := by
  rcases h.promised seed e begins leads with found | ⟨k, i, -, ⟨t, member, -⟩, -⟩
  · exact found
  · exact absurd member (ThreadList.not_mem_of_isEmpty none_left t)

/-- A board without threads is as far as any place, if the attempts in between would find nothing new. -/
theorem Underway.of_isEmpty {fewer : Nat} (h : s.Underway admits start low b)
    (none_left : b.current.isEmpty = true) (le : fewer ≤ low)
    (nothing : ∀ seed e, s.Begins admits start fewer seed → s.Leads s.entry seed e →
      Found s.dir b.best (s.dir.spanOf seed e)) : s.Underway admits start fewer b := by
  refine ⟨h.toSound, fun t member => ?_, h.idle, fun m is => (h.made m is).mono le, ?_⟩
  · exact absurd member (ThreadList.not_mem_of_isEmpty none_left t)
  · exact fun seed e begins leads => Or.inl (nothing seed e begins leads)

theorem exists_stop_of_skips (ready : s.Ready) (skips : s.skips (s.upcoming left) b = true) :
    ∃ c next, s.program.arena.get? s.entry = some ⟨.atom (.char c), next⟩ ∧
      (s.cursor left).verdict s.program.classes (.char c) = .ok .stop := by
  simp only [Scan.skips, Bool.and_eq_true, bne_iff_ne, ne_eq] at skips
  obtain ⟨⟨-, known⟩, other⟩ := skips
  obtain ⟨c, is⟩ := Option.isSome_iff_exists.mp known
  obtain ⟨next, here⟩ := ready.first c is
  have ne : (s.upcoming left == some c) = false := by simpa [is] using other
  refine ⟨c, next, here, ?_⟩
  simp only [Cursor.verdict, cursor, ne]
  rfl

/-- No match begins with another character than the first one of the program. -/
theorem not_leads_of_skips (ready : s.Ready) (bound : left ≤ s.extent)
    (skips : s.skips (s.upcoming left) b = true) (e : Nat) : ¬ s.Leads s.entry (s.pos left) e := by
  rintro ⟨trace, r, next, path, accepts⟩
  obtain ⟨c, next', here, stops⟩ := exists_stop_of_skips ready skips
  obtain ⟨j, pos', rest, -, goes, -⟩ := path.step here (by simp) accepts
  obtain ⟨-, ⟨passed, -⟩ | ⟨taken, -⟩⟩ := goes_atom ready bound here stops goes
  · cases passed
  · cases taken

theorem Underway.skip (ready : s.Ready) (bound : left ≤ s.extent)
    (h : s.Underway admits start (left + 1) b) (skips : s.skips (s.upcoming left) b = true) :
    s.Underway admits start left b := by
  have none_left : b.current.isEmpty = true := by
    simp only [Scan.skips, Bool.and_eq_true] at skips
    exact skips.1.1
  refine h.of_isEmpty none_left (Nat.le_succ left) fun seed e begins leads => ?_
  rcases begins.cases with ⟨rfl, -⟩ | before
  · exact absurd leads (not_leads_of_skips ready bound skips e)
  · exact h.found_of_isEmpty none_left before leads

/-! ## Beginning an attempt -/

structure Seeded (s : Scan) (admits : Nat → Bool) (start left : Nat) (b : Board limit) : Prop
    extends b.Holds s.program.arena.size (s.Origin admits start left left) (fun _ => False)
      (s.Made admits start left) where
  promised : ∀ seed e, s.Begins admits start left seed → s.Leads s.entry seed e →
    Found s.dir b.best (s.dir.spanOf seed e) ∨
      ∃ i, b.current.Covers s.dir i seed ∧ s.Leads i (s.pos left) e

theorem exists_best_of_not_attempts (none_begins : ¬ s.attempts admits left b = true)
    (admitted : admits (s.pos left) = true) : ∃ m, m ∈ b.best := by
  cases best : b.best with
  | none => simp [Scan.attempts, best, admitted] at none_begins
  | some m => exact ⟨m, rfl⟩

theorem Underway.achieves_seed (ready : s.Ready) (within : start ≤ s.extent) (bound : left ≤ start)
    (h : s.Underway admits start (left + 1) b) :
    Achieves (Board.Sound s.program.arena.size) (s.Seeded admits start left)
      (s.seed admits left b) := by
  have threads : ∀ t ∈ b.current.threads, s.Origin admits start left left t := by
    intro t member
    obtain ⟨k, at_k, begins, reaches⟩ := h.threads t member
    cases at_k
    exact ⟨begins.mono (Nat.le_succ left), reaches⟩
  have made : ∀ m ∈ b.best, s.Made admits start left m :=
    fun m is => (h.made m is).mono (Nat.le_succ left)
  have idle : ∀ t ∈ b.next.threads, False := h.idle
  have before : ∀ seed e, s.Begins admits start (left + 1) seed → s.Leads s.entry seed e →
      Found s.dir b.best (s.dir.spanOf seed e) ∨
        ∃ i, b.current.Covers s.dir i seed ∧ s.Leads i (s.pos left) e := by
    intro seed e begins leads
    rcases h.promised seed e begins leads with found | ⟨k, i, at_k, covers, onward⟩
    · exact Or.inl found
    · cases at_k
      exact Or.inr ⟨i, covers, onward⟩
  unfold Scan.seed
  by_cases attempts : s.attempts admits left b = true
  · rw [if_pos attempts]
    have admitted : admits (s.pos left) = true := by
      simp only [Scan.attempts, Bool.and_eq_true] at attempts
      exact attempts.2
    refine (Board.achieves_addCurrent (t := ⟨s.entry, s.pos left, .none⟩) h.toSound ready.entry s.dir
      0).mono ?_
    rintro _ ⟨l, rfl, sound, added⟩
    have new : s.Origin admits start left left ⟨s.entry, s.pos left, .none⟩ :=
      ⟨⟨left, Nat.le_refl _, bound, rfl, admitted⟩, .refl _ _⟩
    refine ⟨⟨⟨sound, h.next⟩, added.forall_mem new threads, idle, made⟩, fun seed e begins leads => ?_⟩
    rcases begins.cases with ⟨rfl, -⟩ | earlier
    · exact Or.inr ⟨s.entry, added.covers_new, leads⟩
    · rcases before seed e earlier leads with found | ⟨i, covers, onward⟩
      · exact Or.inl found
      · exact Or.inr ⟨i, added.covers covers, onward⟩
  · rw [if_neg attempts]
    refine ⟨⟨h.toSound, threads, idle, made⟩, fun seed e begins leads => ?_⟩
    rcases begins.cases with ⟨rfl, admitted⟩ | earlier
    · obtain ⟨m, is⟩ := exists_best_of_not_attempts attempts admitted
      exact Or.inl ((h.made m is).found within is (Nat.le_refl left))
    · exact before seed e earlier leads

/-! ## A visit -/

theorem kept_origin (ready : s.Ready) (bound : left ≤ s.extent) :
    Kept s.program (s.cursor left) (s.Origin admits start left left)
      (fun t => ∃ k, left = k + 1 ∧ s.Origin admits start left k t) (s.Made admits start left) := by
  refine ⟨fun t t' origin moves => ?_, fun t t' origin takes => ?_, fun t m origin wins => ?_⟩
  · obtain ⟨begins, reaches⟩ := origin
    obtain ⟨goes, seed⟩ := Moves.goes ready bound moves
    exact ⟨seed ▸ begins, seed ▸ reaches.trans (Arena.Goes.reaches goes)⟩
  · obtain ⟨begins, reaches⟩ := origin
    obtain ⟨⟨k, before, goes⟩, seed⟩ := Takes.goes ready bound takes
    exact ⟨k, before, seed ▸ begins, seed ▸ reaches.trans (Arena.Goes.reaches goes)⟩
  · obtain ⟨begins, trace, path⟩ := origin
    cases wins with
    | accept here => exact ⟨t.seed, s.pos left, begins, ⟨trace, t.inst, _, path, here⟩, rfl⟩

theorem Underway.achieves_visit (ready : s.Ready) (within : start ≤ s.extent) (bound : left ≤ start)
    (h : s.Underway admits start (left + 1) b) :
    Achieves (Board.Sound s.program.arena.size) (s.Underway admits start left)
      (s.visit admits left b) := by
  have bound' := Nat.le_trans bound within
  unfold visit
  refine .bind_mapError (ahead_eq ready bound') ?_
  by_cases skips : s.skips (s.upcoming left) b = true
  · rw [if_pos skips]
    exact h.skip ready bound' skips
  · rw [if_neg skips]
    refine (h.achieves_seed ready within bound).bind fun b₁ seeded => ?_
    have holds : b₁.Holds s.program.arena.size (s.Origin admits start left left)
        (fun t => ∃ k, left = k + 1 ∧ s.Origin admits start left k t) (s.Made admits start left) :=
      { seeded.toHolds with ahead := fun t member => (seeded.ahead t member).elim }
    refine (Board.achieves_runFrom ready.closed (judges ready bound') (kept_origin ready bound') holds
      (Nat.zero_le _) (fun k t low => absurd low (Nat.not_lt_zero k))).bind ?_
    rintro b₂ ⟨holds₂, grows, all⟩
    refine ⟨⟨holds₂.next, ThreadList.sound_clear holds₂.current⟩, holds₂.ahead,
      b₂.current.not_mem_clear, holds₂.won, fun seed e begins leads => ?_⟩
    rcases seeded.promised seed e begins leads with found | ⟨i, covers, onward⟩
    · exact Or.inl (grows.found _ found)
    · exact leads_of_ran ready bound' all (grows.current _ _ covers) onward

/-! ## The whole lap -/

theorem Underway.achieves_lap (ready : s.Ready) (within : start ≤ s.extent) (bound : left ≤ start)
    (first : ∀ fewer more, fewer ≤ more → more ≤ start → admits (s.pos fewer) = true →
      admits (s.pos more) = true)
    (h : s.Underway admits start (left + 1) b) :
    Achieves (Board.Sound s.program.arena.size) (s.Underway admits start 0)
      (s.lap admits left b) := by
  refine achieves_lap_of (fun place b below h => ?_) (fun last b before h none_left none_begins => ?_) h
  · exact h.achieves_visit ready within (Nat.le_trans below bound)
  · refine h.of_isEmpty none_left (Nat.zero_le _) fun seed e begins leads => ?_
    obtain ⟨place, -, below, rfl, admitted⟩ := begins
    by_cases earlier : last + 2 ≤ place
    · exact h.found_of_isEmpty none_left ⟨place, earlier, below, rfl, admitted⟩ leads
    · have admitted' := first place (last + 1) (by omega) (by omega) admitted
      obtain ⟨m, is⟩ := exists_best_of_not_attempts (none_begins ▸ Bool.false_ne_true) admitted'
      exact (h.made m is).found within is (by omega)

end CursorRegex.Scan
