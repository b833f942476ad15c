import CursorRegex.Proofs.Search.Ranges

/-! # The match a search chooses

A search has one lap or two.  `Answers` says what it tells: the choice of the first lap, or that of the
second after it logged that it wrapped around, unless a list of threads was full.  A lap chooses the
best match among those that its attempts can make (`Chooses`), and in terms of ranges this is the one
that begins or ends foremost in the direction of the search (`Chooses.foremost`). -/
set_option autoImplicit false

namespace CursorRegex

/-! ## The foremost of some ranges -/

/-- The range that starts first, and of those the longest, if there is any. -/
def LeftmostLongest (range : Nat → Nat → Prop) : Option Span → Prop
  | none => ∀ i j, ¬ range i j
  | some s => range s.start s.stop ∧ ∀ i j, range i j → s.start < i ∨ s.start = i ∧ j ≤ s.stop

/-- The range that ends last, and of those the longest, if there is any. -/
def RightmostLongest (range : Nat → Nat → Prop) : Option Span → Prop
  | none => ∀ i j, ¬ range i j
  | some s => range s.start s.stop ∧ ∀ i j, range i j → j < s.stop ∨ s.stop = j ∧ s.start ≤ i

def Direction.Foremost (dir : Direction) (range : Nat → Nat → Prop) : Option Span → Prop :=
  match dir with
  | .forward => LeftmostLongest range
  | .backward => RightmostLongest range

namespace Direction.Foremost

variable {dir : Direction} {range range' : Nat → Nat → Prop} {o o' : Option Span}

theorem of_not_beats {s : Span} (holds : range s.start s.stop)
    (best : ∀ i j, range i j → dir.beats ⟨i, j⟩ s = false) : dir.Foremost range (some s) := by
  cases dir with
  | forward =>
    refine ⟨holds, fun i j other => ?_⟩
    have le := best i j other
    simp [beats] at le
    omega
  | backward =>
    refine ⟨holds, fun i j other => ?_⟩
    have le := best i j other
    simp [beats] at le
    omega

theorem nothing (h : dir.Foremost range none) (i j : Nat) : ¬ range i j := by
  cases dir <;> exact h i j

theorem holds {s : Span} (h : dir.Foremost range (some s)) : range s.start s.stop := by
  cases dir <;> exact h.1

theorem unique (h : dir.Foremost range o) (h' : dir.Foremost range o') : o = o' := by
  match o, o' with
  | none, none => rfl
  | none, some s => cases dir <;> exact absurd h'.1 (h _ _)
  | some s, none => cases dir <;> exact absurd h.1 (h' _ _)
  | some ⟨i, j⟩, some ⟨i', j'⟩ =>
    cases dir with
    | forward | backward =>
      have le := h.2 i' j' h'.1
      have le' := h'.2 i j h.1
      dsimp only at le le'
      have start : i = i' := by omega
      have stop : j = j' := by omega
      rw [start, stop]

theorem congr (same : ∀ i j, range i j ↔ range' i j) (h : dir.Foremost range o) :
    dir.Foremost range' o := by
  have equal : range = range' := by
    funext i j
    exact propext (same i j)
  exact equal ▸ h

end Direction.Foremost

namespace Scan

variable {limit start : Nat} {s : Scan} {admits : Nat → Bool} {b : Board limit} {bounded : Bool}

/-! ## The choice of a lap -/

/-- The best match that the attempts of a lap can make, if they can make any. -/
def Chooses (s : Scan) (admits : Nat → Bool) (start : Nat) : Option Captures → Prop
  | none => ∀ seed e, s.Begins admits start 0 seed → ¬ s.Leads s.entry seed e
  | some m => s.Made admits start 0 m ∧ ∀ seed e, s.Begins admits start 0 seed →
      s.Leads s.entry seed e → s.dir.beats (s.dir.spanOf seed e) m.whole = false

theorem Underway.chooses (h : s.Underway admits start 0 b) : s.Chooses admits start b.best := by
  have found : ∀ seed e, s.Begins admits start 0 seed → s.Leads s.entry seed e →
      Found s.dir b.best (s.dir.spanOf seed e) := by
    intro seed e begins leads
    rcases h.promised seed e begins leads with found | ⟨k, -, before, -⟩
    · exact found
    · cases before
  cases best : b.best with
  | none =>
    intro seed e begins leads
    obtain ⟨m, is, -⟩ := found seed e begins leads
    rw [best] at is
    cases is
  | some m =>
    refine ⟨h.made m best, fun seed e begins leads => ?_⟩
    obtain ⟨m', is, le⟩ := found seed e begins leads
    rw [best] at is
    cases is
    exact le

/-- The choice in terms of ranges. -/
theorem Chooses.foremost {range : Nat → Nat → Prop} {best : Option Captures}
    (same : ∀ seed e, s.Begins admits start 0 seed ∧ s.Leads s.entry seed e ↔
      s.dir.Between range seed e)
    (h : s.Chooses admits start best) : s.dir.Foremost range (best.map (·.whole)) := by
  have range_iff : ∀ i j, range i j ↔ ∃ seed e, s.Begins admits start 0 seed ∧
      s.Leads s.entry seed e ∧ s.dir.spanOf seed e = ⟨i, j⟩ := by
    intro i j
    cases dir : s.dir with
    | forward =>
      rw [dir] at same
      constructor
      · intro holds
        obtain ⟨begins, leads⟩ := (same i j).mpr holds
        exact ⟨i, j, begins, leads, rfl⟩
      · rintro ⟨seed, e, begins, leads, span⟩
        cases span
        exact (same i j).mp ⟨begins, leads⟩
    | backward =>
      rw [dir] at same
      constructor
      · intro holds
        obtain ⟨begins, leads⟩ := (same j i).mpr holds
        exact ⟨j, i, begins, leads, rfl⟩
      · rintro ⟨seed, e, begins, leads, span⟩
        cases span
        exact (same j i).mp ⟨begins, leads⟩
  cases best with
  | none =>
    have nothing : ∀ i j, ¬ range i j := by
      intro i j holds
      obtain ⟨seed, e, begins, leads, -⟩ := (range_iff i j).mp holds
      exact h seed e begins leads
    cases dir : s.dir <;> exact nothing
  | some m =>
    obtain ⟨⟨seed, e, begins, leads, whole⟩, best⟩ := h
    refine Direction.Foremost.of_not_beats ?_ fun i j other => ?_
    · exact (range_iff _ _).mpr ⟨seed, e, begins, leads, whole.symm⟩
    · obtain ⟨seed', e', begins', leads', span⟩ := (range_iff i j).mp other
      exact span ▸ best seed' e' begins' leads'

/-! ## One lap or two -/

/-- How the laps of a search make up its answer. -/
inductive RunsTo (s : Scan) (start : Nat) (bounded : Bool) (b : Board limit) :
    Report × Board limit → Prop where
  | first {b₁ : Board limit} (lap : s.lap (fun _ => true) (s.leftAt start) b = .ok b₁)
      (settled : b₁.best.isSome = true ∨ bounded = true) : RunsTo s start bounded b (⟨b₁.best, []⟩, b₁)
  | second {b₁ b₂ : Board limit} (lap : s.lap (fun _ => true) (s.leftAt start) b = .ok b₁)
      (unmatched : b₁.best = none) (unbounded : bounded = false)
      (again : s.lap (s.dir.prefers · start) s.extent b₁.drop = .ok b₂) :
      RunsTo s start bounded b (⟨b₂.best, [.wrapped s.dir s.extent]⟩, b₂)
  | firstOverflow {b₁ : Board limit}
      (lap : s.lap (fun _ => true) (s.leftAt start) b = .error (.overflow b₁)) :
      RunsTo s start bounded b (⟨none, [.listOverflow]⟩, b₁)
  | secondOverflow {b₁ b₂ : Board limit} (lap : s.lap (fun _ => true) (s.leftAt start) b = .ok b₁)
      (unmatched : b₁.best = none) (unbounded : bounded = false)
      (again : s.lap (s.dir.prefers · start) s.extent b₁.drop = .error (.overflow b₂)) :
      RunsTo s start bounded b (⟨none, [.wrapped s.dir s.extent, .listOverflow]⟩, b₂)

theorem runsTo_of_run {result : Report × Board limit} (h : s.run start bounded b = .ok result) :
    s.RunsTo start bounded b result := by
  unfold run at h
  cases lap : s.lap (fun _ => true) (s.leftAt start) b with
  | error halt =>
    rw [lap] at h
    cases halt with
    | overflow left =>
      cases h
      exact .firstOverflow lap
    | fault cause => cases h
  | ok b₁ =>
    rw [lap] at h
    by_cases settled : (b₁.best.isSome || bounded) = true
    · simp only [settled, if_true] at h
      cases h
      exact .first lap (by rwa [Bool.or_eq_true] at settled)
    · simp only [settled, if_false, Bool.false_eq_true] at h
      simp only [Bool.or_eq_true, not_or, Bool.not_eq_true, Option.isSome_eq_false_iff,
        Option.isNone_iff_eq_none] at settled
      obtain ⟨unmatched, unbounded⟩ := settled
      cases again : s.lap (s.dir.prefers · start) s.extent b₁.drop with
      | error halt =>
        rw [again] at h
        cases halt with
        | overflow left =>
          cases h
          exact .secondOverflow lap unmatched unbounded again
        | fault cause => cases h
      | ok b₂ =>
        rw [again] at h
        cases h
        exact .second lap unmatched unbounded again

inductive Answers (s : Scan) (start : Nat) (bounded : Bool) : Report → Prop where
  | first {best : Option Captures} (settled : best.isSome = true ∨ bounded = true)
      (choice : s.Chooses (fun _ => true) (s.leftAt start) best) : Answers s start bounded ⟨best, []⟩
  | second {best : Option Captures} (unbounded : bounded = false)
      (nothing : s.Chooses (fun _ => true) (s.leftAt start) none)
      (choice : s.Chooses (s.dir.prefers · start) s.extent best) :
      Answers s start bounded ⟨best, [.wrapped s.dir s.extent]⟩
  | firstOverflow : Answers s start bounded ⟨none, [.listOverflow]⟩
  | secondOverflow (unbounded : bounded = false)
      (nothing : s.Chooses (fun _ => true) (s.leftAt start) none) :
      Answers s start bounded ⟨none, [.wrapped s.dir s.extent, .listOverflow]⟩

theorem underway_start (sound : b.Sound s.program.arena.size) (none_waits : ∀ t, t ∉ b.current.threads)
    (idle : ∀ t, t ∉ b.next.threads) (unmatched : b.best = none) (admits : Nat → Bool) (start : Nat) :
    s.Underway admits start (start + 1) b := by
  refine ⟨sound, fun t member => absurd member (none_waits t), idle, fun m is => ?_, ?_⟩
  · rw [unmatched] at is
    cases is
  · rintro seed e ⟨left, above, below, -⟩
    omega

theorem leftAt_le {pos : Nat} (bound : pos ≤ s.extent) : s.leftAt pos ≤ s.extent := by
  cases dir : s.dir <;> simp only [leftAt, dir] <;> omega

theorem achieves_ahead (ready : s.Ready) (within : start ≤ s.extent)
    (sound : b.Sound s.program.arena.size) (none_waits : ∀ t, t ∉ b.current.threads)
    (idle : ∀ t, t ∉ b.next.threads) (unmatched : b.best = none) :
    Achieves (Board.Sound s.program.arena.size) (s.Underway (fun _ => true) (s.leftAt start) 0)
      (s.lap (fun _ => true) (s.leftAt start) b) :=
  (underway_start sound none_waits idle unmatched _ _).achieves_lap ready (leftAt_le within)
    (Nat.le_refl _) fun _ _ _ _ _ => rfl

theorem Underway.achieves_behind {admits : Nat → Bool} {first : Nat} (ready : s.Ready)
    (h : s.Underway admits first 0 b) (unmatched : b.best = none) (start : Nat) :
    Achieves (Board.Sound s.program.arena.size) (s.Underway (s.dir.prefers · start) s.extent 0)
      (s.lap (s.dir.prefers · start) s.extent b.drop) := by
  have begins := underway_start (b := b.drop) (s := s) ⟨ThreadList.sound_clear h.current, h.next⟩
    b.current.not_mem_clear h.idle unmatched (s.dir.prefers · start) s.extent
  refine begins.achieves_lap ready (Nat.le_refl _) (Nat.le_refl _) ?_
  intro fewer more le bound admitted
  rcases Nat.eq_or_lt_of_le le with same | lt
  · exact same ▸ admitted
  · exact Direction.prefers_trans (prefers_pos bound lt) admitted

theorem exists_answer (ready : s.Ready) (within : start ≤ s.extent)
    (sound : b.Sound s.program.arena.size) (none_waits : ∀ t, t ∉ b.current.threads)
    (idle : ∀ t, t ∉ b.next.threads) (unmatched : b.best = none) (bounded : Bool) :
    ∃ report b', s.run start bounded b = .ok (report, b') ∧ b'.Sound s.program.arena.size ∧
      s.Answers start bounded report := by
  have lap := achieves_ahead ready within sound none_waits idle unmatched
  unfold run
  revert lap
  cases s.lap (fun _ => true) (s.leftAt start) b with
  | error halt =>
    intro lap
    cases halt with
    | overflow left => exact ⟨_, left, rfl, lap, .firstOverflow⟩
    | fault cause => cases lap
  | ok b₁ =>
    intro ended
    by_cases settled : (b₁.best.isSome || bounded) = true
    · simp only [settled, if_true]
      refine ⟨_, b₁, rfl, ended.toSound, .first ?_ ended.chooses⟩
      rwa [Bool.or_eq_true] at settled
    · simp only [settled, if_false, Bool.false_eq_true]
      simp only [Bool.or_eq_true, not_or, Bool.not_eq_true, Option.isSome_eq_false_iff,
        Option.isNone_iff_eq_none] at settled
      obtain ⟨unmatched₁, unbounded⟩ := settled
      have nothing : s.Chooses (fun _ => true) (s.leftAt start) none := unmatched₁ ▸ ended.chooses
      have lap := ended.achieves_behind ready unmatched₁ start
      revert lap
      cases s.lap (s.dir.prefers · start) s.extent b₁.drop with
      | error halt =>
        intro lap
        cases halt with
        | overflow left => exact ⟨_, left, rfl, lap, .secondOverflow unbounded nothing⟩
        | fault cause => cases lap
      | ok b₂ => exact fun ended₂ => ⟨_, b₂, rfl, ended₂.toSound, .second unbounded nothing ended₂.chooses⟩

end Scan

end CursorRegex
