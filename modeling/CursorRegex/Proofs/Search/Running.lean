import CursorRegex.Proofs.Program.Links
import CursorRegex.Proofs.Search.Threads
import CursorRegex.Search.Board

/-! # Running the threads of one position

`Hopped` lists what running one instruction may do.  From it follows what a thread has done when it is
through (`Ran`): it put a thread on the next list for each character it took, offered each match, and
left each branch for later on the list that is being run.  When the list has been run to its end this
holds of all its threads (`achieves_runFrom`), because a thread that has run is never replaced.

`Kept` is about where threads come from: what every thread begins with and every step keeps, all
threads have.  Nothing here depends on how the positions of a search follow each other. -/
set_option autoImplicit false

namespace CursorRegex

section

variable (p : Program) (c : Cursor)

inductive Passes : Nat → Nat → Prop where
  | atom {i j : Nat} {x : Atom} (here : p.arena.get? i = some ⟨.atom x, some j⟩)
      (verdict : c.verdict p.classes x = .ok .pass) : Passes i j
  | openGroup {i j : Nat} {number : Option Nat}
      (here : p.arena.get? i = some ⟨.openGroup number, some j⟩) : Passes i j
  | closeGroup {i j : Nat} {number : Option Nat}
      (here : p.arena.get? i = some ⟨.closeGroup number, some j⟩) : Passes i j
  | empty {i j : Nat} (here : p.arena.get? i = some ⟨.empty, some j⟩) : Passes i j

inductive Thread.Moves : Thread → Thread → Prop where
  | atom {t : Thread} {j : Nat} {x : Atom} (here : p.arena.get? t.inst = some ⟨.atom x, some j⟩)
      (verdict : c.verdict p.classes x = .ok .pass) : Moves t { t with inst := j }
  | openGroup {t : Thread} {j : Nat} {number : Option Nat} {marks : Marks}
      (here : p.arena.get? t.inst = some ⟨.openGroup number, some j⟩)
      (recorded : t.marks.recordIf c.dir.openEdge number c.pos = .ok marks) :
      Moves t ⟨j, t.seed, marks⟩
  | closeGroup {t : Thread} {j : Nat} {number : Option Nat} {marks : Marks}
      (here : p.arena.get? t.inst = some ⟨.closeGroup number, some j⟩)
      (recorded : t.marks.recordIf c.dir.closeEdge number c.pos = .ok marks) :
      Moves t ⟨j, t.seed, marks⟩
  | empty {t : Thread} {j : Nat} (here : p.arena.get? t.inst = some ⟨.empty, some j⟩) :
      Moves t { t with inst := j }
  | forkNext {t : Thread} {j right : Nat}
      (here : p.arena.get? t.inst = some ⟨.fork right, some j⟩) : Moves t { t with inst := j }
  | forkRight {t : Thread} {right : Nat} {next : Option Nat}
      (here : p.arena.get? t.inst = some ⟨.fork right, next⟩) : Moves t { t with inst := right }

inductive Thread.Takes : Thread → Thread → Prop where
  | atom {t : Thread} {j : Nat} {x : Atom} (here : p.arena.get? t.inst = some ⟨.atom x, some j⟩)
      (verdict : c.verdict p.classes x = .ok .take) : Takes t { t with inst := j }

inductive Thread.Wins : Thread → Captures → Prop where
  | accept {t : Thread} {next : Option Nat} (here : p.arena.get? t.inst = some ⟨.accept, next⟩) :
      Wins t (.ofMarks (c.dir.spanOf t.seed c.pos) t.marks)

inductive Act where
  | stop
  | move (t : Thread)
  | take (t : Thread)
  | fork (later t : Thread)
  | win (m : Captures)

inductive Thread.Does : Thread → Act → Prop where
  | stop {t : Thread} {x : Atom} {next : Option Nat} (here : p.arena.get? t.inst = some ⟨.atom x, next⟩)
      (verdict : c.verdict p.classes x = .ok .stop) : Does t .stop
  | take {t t' : Thread} (takes : t.Takes p c t') : Does t (.take t')
  | win {t : Thread} {m : Captures} (wins : t.Wins p c m) : Does t (.win m)
  | move {t t' : Thread} (moves : t.Moves p c t') (passes : Passes p c t.inst t'.inst) : Does t (.move t')
  | fork {t : Thread} {j right : Nat} (here : p.arena.get? t.inst = some ⟨.fork right, some j⟩) :
      Does t (.fork { t with inst := right } { t with inst := j })

structure Kept (here ahead : Thread → Prop) (won : Captures → Prop) : Prop where
  moves : ∀ t t', here t → t.Moves p c t' → here t'
  takes : ∀ t t', here t → t.Takes p c t' → ahead t'
  wins : ∀ t m, here t → t.Wins p c m → won m

end

namespace Board

variable {limit size ran : Nat} {dir : Direction} {b b' b'' : Board limit}

structure Sound (size : Nat) (b : Board limit) : Prop where
  current : b.current.Sound size
  next : b.next.Sound size

structure Holds (size : Nat) (here ahead : Thread → Prop) (won : Captures → Prop) (b : Board limit) :
    Prop extends Sound size b where
  here : ∀ t ∈ b.current.threads, here t
  ahead : ∀ t ∈ b.next.threads, ahead t
  won : ∀ m ∈ b.best, won m

structure Grows (dir : Direction) (ran : Nat) (b b' : Board limit) : Prop where
  current : ∀ i seed, b.current.Covers dir i seed → b'.current.Covers dir i seed
  next : ∀ i seed, b.next.Covers dir i seed → b'.next.Covers dir i seed
  found : ∀ s, Found dir b.best s → Found dir b'.best s
  has_run : ∀ i, i < ran → b'.current.threads[i]? = b.current.threads[i]?
  size_le : b.current.threads.size ≤ b'.current.threads.size

namespace Grows

theorem refl (dir : Direction) (ran : Nat) (b : Board limit) : Grows dir ran b b :=
  ⟨fun _ _ h => h, fun _ _ h => h, fun _ h => h, fun _ _ => rfl, Nat.le_refl _⟩

theorem trans (h : Grows dir ran b b') (h' : Grows dir ran b' b'') : Grows dir ran b b'' := by
  refine ⟨fun i seed covers => ?_, fun i seed covers => ?_, fun s found => ?_, fun i low => ?_, ?_⟩
  · exact h'.current i seed (h.current i seed covers)
  · exact h'.next i seed (h.next i seed covers)
  · exact h'.found s (h.found s found)
  · exact (h'.has_run i low).trans (h.has_run i low)
  · exact Nat.le_trans h.size_le h'.size_le

theorem mono {fewer : Nat} (h : Grows dir ran b b') (le : fewer ≤ ran) : Grows dir fewer b b' :=
  { h with has_run := fun i low => h.has_run i (Nat.lt_of_lt_of_le low le) }

end Grows

theorem grows_current {t : Thread} {l : ThreadList limit} (within : ran ≤ b.current.threads.size)
    (added : ThreadList.Added dir ran t b.current l) : Grows dir ran b { b with current := l } :=
  ⟨fun _ _ => added.covers, fun _ _ h => h, fun _ h => h, fun _ => added.getElem?_eq within,
    added.size_le⟩

theorem grows_next {n : Nat} {t : Thread} {l : ThreadList limit}
    (added : ThreadList.Added dir n t b.next l) : Grows dir ran b { b with next := l } :=
  ⟨fun _ _ h => h, fun _ _ => added.covers, fun _ h => h, fun _ _ => rfl, Nat.le_refl _⟩

/-! ## Offering a match -/

theorem best_offer (dir : Direction) (new : Captures) (b : Board limit) :
    (b.offer dir new).best = some new ∧ (∀ m ∈ b.best, dir.beats new.whole m.whole = true) ∨
      (b.offer dir new).best = b.best ∧ Found dir b.best new.whole := by
  unfold offer
  cases best : b.best with
  | none => exact Or.inl ⟨rfl, nofun⟩
  | some m =>
    rw [Option.all_some, Captures.better_eq]
    cases better : dir.beats new.whole m.whole with
    | true =>
      refine Or.inl ⟨rfl, fun m' is => ?_⟩
      cases is
      exact better
    | false => exact Or.inr ⟨best, m, rfl, better⟩

theorem lists_offer (dir : Direction) (new : Captures) (b : Board limit) :
    (b.offer dir new).current = b.current ∧ (b.offer dir new).next = b.next := by
  unfold offer
  split <;> exact ⟨rfl, rfl⟩

theorem grows_offer (dir : Direction) (new : Captures) (b : Board limit) :
    Grows dir ran b (b.offer dir new) := by
  have lists := lists_offer dir new b
  refine ⟨fun _ _ h => lists.1 ▸ h, fun _ _ h => lists.2 ▸ h, fun s found => ?_, fun i _ => ?_, ?_⟩
  · rcases best_offer dir new b with ⟨taken, better⟩ | ⟨same, -⟩
    · obtain ⟨m, is, le⟩ := found
      refine ⟨new, taken, ?_⟩
      exact Direction.not_beats_trans le (Direction.not_beats_of_beats (better m is))
    · exact same ▸ found
  · rw [lists.1]
  · exact Nat.le_of_eq (congrArg (·.threads.size) lists.1.symm)

theorem Holds.offer {here ahead : Thread → Prop} {won : Captures → Prop} {m : Captures}
    (h : b.Holds size here ahead won) (dir : Direction) (better : won m) :
    (b.offer dir m).Holds size here ahead won := by
  obtain ⟨current, next⟩ := lists_offer dir m b
  refine ⟨⟨current ▸ h.current, next ▸ h.next⟩, current ▸ h.here, next ▸ h.ahead, fun m' is => ?_⟩
  rcases best_offer dir m b with ⟨taken, -⟩ | ⟨same, -⟩
  · cases taken.symm.trans is
    exact better
  · exact h.won m' (same ▸ is)

theorem found_offer (dir : Direction) (new : Captures) (b : Board limit) :
    Found dir (b.offer dir new).best new.whole := by
  rcases best_offer dir new b with ⟨taken, -⟩ | ⟨same, found⟩
  · exact ⟨new, taken, dir.beats_irrefl _⟩
  · exact same ▸ found

end Board

/-! ## One instruction -/

namespace Act

def perform {limit : Nat} (dir : Direction) (ran : Nat) (b : Board limit) :
    Act → Except (Halt (Board limit)) (Option Thread × Board limit)
  | .stop => .ok (none, b)
  | .move t => .ok (some t, b)
  | .take t => (b.addNext dir t).map (none, ·)
  | .fork later t => (b.addCurrent dir ran later).map (some t, ·)
  | .win m => .ok (none, b.offer dir m)

def Within (size : Nat) : Act → Prop
  | .stop | .win _ => True
  | .move t | .take t => t.inst < size
  | .fork later t => later.inst < size ∧ t.inst < size

end Act

section

variable {limit : Nat} (p : Program) (c : Cursor) (ran : Nat)

inductive Hopped (t : Thread) (b : Board limit) : Option Thread × Board limit → Prop where
  | stopped {x : Atom} {next : Option Nat} (here : p.arena.get? t.inst = some ⟨.atom x, next⟩)
      (verdict : c.verdict p.classes x = .ok .stop) : Hopped t b (none, b)
  | took {t' : Thread} {l : ThreadList limit} (takes : t.Takes p c t')
      (added : ThreadList.Added c.dir 0 t' b.next l) (sound : l.Sound p.arena.size) :
      Hopped t b (none, { b with next := l })
  | won {m : Captures} (wins : t.Wins p c m) : Hopped t b (none, b.offer c.dir m)
  | moved {t' : Thread} (moves : t.Moves p c t') (passes : Passes p c t.inst t'.inst) :
      Hopped t b (some t', b)
  | forked {j right : Nat} {l : ThreadList limit}
      (here : p.arena.get? t.inst = some ⟨.fork right, some j⟩)
      (added : ThreadList.Added c.dir ran { t with inst := right } b.current l)
      (sound : l.Sound p.arena.size) :
      Hopped t b (some { t with inst := j }, { b with current := l })

end

section

variable {limit ran : Nat} {p : Program} {c : Cursor} {t : Thread} {b : Board limit}

theorem Thread.Moves.seed_eq {t' : Thread} (moves : t.Moves p c t') : t'.seed = t.seed := by
  cases moves <;> rfl

theorem Thread.Takes.seed_eq {t' : Thread} (takes : t.Takes p c t') : t'.seed = t.seed := by
  cases takes
  rfl

theorem Marks.recordIf_eq_ok (edge : Edge) {number : Option Nat} (recorded : Recorded number)
    (pos : Nat) (m : Marks) : ∃ m', m.recordIf edge number pos = .ok m' := by
  cases number with
  | none => exact ⟨m, rfl⟩
  | some group =>
    have bounds := recorded group rfl
    obtain ⟨marks⟩ := m
    exact ⟨_, by rw [recordIf, record, dif_pos bounds]⟩

theorem Marks.getElem_recordIf {edge : Edge} {number : Option Nat} {pos k : Nat} {m m' : Marks}
    (h : m.recordIf edge number pos = .ok m') (bound : k < 9) :
    m'.marks[k] = if number = some (k + 1) then m.marks[k].set edge pos else m.marks[k] := by
  cases number with
  | none =>
    cases h
    rw [if_neg nofun]
  | some group =>
    obtain ⟨marks⟩ := m
    unfold recordIf record at h
    dsimp only at h
    split at h
    · rename_i within
      cases h
      by_cases here : group = k + 1
      · subst here
        simp
      · have other : group - 1 ≠ k := by omega
        simp [here, Vector.getElem_set_ne, other]
    · cases h

theorem Captures.get?_ofMarks (whole : Span) (marks : Marks) {k : Nat} (bound : k < 9) :
    (ofMarks whole marks).get? (k + 1) = marks.marks[k].span? := by
  simp [get?, ofMarks, bound]

theorem Arena.next_eq_ok {a : Arena} {i j : Nat} {kind : Kind}
    (here : a.get? i = some ⟨kind, some j⟩) : a.next i = .ok j := by
  rw [next, here]

theorem Thread.follow_eq_ok {kind : Kind} {j : Nat}
    (here : p.arena.get? t.inst = some ⟨kind, some j⟩) :
    (t.follow p.arena : Except (Halt (Board limit)) Thread) = .ok { t with inst := j } := by
  rw [follow, Arena.next_eq_ok here]
  rfl

theorem not_passes_fork {i j right : Nat} {next : Option Nat}
    (here : p.arena.get? i = some ⟨.fork right, next⟩) : ¬ Passes p c i j := by
  intro passes
  cases passes with
  | atom here' | openGroup here' | closeGroup here' | empty here' => cases here.symm.trans here'

theorem Board.achieves_addCurrent (sound : b.Sound p.arena.size) (within : t.inst < p.arena.size)
    (dir : Direction) (ran : Nat) :
    Achieves (Board.Sound p.arena.size)
      (fun b' => ∃ l, b' = { b with current := l } ∧ l.Sound p.arena.size ∧
        ThreadList.Added dir ran t b.current l) (b.addCurrent dir ran t) := by
  obtain ⟨current, next, best⟩ := b
  have added := ThreadList.achieves_add dir ran sound.current within
  dsimp only [Board.addCurrent]
  generalize current.add dir ran t = result at added
  match result, added with
  | .ok l, h => exact ⟨l, rfl, h⟩
  | .error (.overflow _), rfl => exact sound

theorem Board.achieves_addNext (sound : b.Sound p.arena.size) (within : t.inst < p.arena.size)
    (dir : Direction) :
    Achieves (Board.Sound p.arena.size)
      (fun b' => ∃ l, b' = { b with next := l } ∧ l.Sound p.arena.size ∧
        ThreadList.Added dir 0 t b.next l) (b.addNext dir t) := by
  obtain ⟨current, next, best⟩ := b
  have added := ThreadList.achieves_add dir 0 sound.next within
  dsimp only [Board.addNext]
  generalize next.add dir 0 t = result at added
  match result, added with
  | .ok l, h => exact ⟨l, rfl, h⟩
  | .error (.overflow _), rfl => exact sound

def Judges (p : Program) (c : Cursor) : Prop :=
  ∀ i x next, p.arena.get? i = some ⟨.atom x, next⟩ → ∃ v, c.verdict p.classes x = .ok v

theorem Thread.exists_does (closed : p.arena.Closed p.classes) (judges : Judges p c)
    (within : t.inst < p.arena.size) : ∃ a, t.Does p c a := by
  obtain ⟨⟨kind, next⟩, here⟩ := Arena.exists_get? within
  have refers := closed.refers _ _ here
  have linked : kind ≠ .accept → ∃ j, next = some j := by
    intro ne
    cases next with
    | none => exact absurd (closed.accepts _ _ here) ne
    | some j => exact ⟨j, rfl⟩
  cases kind with
  | atom x =>
    obtain ⟨v, verdict⟩ := judges _ _ _ here
    obtain ⟨j, rfl⟩ := linked nofun
    cases v with
    | pass => exact ⟨_, .move (.atom here verdict) (.atom here verdict)⟩
    | take => exact ⟨_, .take (.atom here verdict)⟩
    | stop => exact ⟨_, .stop here verdict⟩
  | openGroup number =>
    obtain ⟨marks, recorded⟩ := Marks.recordIf_eq_ok c.dir.openEdge refers c.pos t.marks
    obtain ⟨j, rfl⟩ := linked nofun
    exact ⟨_, .move (.openGroup here recorded) (.openGroup here)⟩
  | closeGroup number =>
    obtain ⟨marks, recorded⟩ := Marks.recordIf_eq_ok c.dir.closeEdge refers c.pos t.marks
    obtain ⟨j, rfl⟩ := linked nofun
    exact ⟨_, .move (.closeGroup here recorded) (.closeGroup here)⟩
  | fork right =>
    obtain ⟨j, rfl⟩ := linked nofun
    exact ⟨_, .fork here⟩
  | empty =>
    obtain ⟨j, rfl⟩ := linked nofun
    exact ⟨_, .move (.empty here) (.empty here)⟩
  | accept => exact ⟨_, .win (.accept here)⟩

theorem Thread.Does.within {a : Act} (closed : p.arena.Closed p.classes) (does : t.Does p c a) :
    a.Within p.arena.size := by
  have linked : ∀ {kind j}, p.arena.get? t.inst = some ⟨kind, some j⟩ → j < p.arena.size :=
    fun here => ((closed.ends _ (Arena.lt_size_of_get? here)).next here).lt_size
  cases does with
  | stop | win => trivial
  | take takes =>
    cases takes with
    | atom here => exact linked here
  | move moves passes =>
    cases passes with
    | atom here | openGroup here | closeGroup here | empty here => exact linked here
  | fork here => exact ⟨closed.refers _ _ here, linked here⟩

/-- An instruction leaves no choice. -/
theorem Thread.Does.unique {a a' : Act} (h : t.Does p c a) (h' : t.Does p c a') : a = a' := by
  cases h with
  | stop =>
    cases h' with
    | stop => rfl
    | take done | win done | move done => cases done <;> simp_all
    | fork => simp_all
  | take takes =>
    cases takes
    cases h' with
    | take done | win done | move done => cases done <;> simp_all
    | stop | fork => simp_all
  | win wins =>
    cases wins
    cases h' with
    | take done | win done | move done => cases done <;> simp_all
    | stop | fork => simp_all
  | fork here =>
    cases h' with
    | move _ passes => exact absurd passes (not_passes_fork here)
    | take done | win done => cases done; simp_all
    | stop | fork => simp_all
  | move moves passes =>
    cases moves with
    | forkNext here | forkRight here => exact absurd passes (not_passes_fork here)
    | atom | openGroup | closeGroup | empty =>
      cases h' with
      | take done | win done => cases done; simp_all
      | stop | fork => simp_all
      | move moves' passes' =>
        cases moves' with
        | forkNext here | forkRight here => exact absurd passes' (not_passes_fork here)
        | atom | openGroup | closeGroup | empty => simp_all

/-- Running an instruction does what its act says. -/
theorem Thread.Does.hop_eq {a : Act} (does : t.Does p c a) (ran : Nat) (b : Board limit) :
    b.hop p c ran t = a.perform c.dir ran b := by
  have got : ∀ {inst}, p.arena.get? t.inst = some inst → p.arena.get t.inst = .ok inst :=
    fun here => by rw [Arena.get, here]
  unfold Board.hop
  cases does with
  | stop here verdict =>
    rw [mapError_bind (got here)]
    exact mapError_bind verdict _
  | take takes =>
    cases takes with
    | atom here verdict =>
      rw [mapError_bind (got here)]
      refine (mapError_bind verdict _).trans ?_
      rw [Thread.follow_eq_ok here]
      exact bind_pure_eq_map _ _
  | win wins =>
    cases wins with
    | accept here => exact mapError_bind (got here) _
  | move moves passes =>
    cases moves with
    | atom here verdict =>
      rw [mapError_bind (got here)]
      refine (mapError_bind verdict _).trans ?_
      rw [Thread.follow_eq_ok here]
      rfl
    | @openGroup j number marks here recorded | @closeGroup j number marks here recorded =>
      rw [mapError_bind (got here)]
      refine (mapError_bind recorded _).trans ?_
      rw [Thread.follow_eq_ok (t := { t with marks := marks }) here]
      rfl
    | empty here =>
      rw [mapError_bind (got here)]
      dsimp only
      rw [Thread.follow_eq_ok here]
      rfl
    | forkNext here | forkRight here => exact absurd passes (not_passes_fork here)
  | fork here =>
    rw [mapError_bind (got here)]
    dsimp only
    rw [Thread.follow_eq_ok here]
    exact bind_pure_eq_map _ _

theorem Board.achieves_hop (closed : p.arena.Closed p.classes) (judges : Judges p c)
    (sound : b.Sound p.arena.size) (within : t.inst < p.arena.size) (ran : Nat) :
    Achieves (Board.Sound p.arena.size) (Hopped p c ran t b) (b.hop p c ran t) := by
  obtain ⟨a, does⟩ := Thread.exists_does closed judges within
  have bounds := does.within closed
  rw [does.hop_eq]
  cases does with
  | stop here verdict => exact .stopped here verdict
  | take takes =>
    refine (Board.achieves_addNext sound bounds c.dir).map ?_
    rintro _ ⟨l, rfl, list_sound, added⟩
    exact .took takes added list_sound
  | win wins => exact .won wins
  | move moves passes => exact .moved moves passes
  | fork here =>
    refine (Board.achieves_addCurrent sound bounds.1 c.dir ran).map ?_
    rintro _ ⟨l, rfl, list_sound, added⟩
    exact .forked here added list_sound

theorem Hopped.isSome_best {after : Option Thread × Board limit} (h : Hopped p c ran t b after)
    (found : b.best.isSome = true) : after.2.best.isSome = true := by
  cases h with
  | stopped | took | moved | forked => exact found
  | @won m wins =>
    rcases Board.best_offer c.dir m b with ⟨taken, -⟩ | ⟨same, -⟩
    · rw [taken]
      rfl
    · rwa [same]

/-! ## One thread -/

theorem Passes.nextOf {i j : Nat} (h : Passes p c i j) : p.arena.nextOf i = some j := by
  cases h with
  | atom here | openGroup here | closeGroup here | empty here => rw [Arena.nextOf, here]; rfl

theorem Passes.here {i j : Nat} (h : Passes p c i j) :
    ∃ kind next, p.arena.get? i = some ⟨kind, next⟩ ∧ kind ≠ .accept := by
  cases h with
  | atom here | openGroup here | closeGroup here | empty here => exact ⟨_, _, here, nofun⟩

/-- What was done, at the instruction `i` and behind it, for an attempt that began at `seed`. -/
inductive Ran (p : Program) (c : Cursor) (b : Board limit) (seed : Nat) : Nat → Prop where
  | stopped {i : Nat} {x : Atom} {next : Option Nat} (here : p.arena.get? i = some ⟨.atom x, next⟩)
      (verdict : c.verdict p.classes x = .ok .stop) : Ran p c b seed i
  | took {i j : Nat} {x : Atom} (here : p.arena.get? i = some ⟨.atom x, some j⟩)
      (verdict : c.verdict p.classes x = .ok .take) (covered : b.next.Covers c.dir j seed) :
      Ran p c b seed i
  | won {i : Nat} {next : Option Nat} (here : p.arena.get? i = some ⟨.accept, next⟩)
      (found : Found c.dir b.best (c.dir.spanOf seed c.pos)) : Ran p c b seed i
  | passed {i j : Nat} (passes : Passes p c i j) (rest : Ran p c b seed j) : Ran p c b seed i
  | forked {i j right : Nat} (here : p.arena.get? i = some ⟨.fork right, some j⟩)
      (covered : b.current.Covers c.dir right seed) (rest : Ran p c b seed j) : Ran p c b seed i

theorem Ran.mono {b' : Board limit} {seed i : Nat} (grows : Board.Grows c.dir ran b b')
    (h : Ran p c b seed i) : Ran p c b' seed i := by
  induction h with
  | stopped here verdict => exact .stopped here verdict
  | took here verdict covered => exact .took here verdict (grows.next _ _ covered)
  | won here found => exact .won here (grows.found _ found)
  | passed passes _ ih => exact .passed passes ih
  | forked here covered _ ih => exact .forked here (grows.current _ _ covered) ih

section

variable {here ahead : Thread → Prop} {won : Captures → Prop}

theorem Arena.Closed.follow {a : Arena} {classes : ClassTable} {i j r : Nat} {l : List Nat}
    (closed : a.Closed classes) (within : i < a.size) (trail : Trail a.nextOf i l r)
    (link : a.nextOf i = some j) :
    j < a.size ∧ ∃ l', Trail a.nextOf j l' r ∧ l'.length < l.length := by
  constructor
  · obtain ⟨⟨kind, next⟩, found, is⟩ := Option.bind_eq_some_iff.mp link
    cases is
    exact ((closed.ends _ within).next found).lt_size
  · cases trail with
    | stop ends => cases ends.symm.trans link
    | step link' rest =>
      cases link'.symm.trans link
      exact ⟨_, rest, Nat.lt_succ_self _⟩

/-- A thread runs to its end, because following successors ends. -/
theorem Board.achieves_drive (closed : p.arena.Closed p.classes) (judges : Judges p c)
    (kept : Kept p c here ahead won) {fuel r : Nat} {l : List Nat}
    (trail : Trail p.arena.nextOf t.inst l r) (enough : l.length ≤ fuel)
    (within : t.inst < p.arena.size) (begins : here t) (holds : b.Holds p.arena.size here ahead won)
    (has_run : ran ≤ b.current.threads.size) :
    Achieves (Board.Sound p.arena.size)
      (fun b' => b'.Holds p.arena.size here ahead won ∧ Board.Grows c.dir ran b b' ∧
        Ran p c b' t.seed t.inst) (b.drive p c ran fuel t) := by
  induction fuel generalizing t b l with
  | zero =>
    cases trail <;> cases enough
  | succ fuel ih =>
    rw [Board.drive]
    refine (Board.achieves_hop closed judges holds.toSound within ran).bind ?_
    rintro ⟨t', b'⟩ hopped
    cases hopped with
    | stopped at_atom verdict =>
      exact ⟨holds, .refl _ _ _, .stopped at_atom verdict⟩
    | @took t' l takes added sound =>
      have taken := kept.takes _ _ begins takes
      refine ⟨⟨⟨holds.current, sound⟩, holds.here, added.forall_mem taken holds.ahead, holds.won⟩,
        Board.grows_next added, ?_⟩
      cases takes with
      | atom at_atom verdict => exact .took at_atom verdict added.covers_new
    | @won m wins =>
      have better := kept.wins _ _ begins wins
      refine ⟨holds.offer c.dir better, Board.grows_offer c.dir m b, ?_⟩
      cases wins with
      | accept at_accept => exact .won at_accept (Board.found_offer c.dir _ b)
    | @moved t' moves passes =>
      obtain ⟨bound, l', trail', shorter⟩ := closed.follow within trail passes.nextOf
      have seed : t'.seed = t.seed := by cases moves <;> rfl
      refine (ih trail' (by omega) bound (kept.moves _ _ begins moves) holds has_run).mono ?_
      rintro b' ⟨holds', grows, ran'⟩
      exact ⟨holds', grows, .passed passes (seed ▸ ran')⟩
    | @forked j right l at_fork added sound =>
      have link : p.arena.nextOf t.inst = some j := by rw [Arena.nextOf, at_fork]; rfl
      obtain ⟨bound, l', trail', shorter⟩ := closed.follow within trail link
      have later := kept.moves _ _ begins (.forkRight at_fork)
      have forks : Board.Grows c.dir ran b { b with current := l } := Board.grows_current has_run added
      have holds' : Board.Holds p.arena.size here ahead won { b with current := l } :=
        ⟨⟨sound, holds.next⟩, added.forall_mem later holds.here, holds.ahead, holds.won⟩
      have sooner := kept.moves _ _ begins (.forkNext at_fork)
      refine (ih trail' (by omega) bound sooner holds' (Nat.le_trans has_run added.size_le)).mono ?_
      rintro b' ⟨holds', grows, ran'⟩
      refine ⟨holds', forks.trans grows, .forked at_fork ?_ ran'⟩
      exact grows.current _ _ added.covers_new

/-! ## All threads -/

theorem Board.achieves_runFrom (closed : p.arena.Closed p.classes) (judges : Judges p c)
    (kept : Kept p c here ahead won) {i : Nat} (holds : b.Holds p.arena.size here ahead won)
    (has_run : i ≤ b.current.threads.size)
    (earlier : ∀ k t, k < i → b.current.threads[k]? = some t → Ran p c b t.seed t.inst) :
    Achieves (Board.Sound p.arena.size)
      (fun b' => b'.Holds p.arena.size here ahead won ∧ Board.Grows c.dir i b b' ∧
        ∀ t ∈ b'.current.threads, Ran p c b' t.seed t.inst) (b.runFrom p c i) := by
  induction hn : limit - i using Nat.strongRecOn generalizing b i with
  | ind n ih =>
    subst hn
    rw [Board.runFrom]
    by_cases more : i < b.current.threads.size
    · rw [dif_pos more]
      have room := b.current.size_le
      have at_i := Array.getElem?_eq_getElem more
      have member := Array.mem_of_getElem? at_i
      have within := holds.current.within _ member
      obtain ⟨r, l, trail, enough⟩ := (closed.ends _ within).bounded
      have driven := Board.achieves_drive closed judges kept trail enough within
        (holds.here _ member) holds (show i + 1 ≤ b.current.threads.size from more)
      revert driven
      cases b.drive p c (i + 1) p.arena.size b.current.threads[i] with
      | error halt =>
        intro driven
        cases halt with
        | overflow left => exact driven
        | fault cause => exact driven
      | ok b₁ =>
        rintro ⟨holds₁, grows₁, ran₁⟩
        have run_so_far : ∀ k t, k < i + 1 → b₁.current.threads[k]? = some t →
            Ran p c b₁ t.seed t.inst := by
          intro k t low found
          rw [grows₁.has_run k low] at found
          by_cases last : k = i
          · subst last
            cases at_i.symm.trans found
            exact ran₁
          · exact (earlier k t (by omega) found).mono grows₁
        refine (ih (limit - (i + 1)) (by omega) holds₁ (Nat.le_trans more grows₁.size_le)
          run_so_far rfl).mono ?_
        rintro b₂ ⟨holds₂, grows₂, all⟩
        exact ⟨holds₂, (grows₁.trans grows₂).mono (Nat.le_succ i), all⟩
    · rw [dif_neg more]
      refine ⟨holds, .refl _ _ _, fun t member => ?_⟩
      obtain ⟨k, found⟩ := Array.mem_iff_getElem?.mp member
      obtain ⟨bound, -⟩ := Array.getElem?_eq_some_iff.mp found
      exact earlier k t (by omega) found

end

end

end CursorRegex
