import CursorRegex.Proofs.Program.Halves
import CursorRegex.Proofs.Search.Queries
import CursorRegex.Proofs.Search.Roster
import Mathlib.Data.Finset.Prod

/-! # How many threads a search needs

Of the threads for one instruction only one waits for the next position.  The list that is being run may
hold several, since a thread is put behind one that has run if its attempt is preferred.  Then a fork
branches to the instruction, and the attempts are preferred in turn (`Thread.Ascending`), so what a list
holds is bounded by the number of attempts at the position (`Thread.Ascending.length_le`), and these by the
number of threads that waited for it (`Scan.Waits.attempts_le`).

A slot for each instruction is thus not enough (`Regex.overflow_of_slot_each`).  Enough is another for every
place that is branched to and every further attempt (`Regex.answer_of_slots`). -/
set_option autoImplicit false

namespace CursorRegex

namespace Program

/-- The places that forks of the program for a direction branch to. -/
def branches (p : Program) (dir : Direction) : Finset Nat :=
  (p.half dir).filter fun right => ∃ i ∈ p.half dir, (p.arena.get? i).map (·.kind) = some (.fork right)

/-- A slot for each instruction of the program for a direction, and one for each place that is branched to
and each attempt beyond the first. -/
def slots (p : Program) (dir : Direction) (further : Nat) : Nat :=
  (p.half dir).card + (p.branches dir).card * further

variable {p : Program} {dir : Direction}

theorem branches_subset (p : Program) (dir : Direction) : p.branches dir ⊆ p.half dir :=
  Finset.filter_subset _ _

theorem slots_mono {fewer more : Nat} (le : fewer ≤ more) : p.slots dir fewer ≤ p.slots dir more :=
  Nat.add_le_add_left (Nat.mul_le_mul_left _ le) _

end Program

namespace Arena.SelfContained

variable {p : Program} {dir : Direction} {entry accepting : Nat}

theorem right_mem_branches (contained : p.arena.SelfContained (p.half dir) entry accepting)
    {i right : Nat} {next : Option Nat} (inside : i ∈ p.half dir)
    (fork : p.arena.get? i = some ⟨.fork right, next⟩) : right ∈ p.branches dir := by
  apply Finset.mem_filter.mpr
  refine ⟨(contained.right i right next inside fork).1, i, inside, ?_⟩
  rw [fork]
  rfl

end Arena.SelfContained

/-! ## Lists of threads -/

namespace Thread

variable {p : Program} {dir : Direction} {seeds branches : Finset Nat} {t u old : Thread}
  {ts done todo : List Thread}

/-- Behind a thread for the same instruction is only one whose attempt is preferred, at a place that is
branched to. -/
def Ascending (dir : Direction) (branches : Finset Nat) (ts : List Thread) : Prop :=
  ts.Pairwise fun t u => u.inst = t.inst → u.inst ∈ branches ∧ dir.prefers u.seed t.seed = true

def Allowed (p : Program) (dir : Direction) (seeds : Finset Nat) (t : Thread) : Prop :=
  t.inst ∈ p.half dir ∧ t.seed ∈ seeds

theorem ascending_of_nodup (once : (ts.map (·.inst)).Nodup) : Ascending dir branches ts :=
  (List.pairwise_map.mp once).imp fun ne same => absurd same.symm ne

/-- A list has no more threads than there are values that tell them apart. -/
theorem length_le_card {α : Type} [DecidableEq α] {f : Thread → α} {s : Finset α}
    (apart : (ts.map f).Nodup) (inside : ∀ t ∈ ts, f t ∈ s) : ts.length ≤ s.card := by
  have sub : (ts.map f).toFinset ⊆ s := by
    intro a found
    obtain ⟨t, member, rfl⟩ := List.mem_map.mp (List.mem_toFinset.mp found)
    exact inside t member
  calc ts.length = (ts.map f).toFinset.card := by
        rw [List.toFinset_card_of_nodup apart, List.length_map]
    _ ≤ s.card := Finset.card_le_card sub

theorem Ascending.length_le (ascending : Ascending dir (p.branches dir) ts)
    (allowed : ∀ t ∈ ts, t.Allowed p dir seeds) : ts.length ≤ p.slots dir (seeds.card - 1) := by
  -- where nothing branches to, the instruction alone tells threads apart
  let slot : Thread → Nat × Nat := fun t => (t.inst, if t.inst ∈ p.branches dir then t.seed else 0)
  let single := (p.half dir \ p.branches dir) ×ˢ {0}
  let several := p.branches dir ×ˢ seeds
  have apart : (ts.map slot).Nodup := by
    apply List.pairwise_map.mpr
    refine ascending.imp ?_
    intro t u step same
    have inst : t.inst = u.inst := congrArg Prod.fst same
    have seed := congrArg Prod.snd same
    obtain ⟨branch, better⟩ := step inst.symm
    simp only [slot, inst, if_pos branch] at seed
    rw [seed, dir.prefers_irrefl] at better
    cases better
  have inside : ∀ t ∈ ts, slot t ∈ single ∪ several := by
    intro t member
    obtain ⟨place, seed⟩ := allowed t member
    by_cases branch : t.inst ∈ p.branches dir
    · simp [slot, several, branch, seed]
    · simp [slot, single, branch, place]
  have subset := Finset.card_le_card (p.branches_subset dir)
  have count : ts.length ≤ (p.half dir).card - (p.branches dir).card +
      (p.branches dir).card * seeds.card := by
    calc ts.length ≤ (single ∪ several).card := length_le_card apart inside
      _ ≤ single.card + several.card := Finset.card_union_le _ _
      _ = _ := by
        rw [Finset.card_product, Finset.card_product, Finset.card_singleton, Nat.mul_one,
          Finset.card_sdiff_of_subset (p.branches_subset dir)]
  unfold Program.slots
  cases attempts : seeds.card with
  | zero =>
    rw [attempts] at count
    omega
  | succ further =>
    rw [attempts, Nat.mul_succ] at count
    rw [Nat.add_sub_cancel]
    omega

theorem length_le_half (once : (ts.map (·.inst)).Nodup) (inside : ∀ t ∈ ts, t.inst ∈ p.half dir) :
    ts.length ≤ (p.half dir).card := length_le_card once inside

/-! ## Adding -/

/-- A thread that is added is preferred to all others for its instruction. -/
theorem Ascending.prefers_of_latest (ascending : Ascending dir branches ts)
    (last : latest t.inst ts = some old) (better : dir.prefers t.seed old.seed = true) :
    ∀ u ∈ ts, u.inst = t.inst → dir.prefers t.seed u.seed = true := by
  intro u member same
  obtain ⟨front, sorted⟩ := List.getLast?_eq_some_iff.mp last
  have at_inst : ∀ v ∈ front ++ [old], v.inst = t.inst := by
    intro v found
    rw [← sorted] at found
    exact of_decide_eq_true (List.mem_filter.mp found).2
  have steps : Ascending dir branches (front ++ [old]) := sorted ▸ ascending.filter _
  have found : u ∈ front ++ [old] := sorted ▸ List.mem_filter.mpr ⟨member, decide_eq_true same⟩
  rcases List.mem_append.mp found with before | last
  · have old_last : old ∈ [old] := List.mem_singleton_self old
    have same' : old.inst = u.inst := by
      rw [same]
      exact at_inst old (List.mem_append_right _ old_last)
    have step := ((List.pairwise_append.mp steps).2.2 u before old old_last same').2
    exact Direction.prefers_trans better step
  · cases List.mem_singleton.mp last
    exact better

theorem mem_enqueue (ascending : Ascending dir branches (done ++ todo))
    (member : u ∈ t.enqueue dir done todo) :
    u ∈ todo ∨ u = t ∧ ∀ v ∈ done ++ todo, v.inst = t.inst → dir.prefers t.seed v.seed = true := by
  unfold enqueue at member
  split at member
  · rename_i none_waits
    rw [List.mem_append, List.mem_singleton] at member
    refine member.imp_right fun is => ⟨is, fun v known same => ?_⟩
    exact absurd same (latest_eq_none_iff.mp none_waits v known)
  · rename_i old last
    split at member
    · rename_i better
      have best := ascending.prefers_of_latest last better
      split at member
      · obtain ⟨v, waits, rfl⟩ := List.mem_map.mp member
        by_cases same : v.inst = t.inst
        · exact Or.inr ⟨if_pos same, best⟩
        · rw [supplant_of_ne same]
          exact Or.inl waits
      · rw [List.mem_append, List.mem_singleton] at member
        exact member.imp_right fun is => ⟨is, best⟩
    · exact Or.inl member

theorem nodup_enqueue (dir : Direction) (t : Thread) (done : List Thread)
    (once : (todo.map (·.inst)).Nodup) : ((t.enqueue dir done todo).map (·.inst)).Nodup := by
  unfold enqueue
  split
  · rename_i none_waits
    apply nodup_snoc once
    intro u waits
    exact latest_eq_none_iff.mp none_waits u (List.mem_append_right _ waits)
  · split
    · split
      · have same : (todo.map t.supplant).map (·.inst) = todo.map (·.inst) := by
          rw [List.map_map]
          exact List.map_congr_left fun u _ => inst_supplant t u
        rw [same]
        exact once
      · rename_i fresh
        apply nodup_snoc once
        intro u waits same
        exact fresh ⟨u, waits, same⟩
    · exact once

theorem Ascending.enqueue (ascending : Ascending dir branches (done ++ todo))
    (once : (todo.map (·.inst)).Nodup) (branch : t.inst ∈ branches) :
    Ascending dir branches (done ++ t.enqueue dir done todo) := by
  obtain ⟨ran, -, waits⟩ := List.pairwise_append.mp ascending
  apply List.pairwise_append.mpr
  refine ⟨ran, ascending_of_nodup (nodup_enqueue dir t done once), ?_⟩
  intro v has_run u member same
  rcases mem_enqueue ascending member with known | ⟨rfl, best⟩
  · exact waits v has_run u known same
  · exact ⟨branch, best v (List.mem_append_left _ has_run) same.symm⟩

end Thread

/-! ## Rosters -/

/-- The threads of an act are allowed, and one for later is at a place that is branched to. -/
def Act.KeepsTo (p : Program) (dir : Direction) (seeds : Finset Nat) : Act → Prop
  | .stop | .win _ => True
  | .move t | .take t => t.Allowed p dir seeds
  | .fork later t =>
    later.Allowed p dir seeds ∧ later.inst ∈ p.branches dir ∧ t.Allowed p dir seeds

/-- All threads are allowed, and of those that have not run none waits at another's instruction. -/
structure Roster.KeepsTo (p : Program) (dir : Direction) (seeds : Finset Nat) (r : Roster) : Prop where
  ascending : Thread.Ascending dir (p.branches dir) (r.done ++ r.todo)
  once : (r.todo.map (·.inst)).Nodup
  once_next : (r.next.map (·.inst)).Nodup
  allowed : ∀ t ∈ r.done ++ r.todo, t.Allowed p dir seeds
  allowed_next : ∀ t ∈ r.next, t.Allowed p dir seeds

section

variable {p : Program} {dir : Direction} {seeds : Finset Nat} {limit : Nat} {r : Roster} {a : Act}
  {t : Thread} {c : Cursor}

theorem Act.KeepsTo.thread (acts : a.KeepsTo p dir seeds) (goes : a.thread = some t) :
    t.Allowed p dir seeds := by
  rcases Act.eq_of_thread goes with rfl | ⟨later, rfl⟩
  · exact acts
  · exact acts.2.2

namespace Roster.KeepsTo

theorem perform (keeps : r.KeepsTo p dir seeds) (acts : a.KeepsTo p dir seeds) :
    (r.perform dir a).KeepsTo p dir seeds := by
  cases a with
  | stop | move t => exact keeps
  | win m => exact ⟨keeps.ascending, keeps.once, keeps.once_next, keeps.allowed, keeps.allowed_next⟩
  | take t =>
    have once := Thread.nodup_enqueue dir t [] keeps.once_next
    refine ⟨keeps.ascending, keeps.once, once, keeps.allowed, ?_⟩
    intro u member
    have ascending : Thread.Ascending dir (p.branches dir) ([] ++ r.next) :=
      Thread.ascending_of_nodup keeps.once_next
    rcases Thread.mem_enqueue ascending member with known | ⟨rfl, -⟩
    · exact keeps.allowed_next u known
    · exact acts
  | fork later t =>
    obtain ⟨allowed, branch, -⟩ := acts
    have once := Thread.nodup_enqueue dir later r.done keeps.once
    refine ⟨keeps.ascending.enqueue keeps.once branch, once, keeps.once_next, ?_, keeps.allowed_next⟩
    intro u member
    rcases List.mem_append.mp member with has_run | waits
    · exact keeps.allowed u (List.mem_append_left _ has_run)
    · rcases Thread.mem_enqueue keeps.ascending waits with known | ⟨rfl, -⟩
      · exact keeps.allowed u (List.mem_append_right _ known)
      · exact allowed

theorem run_first {done rest next : List Thread} {best : Option Captures}
    (keeps : KeepsTo p dir seeds ⟨done, t :: rest, next, best⟩) :
    KeepsTo p dir seeds ⟨done ++ [t], rest, next, best⟩ := by
  have same : done ++ [t] ++ rest = done ++ t :: rest := List.append_cons done t rest ▸ rfl
  have once : ((t :: rest).map (·.inst)).Nodup := keeps.once
  refine ⟨?_, (List.nodup_cons.mp once).2, keeps.once_next, ?_, keeps.allowed_next⟩
  · dsimp only
    rw [same]
    exact keeps.ascending
  · dsimp only
    rw [same]
    exact keeps.allowed

theorem fits (keeps : r.KeepsTo p dir seeds) (room : p.slots dir (seeds.card - 1) ≤ limit) :
    r.Fits limit := by
  constructor
  · rw [← List.length_append]
    exact Nat.le_trans (keeps.ascending.length_le keeps.allowed) room
  · have ascending : Thread.Ascending dir (p.branches dir) r.next :=
      Thread.ascending_of_nodup keeps.once_next
    exact Nat.le_trans (ascending.length_le keeps.allowed_next) room

end Roster.KeepsTo

theorem Thread.Does.keepsTo {entry accepting : Nat}
    (contained : p.arena.SelfContained (p.half dir) entry accepting) (allowed : t.Allowed p dir seeds)
    (does : t.Does p c a) : a.KeepsTo p dir seeds := by
  obtain ⟨inside, attempt⟩ := allowed
  cases does with
  | stop | win => trivial
  | take takes =>
    cases takes with
    | atom here => exact ⟨(contained.next _ _ _ inside here).1, attempt⟩
  | move moves passes =>
    cases moves with
    | atom here | openGroup here | closeGroup here | empty here | forkNext here =>
      exact ⟨(contained.next _ _ _ inside here).1, attempt⟩
    | forkRight here => exact ⟨(contained.right _ _ _ inside here).1, attempt⟩
  | fork here =>
    have branch := contained.right_mem_branches inside here
    exact ⟨⟨p.branches_subset dir branch, attempt⟩, branch, (contained.next _ _ _ inside here).1, attempt⟩

end

/-! ## Boards -/

namespace Board

variable {p : Program} {c : Cursor} {seeds : Finset Nat} {limit ran entry accepting : Nat} {t : Thread}
  {b : Board limit}

variable (closed : p.arena.Closed p.classes) (judges : Judges p c)
  (contained : p.arena.SelfContained (p.half c.dir) entry accepting)
  (room : p.slots c.dir (seeds.card - 1) ≤ limit)

include closed judges contained room

theorem achieves_drive_of_slots {fuel last : Nat} {l : List Nat}
    (trail : Trail p.arena.nextOf t.inst l last) (enough : l.length ≤ fuel)
    (within : t.inst < p.arena.size) (allowed : t.Allowed p c.dir seeds)
    (exact : b.Exact p.arena.size ran) (keeps : (b.roster ran).KeepsTo p c.dir seeds) :
    Achieves (fun _ => False)
      (fun b' => b'.Exact p.arena.size ran ∧ (b'.roster ran).KeepsTo p c.dir seeds)
      (b.drive p c ran fuel t) := by
  induction fuel generalizing t b l with
  | zero => cases trail <;> cases enough
  | succ fuel ih =>
    obtain ⟨a, does⟩ := Thread.exists_does closed judges within
    have acts := does.keepsTo contained allowed
    have keeps' := keeps.perform acts
    rw [drive, does.hop_eq]
    refine (achieves_perform exact (does.within closed) (keeps'.fits room)).bind ?_
    rintro ⟨o, b'⟩ ⟨goes, exact', roster⟩
    have goes : o = a.thread := goes
    rw [← roster] at keeps'
    cases o with
    | none => exact ⟨exact', keeps'⟩
    | some t' =>
      have link := does.nextOf goes.symm
      obtain ⟨bound, l', trail', shorter⟩ := closed.follow within trail link
      exact ih trail' (by omega) bound (acts.thread goes.symm) exact' keeps'

theorem achieves_runFrom_of_slots {i : Nat} (exact : b.Exact p.arena.size i)
    (keeps : (b.roster i).KeepsTo p c.dir seeds) :
    Achieves (fun _ => False)
      (fun b' => ∃ j, b'.Exact p.arena.size j ∧ (b'.roster j).KeepsTo p c.dir seeds)
      (b.runFrom p c i) := by
  induction hn : limit - i using Nat.strongRecOn generalizing i b with
  | ind n ih =>
    subst hn
    cases first : b.current.todo i with
    | nil =>
      rw [runFrom_of_nil first]
      exact ⟨i, exact, keeps⟩
    | cons t rest =>
      obtain ⟨within, more⟩ := exact.first_within first
      obtain ⟨exact₁, roster⟩ := exact.run_first first
      rw [Board.roster, first] at keeps
      have allowed : t.Allowed p c.dir seeds :=
        keeps.allowed t (List.mem_append_right _ List.mem_cons_self)
      obtain ⟨last, l, trail, enough⟩ := (closed.ends _ within).bounded
      rw [runFrom_of_cons first]
      refine (achieves_drive_of_slots closed judges contained room trail enough within allowed exact₁
        (roster ▸ keeps.run_first)).bind ?_
      intro b₂ driven
      exact ih (limit - (i + 1)) (by omega) driven.1 driven.2 rfl

end Board

/-! ## Scans -/

def Board.seeds {limit : Nat} (b : Board limit) : Finset Nat :=
  ((b.current.todo 0).map (·.seed)).toFinset

namespace Scan

variable {s : Scan} {limit left accepting : Nat} {b : Board limit} {admits : Nat → Bool}

/-- Before the threads at a position run, no two wait at one instruction, and none for the next. -/
structure Waits (s : Scan) (b : Board limit) : Prop where
  exact : b.Exact s.program.arena.size 0
  waits : ∀ t ∈ b.current.todo 0, t.inst ∈ s.program.half s.dir ∧ t.seed ≤ s.extent
  idle : b.next.todo 0 = []

namespace Waits

theorem keepsTo (h : s.Waits b) : (b.roster 0).KeepsTo s.program s.dir b.seeds := by
  have none_ahead : (b.roster 0).next = [] := h.idle
  refine ⟨Thread.ascending_of_nodup h.exact.current.once, h.exact.current.once, ?_, ?_, ?_⟩
  · rw [none_ahead]
    exact List.nodup_nil
  · intro t member
    exact ⟨(h.waits t member).1, List.mem_toFinset.mpr (List.mem_map_of_mem member)⟩
  · rw [none_ahead]
    exact nofun

theorem seeds_le (h : s.Waits b) : ∀ seed ∈ b.seeds, seed ≤ s.extent := by
  intro seed attempt
  obtain ⟨t, waits, rfl⟩ := List.mem_map.mp (List.mem_toFinset.mp attempt)
  exact (h.waits t waits).2

/-- At a position are no more attempts than threads that waited for it, nor than positions before. -/
theorem attempts_le (h : s.Waits b) :
    b.seeds.card - 1 ≤ min ((s.program.half s.dir).card - 1) s.extent := by
  have threads : b.seeds.card ≤ (s.program.half s.dir).card := by
    calc b.seeds.card ≤ ((b.current.todo 0).map (·.seed)).length := List.toFinset_card_le _
      _ = (b.current.todo 0).length := List.length_map ..
      _ ≤ (s.program.half s.dir).card :=
        Thread.length_le_half h.exact.current.once fun t member => (h.waits t member).1
  have positions : b.seeds.card ≤ s.extent + 1 := by
    rw [← Finset.card_range (s.extent + 1)]
    apply Finset.card_le_card
    intro seed member
    exact Finset.mem_range.mpr (Nat.lt_succ_of_le (h.seeds_le seed member))
  omega

theorem drop (h : s.Waits b) : s.Waits b.drop := by
  have cleared := ThreadList.clear_eq h.exact.current.sound
  refine ⟨⟨h.exact.current.clear, h.exact.next⟩, ?_, h.idle⟩
  intro t member
  have none_left : b.drop.current.todo 0 = [] := congrArg (ThreadList.todo 0) cleared
  rw [none_left] at member
  cases member

theorem advance {ran : Nat} {seeds : Finset Nat} (exact : b.Exact s.program.arena.size ran)
    (keeps : (b.roster ran).KeepsTo s.program s.dir seeds) (within : ∀ seed ∈ seeds, seed ≤ s.extent) :
    s.Waits b.advance := by
  obtain ⟨exact', current, next, -⟩ := exact.advance
  refine ⟨exact', ?_, next⟩
  rw [current]
  intro t member
  obtain ⟨inside, attempt⟩ := keeps.allowed_next t member
  exact ⟨inside, within t.seed attempt⟩

variable (ready : s.Ready)
  (contained : s.program.arena.SelfContained (s.program.half s.dir) s.entry accepting)

include ready contained

/-- Beginning an attempt needs room for no more than a thread for each instruction. -/
theorem achieves_seed {halted : Board limit → Prop}
    (full : limit < (s.program.half s.dir).card → ∀ left, halted left) (bound : left ≤ s.extent)
    (h : s.Waits b) : Achieves halted s.Waits (s.seed admits left b) := by
  unfold seed
  by_cases attempts : s.attempts admits left b = true
  · rw [if_pos attempts, Board.addCurrent_eq]
    let t : Thread := ⟨s.entry, s.pos left, .none⟩
    have once := Thread.nodup_enqueue s.dir t [] h.exact.current.once
    have inside : ∀ u ∈ t.enqueue s.dir [] (b.current.todo 0),
        u.inst ∈ s.program.half s.dir ∧ u.seed ≤ s.extent := by
      intro u member
      rcases Thread.mem_enqueue h.keepsTo.ascending member with known | ⟨rfl, -⟩
      · exact h.waits u known
      · refine ⟨contained.entry.1, ?_⟩
        have within := pos_le ready bound
        rwa [length_view ready] at within
    have few := Thread.length_le_half once fun u member => (inside u member).1
    have within : (Act.fork t t).Within s.program.arena.size := ⟨ready.entry, ready.entry⟩
    refine (Board.achieves_perform_or h.exact within fun overfull => full ?_).map ?_
    · by_contra room
      refine overfull ⟨?_, (Board.fits_roster 0 b).2⟩
      exact Nat.le_trans (Nat.le_of_eq (Nat.zero_add _)) (Nat.le_trans few (Nat.le_of_not_lt room))
    · rintro ⟨o, b'⟩ ⟨-, exact', roster⟩
      have todo : b'.current.todo 0 = t.enqueue s.dir [] (b.current.todo 0) := congrArg Roster.todo roster
      have next : b'.next.todo 0 = b.next.todo 0 := congrArg Roster.next roster
      exact ⟨exact', todo ▸ inside, next.trans h.idle⟩
  · rw [if_neg attempts]
    exact h

variable (room : s.program.slots s.dir (min ((s.program.half s.dir).card - 1) s.extent) ≤ limit)

include room

theorem achieves_visit (bound : left ≤ s.extent) (h : s.Waits b) :
    Achieves (fun _ => False) s.Waits (s.visit admits left b) := by
  rw [visit_eq ready bound]
  by_cases skips : s.skips (s.upcoming left) b = true
  · rw [if_pos skips]
    exact h
  · rw [if_neg skips]
    have full : limit < (s.program.half s.dir).card → Board limit → False := fun few _ =>
      Nat.not_lt.mpr (Nat.le_trans (Nat.le_add_right _ _) room) few
    refine (achieves_seed ready contained full bound h).bind fun b₁ seeded => ?_
    have spare := Nat.le_trans (Program.slots_mono seeded.attempts_le) room
    refine (Board.achieves_runFrom_of_slots (c := s.cursor left) ready.closed (judges ready bound)
      contained spare seeded.exact seeded.keepsTo).bind ?_
    rintro b₂ ⟨j, exact₂, keeps⟩
    exact Waits.advance exact₂ keeps seeded.seeds_le

theorem achieves_lap (bound : left ≤ s.extent) (h : s.Waits b) :
    Achieves (fun _ => False) s.Waits (s.lap admits left b) := by
  -- what holds is the same at each place
  let inv : Nat → Board limit → Prop := fun _ b => s.Waits b
  have begins : inv (left + 1) b := h
  refine achieves_lap_of (fun place b below h => ?_) (fun _ _ _ h _ _ => h) begins
  exact achieves_visit ready contained room (Nat.le_trans below bound) h

theorem exists_run {start : Nat} (within : start ≤ s.extent) (bounded : Bool) (h : s.Waits b) :
    ∃ report b', s.run start bounded b = .ok (report, b') ∧ .listOverflow ∉ report.log := by
  have first : Achieves (fun _ => False) s.Waits (s.lap (fun _ => true) (s.leftAt start) b) :=
    achieves_lap ready contained room (leftAt_le within) h
  unfold run
  generalize s.lap (fun _ => true) (s.leftAt start) b = result at first
  match result, first with
  | .ok b₁, first =>
    by_cases settled : (b₁.best.isSome || bounded) = true
    · exact ⟨⟨b₁.best, []⟩, b₁, if_pos settled, List.not_mem_nil⟩
    · have second : Achieves (fun _ => False) s.Waits
          (s.lap (s.dir.prefers · start) s.extent b₁.drop) :=
        achieves_lap ready contained room (Nat.le_refl _) first.drop
      simp only [settled]
      generalize s.lap (s.dir.prefers · start) s.extent b₁.drop = result at second
      match result, second with
      | .ok b₂, second => exact ⟨⟨b₂.best, [.wrapped s.dir s.extent]⟩, b₂, rfl, by simp⟩

end Waits

end Scan

/-! ## Searches -/

namespace Regex

variable {r : Regex} {limits : Limits} {pattern : String} {text : Text}

theorem waits_board (query : Query) (first : Option Char) :
    (r.scanOf text query first).Waits r.board :=
  ⟨⟨.empty _, .empty _⟩, nofun, rfl⟩

/-- With a slot for each instruction of the program for its direction, and one for each place that is
branched to and each further attempt, a search does not find a list full. -/
theorem answer_of_slots (compiled : compileWith limits pattern = .ok r) (full : text.Full) (query : Query)
    (room : (r.program.half query.dir).card + (r.program.branches query.dir).card *
      min ((r.program.half query.dir).card - 1) (query.extent text) ≤ limits.threads) :
    ∃ report, r.answer text query = .ok report ∧ .listOverflow ∉ report.log := by
  obtain ⟨classes, tree, -, -, realizes⟩ := compileWith_eq_ok compiled
  obtain ⟨report, answered⟩ := realizes.exists_report full query
  obtain ⟨o, encodes, -⟩ := realizes
  obtain ⟨first, b, -, ready, run⟩ := exists_run encodes full answered
  obtain ⟨program, built, rfl⟩ := map_eq_ok.mp compiled
  obtain ⟨accepting, contained⟩ := (Program.exists_selfContained built).2 query.dir
  obtain ⟨report', b', run', quiet⟩ := (waits_board query first).exists_run ready contained room
    (query.start_le text) query.bounded
  cases run.symm.trans run'
  exact ⟨report, answered, quiet⟩

/-- A slot for each instruction is not enough: where stars branch to, the attempt that began first comes
later than the others, and is put behind them. -/
theorem overflow_of_slot_each : ∃ r r' text, text = .ofArray #['c', 'b', 'c'] ∧ text.Full ∧
    compileWith { threads := 16 } "(cb)*b********b" = .ok r ∧ (r.program.half .forward).card = 16 ∧
    r.answer text (.forward 0 none) = .ok ⟨none, [.listOverflow]⟩ ∧
    compileWith { threads := 18 } "(cb)*b********b" = .ok r' ∧ r'.program = r.program ∧
    r'.answer text (.forward 0 none) =
      .ok ⟨some ⟨⟨1, 2⟩, #v[none, none, none, none, none, none, none, none, none]⟩, []⟩ := by
  have ran : (compileWith { threads := 16 } "(cb)*b********b").map (fun r =>
      ((r.program.half .forward).card, r.answer (.ofArray #['c', 'b', 'c']) (.forward 0 none))) =
      .ok (16, .ok ⟨none, [.listOverflow]⟩) := by
    decide +kernel
  have ran' : (compileWith { threads := 18 } "(cb)*b********b").map (fun r =>
      r.answer (.ofArray #['c', 'b', 'c']) (.forward 0 none)) =
      .ok (.ok ⟨some ⟨⟨1, 2⟩, #v[none, none, none, none, none, none, none, none, none]⟩, []⟩) := by
    decide +kernel
  obtain ⟨r, compiled, ran⟩ := map_eq_ok.mp ran
  obtain ⟨r', compiled', ran'⟩ := map_eq_ok.mp ran'
  have same : r'.program = r.program := by
    obtain ⟨program, built, rfl⟩ := map_eq_ok.mp compiled
    obtain ⟨program', built', rfl⟩ := map_eq_ok.mp compiled'
    have limits : Program.compile { threads := 18 } "(cb)*b********b" =
        Program.compile { threads := 16 } "(cb)*b********b" := rfl
    cases built'.symm.trans (limits.trans built)
    rfl
  exact ⟨r, r', _, rfl, Text.full_ofArray _, compiled, congrArg Prod.fst ran, congrArg Prod.snd ran,
    compiled', same, ran'⟩

/-- Sixteen instructions, of which nine are branched to, need no more than forty-three slots over three
characters. -/
theorem answer_of_slots_stacked_stars : ∃ r text report, text = .ofArray #['c', 'b', 'c'] ∧ text.Full ∧
    compileWith { threads := 43 } "(cb)*b********b" = .ok r ∧ (r.program.half .forward).card = 16 ∧
    (r.program.branches .forward).card = 9 ∧
    (r.program.half .forward).card + (r.program.branches .forward).card *
      min ((r.program.half .forward).card - 1) text.length ≤ 43 ∧
    r.answer text (.forward 0 none) = .ok report ∧ .listOverflow ∉ report.log := by
  have counted : (compileWith { threads := 43 } "(cb)*b********b").map (fun r =>
      ((r.program.half .forward).card, (r.program.branches .forward).card)) = .ok (16, 9) := by
    decide +kernel
  obtain ⟨r, compiled, counted⟩ := map_eq_ok.mp counted
  have half : (r.program.half .forward).card = 16 := congrArg Prod.fst counted
  have branches : (r.program.branches .forward).card = 9 := congrArg Prod.snd counted
  have full := Text.full_ofArray #['c', 'b', 'c']
  have room : (r.program.half .forward).card + (r.program.branches .forward).card *
      min ((r.program.half .forward).card - 1) (Text.ofArray #['c', 'b', 'c']).length ≤ 43 := by
    rw [half, branches]
    decide
  obtain ⟨report, answered, quiet⟩ := answer_of_slots compiled full (.forward 0 none) room
  exact ⟨r, _, report, rfl, full, compiled, half, branches, room, answered, quiet⟩

end Regex

end CursorRegex
