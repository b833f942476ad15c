import CursorRegex.Proofs.Search.Queue
import CursorRegex.Proofs.Search.Running

/-! # The threads of a board, in order

A roster is what a board comes to without its indices: the threads that have run, those that are still to
run, those at the next position, each in order, and the best match.  Every act of a thread is a function
of the roster (`Roster.perform`), and a board follows it unless there is no room (`Act.performed`).

A roster can be looked at with some instructions left out.  Threads at those do not matter if what they do
stays among them (`Act.Idle`): such a thread leaves the rest as it is (`Roster.only_perform_of_idle`), and
any other does the same to the rest whether they are there or not (`Roster.only_perform`). -/
set_option autoImplicit false

namespace CursorRegex

namespace Thread

variable {dir : Direction} {t u : Thread} {i : Nat} {keep : Nat → Bool} {ts done todo : List Thread}

def kept (keep : Nat → Bool) (ts : List Thread) : List Thread := ts.filter (keep ·.inst)

theorem kept_append (keep : Nat → Bool) (ts us : List Thread) :
    kept keep (ts ++ us) = kept keep ts ++ kept keep us := List.filter_append ..

theorem kept_singleton (keep : Nat → Bool) (t : Thread) :
    kept keep [t] = if keep t.inst then [t] else [] := by
  cases keeps : keep t.inst <;> simp [kept, keeps]

theorem latest_kept (kept : keep i = true) (ts : List Thread) :
    latest i (Thread.kept keep ts) = latest i ts := by
  have same : ∀ t : Thread, (decide (t.inst = i) && keep t.inst) = decide (t.inst = i) := by
    intro t
    by_cases here : t.inst = i
    · simp [here, kept]
    · simp [here]
  simp only [latest, Thread.kept, List.filter_filter, same]

theorem kept_map_supplant (keep : Nat → Bool) (t : Thread) (ts : List Thread) :
    kept keep (ts.map t.supplant) = (kept keep ts).map t.supplant := by
  simp only [kept, List.filter_map, Function.comp_def, inst_supplant]

/-- Whether other threads are there makes no difference to a thread that is added. -/
theorem kept_enqueue (kept : keep t.inst = true) (dir : Direction) (done todo : List Thread) :
    Thread.kept keep (t.enqueue dir done todo) =
      t.enqueue dir (Thread.kept keep done) (Thread.kept keep todo) := by
  have waits : (∃ u ∈ Thread.kept keep todo, u.inst = t.inst) ↔ ∃ u ∈ todo, u.inst = t.inst := by
    constructor
    · rintro ⟨u, member, same⟩
      exact ⟨u, (List.mem_filter.mp member).1, same⟩
    · rintro ⟨u, member, same⟩
      exact ⟨u, List.mem_filter.mpr ⟨member, same ▸ kept⟩, same⟩
  have latest_eq : latest t.inst (Thread.kept keep done ++ Thread.kept keep todo) =
      latest t.inst (done ++ todo) := by
    rw [← kept_append, latest_kept kept]
  have at_end : Thread.kept keep (todo ++ [t]) = Thread.kept keep todo ++ [t] := by
    rw [kept_append, kept_singleton, if_pos kept]
  simp only [enqueue, latest_eq, waits]
  split
  · exact at_end
  · split
    · split
      · exact kept_map_supplant keep t todo
      · exact at_end
    · rfl

theorem kept_enqueue_of_not (left_out : keep t.inst = false) (dir : Direction)
    (done todo : List Thread) : kept keep (t.enqueue dir done todo) = kept keep todo := by
  have others : ∀ u ∈ kept keep todo, u.inst ≠ t.inst := by
    intro u member same
    have kept := (List.mem_filter.mp member).2
    rw [same, left_out] at kept
    cases kept
  rcases enqueue_cases dir t done todo with goes | goes | goes
  · rw [goes, kept_append, kept_singleton, if_neg (by simp [left_out]), List.append_nil]
  · rw [goes, kept_map_supplant, map_supplant_of_forall_ne others]
  · rw [goes]

end Thread

/-! ## Rosters -/

/-- Which instructions count, for threads at this position and for those at the next. -/
structure Sieve where
  here : Nat → Bool
  ahead : Nat → Bool

def Sieve.all : Sieve := ⟨fun _ => true, fun _ => true⟩

structure Roster where
  done : List Thread
  todo : List Thread
  next : List Thread
  best : Option Captures

namespace Roster

def offer (dir : Direction) (m : Captures) (best : Option Captures) : Option Captures :=
  if best.all (m.better dir ·) then some m else best

def perform (dir : Direction) (r : Roster) : Act → Roster
  | .stop | .move _ => r
  | .take t => { r with next := t.enqueue dir [] r.next }
  | .fork later _ => { r with todo := later.enqueue dir r.done r.todo }
  | .win m => { r with best := offer dir m r.best }

def Fits (limit : Nat) (r : Roster) : Prop :=
  r.done.length + r.todo.length ≤ limit ∧ r.next.length ≤ limit

def only (k : Sieve) (r : Roster) : Roster :=
  ⟨Thread.kept k.here r.done, Thread.kept k.here r.todo, Thread.kept k.ahead r.next, r.best⟩

theorem only_all (r : Roster) : r.only .all = r := by
  have every (ts : List Thread) : ts.filter (fun _ => true) = ts :=
    List.filter_eq_self.mpr fun _ _ => rfl
  simp only [only, Sieve.all, Thread.kept, every]

end Roster

namespace Act

def thread : Act → Option Thread
  | .stop | .take _ | .win _ => none
  | .move t | .fork _ t => some t

def Idle (k : Sieve) : Act → Prop
  | .stop => True
  | .move t => k.here t.inst = false
  | .take t => k.ahead t.inst = false
  | .fork later t => k.here later.inst = false ∧ k.here t.inst = false
  | .win _ => False

variable {size : Nat} {k : Sieve} {a : Act} {t : Thread}

theorem eq_of_thread (goes : a.thread = some t) : a = .move t ∨ ∃ later, a = .fork later t := by
  cases a with
  | stop | take | win => cases goes
  | move =>
    cases goes
    exact Or.inl rfl
  | fork later =>
    cases goes
    exact Or.inr ⟨later, rfl⟩

theorem Within.thread (within : a.Within size) (goes : a.thread = some t) : t.inst < size := by
  rcases eq_of_thread goes with rfl | ⟨later, rfl⟩
  · exact within
  · exact within.2

theorem Idle.thread (idle : a.Idle k) (goes : a.thread = some t) : k.here t.inst = false := by
  rcases eq_of_thread goes with rfl | ⟨later, rfl⟩
  · exact idle
  · exact idle.2

end Act

theorem Thread.Does.nextOf {p : Program} {c : Cursor} {a : Act} {t t' : Thread} (does : t.Does p c a)
    (goes : a.thread = some t') : p.arena.nextOf t.inst = some t'.inst := by
  rcases Act.eq_of_thread goes with rfl | ⟨later, rfl⟩
  · cases does with
    | move moves passes => exact passes.nextOf
  · cases does with
    | fork here =>
      rw [Arena.nextOf, here]
      rfl

namespace Roster

variable {k : Sieve} {a : Act}

/-- An act as far as it adds no thread that is left out. -/
def skim (k : Sieve) : Act → Act
  | .take t => if k.ahead t.inst then .take t else .stop
  | .fork later t => if k.here later.inst then .fork later t else .move t
  | a => a

theorem only_perform (dir : Direction) (r : Roster) (a : Act) :
    (r.perform dir a).only k = (r.only k).perform dir (skim k a) := by
  cases a with
  | stop | move t | win m => rfl
  | take t =>
    cases kept : k.ahead t.inst with
    | true => simp only [skim, kept, if_true, perform, only, Thread.kept_enqueue kept]; rfl
    | false => simp [skim, kept, perform, only, Thread.kept_enqueue_of_not kept]
  | fork later t =>
    cases kept : k.here later.inst with
    | true => simp only [skim, kept, if_true, perform, only, Thread.kept_enqueue kept]
    | false => simp [skim, kept, perform, only, Thread.kept_enqueue_of_not kept]

theorem only_perform_of_idle (dir : Direction) (r : Roster) (idle : a.Idle k) :
    (r.perform dir a).only k = r.only k := by
  rw [only_perform]
  cases a with
  | stop | move t => rfl
  | take t => rw [skim, if_neg (ne_true_of_eq_false idle), perform]
  | fork later t => rw [skim, if_neg (ne_true_of_eq_false idle.1), perform]
  | win m => exact idle.elim

end Roster

/-! ## Boards -/

namespace Board

variable {limit size ran : Nat} {dir : Direction} {t : Thread} {b b' : Board limit}

def roster (ran : Nat) (b : Board limit) : Roster :=
  ⟨b.current.done ran, b.current.todo ran, b.next.todo 0, b.best⟩

structure Exact (size ran : Nat) (b : Board limit) : Prop where
  current : b.current.Exact size ran
  next : b.next.Exact size 0

theorem Exact.sound (exact : b.Exact size ran) : b.Sound size :=
  ⟨exact.current.sound, exact.next.sound⟩

theorem fits_roster (ran : Nat) (b : Board limit) : (b.roster ran).Fits limit := by
  have whole := ThreadList.Exact.done_append_todo ran b.current
  constructor
  · have room := b.current.size_le
    rw [← Array.length_toList, ← whole, List.length_append] at room
    exact room
  · exact b.next.size_le

inductive Performed (size ran : Nat) (dir : Direction) (a : Act) (b : Board limit) :
    Except (Halt (Board limit)) (Option Thread × Board limit) → Prop where
  | room {b' : Board limit} (exact : b'.Exact size ran)
      (roster : b'.roster ran = (b.roster ran).perform dir a) :
      Performed size ran dir a b (.ok (a.thread, b'))
  | full {left : Board limit} (full : ¬ ((b.roster ran).perform dir a).Fits limit) :
      Performed size ran dir a b (.error (.overflow left))

theorem offer_eq (dir : Direction) (m : Captures) (b : Board limit) :
    b.offer dir m = { b with best := Roster.offer dir m b.best } := by
  unfold offer Roster.offer
  split <;> rfl

theorem performed {a : Act} (dir : Direction) (exact : b.Exact size ran) (within : a.Within size) :
    Performed size ran dir a b (a.perform dir ran b) := by
  cases a with
  | stop | move t => exact .room exact rfl
  | win m =>
    rw [Act.perform, offer_eq]
    exact .room ⟨exact.current, exact.next⟩ rfl
  | take t =>
    obtain ⟨current, next, best⟩ := b
    have added := ThreadList.enqueued_add dir exact.next within
    dsimp only [Act.perform, addNext] at added ⊢
    generalize next.add dir 0 t = result at added
    cases added with
    | room exact' done todo =>
      refine .room ⟨exact.current, exact'⟩ ?_
      simp only [roster, todo, Roster.perform]
      rfl
    | full full =>
      refine .full fun fits => ?_
      rw [Nat.zero_add] at full
      exact absurd fits.2 (Nat.not_le.mpr full)
  | fork later t =>
    obtain ⟨current, next, best⟩ := b
    have added := ThreadList.enqueued_add dir exact.current within.1
    dsimp only [Act.perform, addCurrent] at added ⊢
    generalize current.add dir ran later = result at added
    cases added with
    | room exact' done todo =>
      refine .room ⟨exact', exact.next⟩ ?_
      simp only [roster, done, todo, Roster.perform]
    | full full =>
      refine .full fun fits => ?_
      have room : (current.done ran).length + _ ≤ limit := fits.1
      rw [exact.current.length_done] at room
      exact absurd room (Nat.not_le.mpr full)

theorem achieves_perform_or {a : Act} {halted : Board limit → Prop} (exact : b.Exact size ran)
    (within : a.Within size)
    (full : ¬ ((b.roster ran).perform dir a).Fits limit → ∀ left, halted left) :
    Achieves halted (fun after => after.1 = a.thread ∧ after.2.Exact size ran ∧
      after.2.roster ran = (b.roster ran).perform dir a) (a.perform dir ran b) := by
  have performed := Board.performed dir exact within
  generalize a.perform dir ran b = result at performed
  cases performed with
  | room exact' roster => exact ⟨rfl, exact', roster⟩
  | full overfull => exact full overfull _

theorem achieves_perform {a : Act} (exact : b.Exact size ran) (within : a.Within size)
    (fits : ((b.roster ran).perform dir a).Fits limit) :
    Achieves (fun _ => False) (fun after => after.1 = a.thread ∧ after.2.Exact size ran ∧
      after.2.roster ran = (b.roster ran).perform dir a) (a.perform dir ran b) :=
  achieves_perform_or exact within fun overfull _ => overfull fits

theorem Exact.run_first {rest : List Thread} (exact : b.Exact size ran)
    (first : b.current.todo ran = t :: rest) :
    b.Exact size (ran + 1) ∧
      b.roster (ran + 1) = ⟨b.current.done ran ++ [t], rest, b.next.todo 0, b.best⟩ := by
  obtain ⟨current, done, todo⟩ := exact.current.run_first first
  refine ⟨⟨current, exact.next⟩, ?_⟩
  rw [roster, done, todo]

theorem only_run_first {k : Sieve} {rest : List Thread} (exact : b.Exact size ran)
    (first : b.current.todo ran = t :: rest) (left_out : k.here t.inst = false) :
    (b.roster (ran + 1)).only k = (b.roster ran).only k := by
  rw [(exact.run_first first).2, roster, first]
  simp [Roster.only, Thread.kept, left_out]

/-- Adding a thread to the current list is what a fork does. -/
theorem addCurrent_eq (dir : Direction) (ran : Nat) (t : Thread) (b : Board limit) :
    b.addCurrent dir ran t = ((Act.fork t t).perform dir ran b).map (·.2) := by
  rw [Act.perform]
  cases b.addCurrent dir ran t <;> rfl

theorem Exact.advance (exact : b.Exact size ran) :
    b.advance.Exact size 0 ∧ b.advance.current = b.next ∧ b.advance.next.todo 0 = [] ∧
      b.advance.best = b.best := by
  have cleared : b.current.clear.todo 0 = [] := by
    rw [ThreadList.clear_eq exact.current.sound]
    rfl
  exact ⟨⟨exact.next, exact.current.clear⟩, rfl, cleared, rfl⟩

theorem Exact.first_within {rest : List Thread} (exact : b.Exact size ran)
    (first : b.current.todo ran = t :: rest) : t.inst < size ∧ ran < limit := by
  have member : t ∈ b.current.todo ran := by rw [first]; exact List.mem_cons_self
  have listed : t ∈ b.current.threads := Array.mem_toList_iff.mp (List.mem_of_mem_drop member)
  refine ⟨exact.current.sound.within t listed, ?_⟩
  have more := congrArg List.length first
  rw [ThreadList.todo, List.length_drop, List.length_cons, Array.length_toList] at more
  have room := b.current.size_le
  omega

theorem runFrom_of_nil {p : Program} {c : Cursor} {i : Nat} (nil : b.current.todo i = []) :
    b.runFrom p c i = .ok b := by
  have ends : b.current.threads.size ≤ i := by
    rwa [ThreadList.todo, List.drop_eq_nil_iff, Array.length_toList] at nil
  rw [runFrom, dif_neg (Nat.not_lt.mpr ends)]

theorem runFrom_of_cons {p : Program} {c : Cursor} {i : Nat} {rest : List Thread}
    (first : b.current.todo i = t :: rest) :
    b.runFrom p c i = b.drive p c (i + 1) p.arena.size t >>= (·.runFrom p c (i + 1)) := by
  have head : (b.current.todo i)[0]? = some t := by rw [first, List.getElem?_cons_zero]
  rw [ThreadList.todo, List.getElem?_drop, Nat.add_zero, Array.getElem?_toList] at head
  obtain ⟨more, rfl⟩ := Array.getElem?_eq_some_iff.mp head
  rw [runFrom, dif_pos more]
  cases b.drive p c (i + 1) p.arena.size b.current.threads[i] <;> rfl

end Board

/-! ## Threads at instructions that idle -/

/-- Threads at instructions that a sieve leaves out go on among those, and none of them wins. -/
structure Separates (p : Program) (c : Cursor) (k : Sieve) : Prop where
  closed : p.arena.Closed p.classes
  judges : Judges p c
  idle : ∀ (t : Thread) (a : Act), k.here t.inst = false → t.Does p c a → a.Idle k

theorem Separates.only_drive {limit ran fuel : Nat} {p : Program} {c : Cursor} {t : Thread}
    {k : Sieve} {b b' : Board limit} (separates : Separates p c k)
    (exact : b.Exact p.arena.size ran) (within : t.inst < p.arena.size)
    (left_out : k.here t.inst = false) (ends : b.drive p c ran fuel t = .ok b') :
    b'.Exact p.arena.size ran ∧
      (b'.roster ran).only k = (b.roster ran).only k := by
  induction fuel generalizing t b with
  | zero => cases ends
  | succ fuel ih =>
    rw [Board.drive] at ends
    obtain ⟨⟨o, b₁⟩, hop, rest⟩ := bind_eq_ok.mp ends
    obtain ⟨a, does⟩ := Thread.exists_does separates.closed separates.judges within
    have bounds := does.within separates.closed
    have idle := separates.idle t a left_out does
    have performed := Board.performed c.dir exact bounds
    rw [does.hop_eq] at hop
    rw [hop] at performed
    cases performed with
    | room exact₁ roster =>
      have same : (b₁.roster ran).only k = (b.roster ran).only k := by
        rw [roster, Roster.only_perform_of_idle c.dir _ idle]
      cases goes : a.thread with
      | none =>
        rw [goes] at rest
        cases rest
        exact ⟨exact₁, same⟩
      | some t' =>
        rw [goes] at rest
        obtain ⟨exact', same'⟩ := ih exact₁ (bounds.thread goes) (idle.thread goes) rest
        exact ⟨exact', same'.trans same⟩

/-- Where only threads at such instructions are left to run, running them changes nothing else. -/
theorem Separates.only_runFrom {limit i : Nat} {p : Program} {c : Cursor} {k : Sieve}
    {b b' : Board limit} (separates : Separates p c k) (exact : b.Exact p.arena.size i)
    (none_counts : Thread.kept k.here (b.current.todo i) = []) (ends : b.runFrom p c i = .ok b') :
    ∃ j, b'.Exact p.arena.size j ∧ (b'.roster j).only k = (b.roster i).only k := by
  induction hn : limit - i using Nat.strongRecOn generalizing i b with
  | ind n ih =>
    subst hn
    cases first : b.current.todo i with
    | nil =>
      rw [Board.runFrom_of_nil first] at ends
      cases ends
      exact ⟨i, exact, rfl⟩
    | cons t rest =>
      obtain ⟨within, room⟩ := exact.first_within first
      obtain ⟨exact₁, -⟩ := exact.run_first first
      have left_out : k.here t.inst = false := by
        rw [first, Thread.kept, List.filter_eq_nil_iff] at none_counts
        exact (Bool.not_eq_true _).mp (none_counts t List.mem_cons_self)
      rw [Board.runFrom_of_cons first] at ends
      obtain ⟨b₁, driven, ends⟩ := bind_eq_ok.mp ends
      obtain ⟨exact₂, same⟩ := separates.only_drive exact₁ within left_out driven
      rw [Board.only_run_first exact first left_out] at same
      have none_counts₁ : Thread.kept k.here (b₁.current.todo (i + 1)) = [] :=
        (congrArg Roster.todo same).trans none_counts
      obtain ⟨j, exact', same'⟩ := ih _ (by omega) exact₂ none_counts₁ ends rfl
      exact ⟨j, exact', same'.trans same⟩

end CursorRegex
