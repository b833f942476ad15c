import CursorRegex.Proofs.Search.Threads

/-! # Lists of threads as queues

A list that is being run has a part that has run and a part that is still to run.  Adding a thread changes
the second part only, and `Thread.enqueue` says how without the index: what counts is the latest thread
for the same instruction.  The index finds it as long as it names the last thread of each instruction, and
a thread takes another's place alone if no two that are still to run wait at one instruction
(`ThreadList.Exact`).  Adding keeps this up (`ThreadList.enqueued_add`). -/
set_option autoImplicit false

namespace CursorRegex

namespace Thread

variable {dir : Direction} {t u : Thread} {i : Nat} {ts done todo : List Thread}

def latest (i : Nat) (ts : List Thread) : Option Thread := (ts.filter (·.inst = i)).getLast?

def supplant (t u : Thread) : Thread := if u.inst = t.inst then t else u

/-- What is still to run once a thread was added. -/
def enqueue (dir : Direction) (t : Thread) (done todo : List Thread) : List Thread :=
  match latest t.inst (done ++ todo) with
  | none => todo ++ [t]
  | some old =>
    if dir.prefers t.seed old.seed then
      if ∃ u ∈ todo, u.inst = t.inst then todo.map t.supplant else todo ++ [t]
    else todo

theorem latest_eq_none_iff : latest i ts = none ↔ ∀ t ∈ ts, t.inst ≠ i := by
  simp [latest]

theorem latest_append_cons {front back : List Thread} (last : ∀ u ∈ back, u.inst ≠ t.inst) :
    latest t.inst (front ++ t :: back) = some t := by
  have nothing : back.filter (·.inst = t.inst) = [] := by simpa using last
  simp [latest, List.filter_append, nothing]

theorem inst_supplant (t u : Thread) : (t.supplant u).inst = u.inst := by
  unfold supplant
  split
  · rename_i same
    exact same.symm
  · rfl

theorem supplant_of_ne (ne : u.inst ≠ t.inst) : t.supplant u = u := if_neg ne

theorem map_supplant_of_forall_ne (other : ∀ u ∈ ts, u.inst ≠ t.inst) : ts.map t.supplant = ts := by
  rw [List.map_congr_left fun u member => supplant_of_ne (other u member), List.map_id']

theorem map_supplant_append_cons {front back : List Thread} (same : u.inst = t.inst)
    (before : ∀ u ∈ front, u.inst ≠ t.inst) (last : ∀ u ∈ back, u.inst ≠ t.inst) :
    (front ++ u :: back).map t.supplant = front ++ t :: back := by
  rw [List.map_append, List.map_cons, map_supplant_of_forall_ne before, map_supplant_of_forall_ne last,
    supplant, if_pos same]

theorem enqueue_cases (dir : Direction) (t : Thread) (done todo : List Thread) :
    t.enqueue dir done todo = todo ++ [t] ∨ t.enqueue dir done todo = todo.map t.supplant ∨
      t.enqueue dir done todo = todo := by
  unfold enqueue
  split
  · exact Or.inl rfl
  · split
    · split
      · exact Or.inr (Or.inl rfl)
      · exact Or.inl rfl
    · exact Or.inr (Or.inr rfl)

theorem nodup_snoc (once : (todo.map (·.inst)).Nodup) (fresh : ∀ u ∈ todo, u.inst ≠ t.inst) :
    ((todo ++ [t]).map (·.inst)).Nodup := by
  rw [List.map_append, List.map_singleton]
  refine List.nodup_append.mpr ⟨once, List.pairwise_singleton _ _, fun i member j new same => ?_⟩
  obtain ⟨u, waits, rfl⟩ := List.mem_map.mp member
  cases List.mem_singleton.mp new
  exact fresh u waits same

end Thread

namespace ThreadList

variable {limit size ran : Nat} {dir : Direction} {t : Thread} {l l' : ThreadList limit}

def done (ran : Nat) (l : ThreadList limit) : List Thread := l.threads.toList.take ran

def todo (ran : Nat) (l : ThreadList limit) : List Thread := l.threads.toList.drop ran

inductive LastPlace (i : Nat) : List Nat → Option Nat → Prop where
  | nowhere {is : List Nat} (absent : i ∉ is) : LastPlace i is none
  | place {front back : List Nat} (last : i ∉ back) :
      LastPlace i (front ++ i :: back) (some front.length)

theorem LastPlace.snoc {i j : Nat} {is : List Nat} {place : Option Nat} (h : LastPlace i is place)
    (ne : j ≠ i) : LastPlace i (is ++ [j]) place := by
  cases h with
  | nowhere absent => exact .nowhere (by simp [absent, Ne.symm ne])
  | @place front back last =>
    rw [List.append_assoc, List.cons_append]
    exact .place (by simp [last, Ne.symm ne])

theorem lastPlace_push {threads : Array Thread} {index : Array (Option Nat)} {i : Nat}
    {place : Option Nat} (bound : t.inst < index.size)
    (names : ∀ i place, index[i]? = some place → LastPlace i (threads.toList.map (·.inst)) place)
    (found : (index.set t.inst (some threads.size))[i]? = some place) :
    LastPlace i ((threads.push t).toList.map (·.inst)) place := by
  rw [Array.toList_push, List.map_append, List.map_singleton]
  by_cases here : t.inst = i
  · subst here
    rw [Array.getElem?_set_self bound] at found
    cases found
    have last : LastPlace t.inst (threads.toList.map (·.inst) ++ t.inst :: []) _ :=
      .place List.not_mem_nil
    rwa [List.length_map, Array.length_toList] at last
  · rw [Array.getElem?_set_ne bound here] at found
    exact (names i place found).snoc here

/-- The index names the last thread of each instruction, and of those that have not run no two wait at
one instruction. -/
structure Exact (size ran : Nat) (l : ThreadList limit) : Prop where
  size_index : l.index.size = size
  names : ∀ i place, l.index[i]? = some place → LastPlace i (l.threads.toList.map (·.inst)) place
  ran_le : ran ≤ l.threads.size
  once : ((l.todo ran).map (·.inst)).Nodup

theorem todo_eq_nil (none_waits : ∀ t, t ∉ l.threads) : l.todo ran = [] := by
  have nothing : l.threads = #[] := Array.eq_empty_iff_forall_not_mem.mpr none_waits
  simp [todo, nothing]

namespace Exact

theorem of_sound (sound : l.Sound size) (none_waits : ∀ t, t ∉ l.threads) : l.Exact size 0 := by
  have nothing : l.threads = #[] := Array.eq_empty_iff_forall_not_mem.mpr none_waits
  refine ⟨sound.size_index, fun i place found => ?_, Nat.zero_le _, ?_⟩
  · cases place with
    | none =>
      rw [nothing]
      exact .nowhere List.not_mem_nil
    | some place =>
      obtain ⟨t, waits, -⟩ := sound.points i place found
      exact absurd (Array.mem_of_getElem? waits) (none_waits t)
  · rw [todo_eq_nil none_waits]
    exact List.nodup_nil

theorem sound (exact : l.Exact size ran) : l.Sound size := by
  refine ⟨exact.size_index, fun i place found => ?_⟩
  have last := exact.names i _ found
  generalize insts : l.threads.toList.map (·.inst) = is at last
  cases last with
  | @place front back last =>
    have there : (l.threads.toList.map (·.inst))[front.length]? = some i := by simp [insts]
    rw [List.getElem?_map, Option.map_eq_some_iff] at there
    obtain ⟨t, found, at_inst⟩ := there
    exact ⟨t, by rw [← Array.getElem?_toList, found], at_inst⟩

theorem empty (size : Nat) : (ThreadList.empty size : ThreadList limit).Exact size 0 := by
  refine ⟨Array.size_replicate, fun i place found => ?_, Nat.zero_le _, List.nodup_nil⟩
  obtain ⟨bound, value⟩ := Array.getElem?_eq_some_iff.mp found
  simp only [ThreadList.empty, Array.getElem_replicate] at value
  subst value
  exact .nowhere List.not_mem_nil

theorem clear (exact : l.Exact size ran) : l.clear.Exact size 0 := by
  rw [clear_eq exact.sound]
  exact .empty size

theorem length_done (exact : l.Exact size ran) : (l.done ran).length = ran := by
  rw [done, List.length_take, Array.length_toList]
  exact Nat.min_eq_left exact.ran_le

theorem add_length_todo (exact : l.Exact size ran) : ran + (l.todo ran).length = l.threads.size := by
  rw [todo, List.length_drop, Array.length_toList]
  exact Nat.add_sub_of_le exact.ran_le

/-- The first thread that is still to run has run next. -/
theorem run_first {rest : List Thread} (exact : l.Exact size ran) (first : l.todo ran = t :: rest) :
    l.Exact size (ran + 1) ∧ l.done (ran + 1) = l.done ran ++ [t] ∧ l.todo (ran + 1) = rest := by
  have behind : l.todo (ran + 1) = rest := by
    have dropped : (l.todo ran).tail = rest := by rw [first, List.tail_cons]
    rw [← dropped, todo, todo, List.tail_drop]
  have there : l.threads.toList[ran]? = some t := by
    have head : (l.todo ran)[0]? = some t := by rw [first, List.getElem?_cons_zero]
    rwa [todo, List.getElem?_drop, Nat.add_zero] at head
  have once := exact.once
  rw [first, List.map_cons, List.nodup_cons] at once
  refine ⟨{ exact with ran_le := ?_, once := behind.symm ▸ once.2 }, ?_, behind⟩
  · obtain ⟨bound, -⟩ := List.getElem?_eq_some_iff.mp there
    exact bound
  · rw [done, List.take_add_one, there]
    rfl

theorem done_append_todo (ran : Nat) (l : ThreadList limit) :
    l.done ran ++ l.todo ran = l.threads.toList := List.take_append_drop ran _

end Exact

/-- What adding a thread to a list may give: the queue with the thread added, or nothing if there is no
room for it. -/
inductive Enqueued (size ran : Nat) (dir : Direction) (t : Thread) (l : ThreadList limit) :
    Except (Halt (ThreadList limit)) (ThreadList limit) → Prop where
  | room {l' : ThreadList limit} (exact : l'.Exact size ran) (done : l'.done ran = l.done ran)
      (todo : l'.todo ran = t.enqueue dir (l.done ran) (l.todo ran)) : Enqueued size ran dir t l (.ok l')
  | full (full : limit < ran + (t.enqueue dir (l.done ran) (l.todo ran)).length) :
      Enqueued size ran dir t l (.error (.overflow l))

theorem enqueued_append (exact : l.Exact size ran) (placed : t.inst < l.index.size)
    (fresh : ∀ u ∈ l.todo ran, u.inst ≠ t.inst)
    (goes : t.enqueue dir (l.done ran) (l.todo ran) = l.todo ran ++ [t]) :
    Enqueued size ran dir t l (l.append t placed) := by
  have once := Thread.nodup_snoc exact.once fresh
  have ran_le : ran ≤ l.threads.toList.length := by
    rw [Array.length_toList]
    exact exact.ran_le
  unfold append
  by_cases room : l.threads.size < limit
  · rw [dif_pos room]
    have done_eq : (l.threads.push t).toList.take ran = l.done ran := by
      rw [done, Array.toList_push, List.take_append_of_le_length ran_le]
    have todo_eq : (l.threads.push t).toList.drop ran = l.todo ran ++ [t] := by
      rw [todo, Array.toList_push, List.drop_append_of_le_length ran_le]
    rw [← todo_eq] at once
    refine .room ⟨?_, ?_, ?_, once⟩ done_eq (todo_eq.trans goes.symm)
    · exact (Array.size_set placed).trans exact.size_index
    · exact fun i place found => lastPlace_push placed exact.names found
    · rw [Array.size_push]
      exact Nat.le_succ_of_le exact.ran_le
  · rw [dif_neg room]
    have count := exact.add_length_todo
    refine .full ?_
    rw [goes, List.length_append, List.length_singleton]
    omega

theorem enqueued_replace {old : Thread} {front back : List Thread} (exact : l.Exact size ran)
    (threads : l.threads.toList = front ++ old :: back) (at_inst : old.inst = t.inst)
    (last : ∀ u ∈ back, u.inst ≠ t.inst) (waits : ran ≤ front.length)
    (there : front.length < l.threads.size) (placed : t.inst < l.index.size)
    (goes : t.enqueue dir (l.done ran) (l.todo ran) = (l.todo ran).map t.supplant) :
    Enqueued size ran dir t l (.ok (l.replace front.length t there placed)) := by
  have replaced : (l.replace front.length t there placed).threads.toList = front ++ t :: back := by
    simp [replace, threads]
  have insts : (l.replace front.length t there placed).threads.toList.map (·.inst) =
      l.threads.toList.map (·.inst) := by
    simp [replaced, threads, at_inst]
  have waiting : l.todo ran = front.drop ran ++ old :: back := by
    rw [todo, threads, List.drop_append_of_le_length waits]
  have todo_eq : (l.replace front.length t there placed).todo ran = front.drop ran ++ t :: back := by
    rw [todo, replaced, List.drop_append_of_le_length waits]
  have before : ∀ u ∈ front.drop ran, u.inst ≠ t.inst := by
    intro u member same
    have once := exact.once
    rw [waiting, List.map_append, List.nodup_append] at once
    refine once.2.2 u.inst (List.mem_map.mpr ⟨u, member, rfl⟩) old.inst ?_ (same.trans at_inst.symm)
    exact List.mem_map.mpr ⟨old, List.mem_cons_self, rfl⟩
  refine .room ⟨exact.size_index, ?_, ?_, ?_⟩ ?_ ?_
  · rw [insts]
    exact exact.names
  · rw [replace, Array.size_set]
    exact exact.ran_le
  · have once := exact.once
    rw [waiting, List.map_append, List.map_cons, at_inst] at once
    rwa [todo_eq, List.map_append, List.map_cons]
  · rw [done, done, replaced, threads, List.take_append_of_le_length waits,
      List.take_append_of_le_length waits]
  · rw [goes, todo_eq, waiting, Thread.map_supplant_append_cons at_inst before last]

/-- If the last thread for an instruction has run, none for it is still to run. -/
theorem ne_of_mem_todo {old : Thread} {front back : List Thread}
    (threads : l.threads.toList = front ++ old :: back) (has_run : front.length < ran)
    (last : ∀ u ∈ back, u.inst ≠ t.inst) : ∀ u ∈ l.todo ran, u.inst ≠ t.inst := by
  intro u member
  obtain ⟨k, rfl⟩ := Nat.exists_eq_add_of_lt has_run
  rw [todo, threads, Nat.add_assoc, ← List.drop_drop, List.drop_left, List.drop_succ_cons] at member
  exact last u (List.mem_of_mem_drop member)

theorem enqueued_add (dir : Direction) (exact : l.Exact size ran) (within : t.inst < size) :
    Enqueued size ran dir t l (l.add dir ran t) := by
  have placed : t.inst < l.index.size := exact.size_index.symm ▸ within
  have entry := Array.getElem?_eq_getElem placed
  have last := exact.names _ _ entry
  have whole := Exact.done_append_todo ran l
  unfold add
  rw [dif_pos placed]
  generalize l.index[t.inst] = place at last
  generalize insts : l.threads.toList.map (·.inst) = is at last
  cases last with
  | nowhere absent =>
    have none_waits : ∀ u ∈ l.threads.toList, u.inst ≠ t.inst := by
      intro u member same
      exact absent (insts ▸ List.mem_map.mpr ⟨u, member, same⟩)
    refine enqueued_append exact placed (fun u member => none_waits u (List.mem_of_mem_drop member)) ?_
    rw [Thread.enqueue, whole, Thread.latest_eq_none_iff.mpr none_waits]
  | @place front back last =>
    obtain ⟨front, rest, threads, rfl, rest_insts⟩ := List.map_eq_append_iff.mp insts
    obtain ⟨old, back, rfl, at_inst, rfl⟩ := List.map_eq_cons_iff.mp rest_insts
    have none_behind : ∀ u ∈ back, u.inst ≠ old.inst := by
      intro u member same
      exact last (List.mem_map.mpr ⟨u, member, same.trans at_inst⟩)
    have there : front.length < l.threads.size := by
      rw [← Array.length_toList, threads, List.length_append, List.length_cons]
      omega
    have found : l.threads[front.length] = old := by
      rw [← Array.getElem_toList]
      simp [threads]
    have latest : Thread.latest t.inst (l.done ran ++ l.todo ran) = some old := by
      rw [whole, threads, ← at_inst]
      exact Thread.latest_append_cons none_behind
    have none_behind' : ∀ u ∈ back, u.inst ≠ t.inst := at_inst ▸ none_behind
    simp only [List.length_map, dif_pos there, found]
    by_cases better : dir.prefers t.seed old.seed = true
    · rw [if_pos better]
      by_cases has_run : front.length < ran
      · rw [if_pos has_run]
        have fresh := ne_of_mem_todo threads has_run none_behind'
        have none_waits : ¬ ∃ u ∈ l.todo ran, u.inst = t.inst :=
          fun ⟨u, member, same⟩ => fresh u member same
        refine enqueued_append exact placed fresh ?_
        simp only [Thread.enqueue, latest, if_pos better, if_neg none_waits]
      · rw [if_neg has_run]
        have waits := Nat.le_of_not_lt has_run
        have one_waits : ∃ u ∈ l.todo ran, u.inst = t.inst := by
          refine ⟨old, ?_, at_inst⟩
          rw [todo, threads, List.drop_append_of_le_length waits]
          exact List.mem_append_right _ List.mem_cons_self
        refine enqueued_replace exact threads at_inst none_behind' waits there placed ?_
        simp only [Thread.enqueue, latest, if_pos better, if_pos one_waits]
    · rw [if_neg better]
      refine .room exact rfl ?_
      simp only [Thread.enqueue, latest, if_neg better]

end ThreadList

end CursorRegex
