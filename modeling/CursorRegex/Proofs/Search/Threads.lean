import CursorRegex.Proofs.Outcome
import CursorRegex.Proofs.Search.Order
import CursorRegex.Search.ThreadList

/-! # What adding a thread does to a list

The index of a list names, for each instruction, a thread that waits there (`Sound`); this is enough to
clear a list through its threads (`clear_eq`).  `Added` lists the three things that adding a thread may
do: nothing, if one as good waits there already, or putting it at the end, or in the place of a worse
one that has not run.  In each case the list afterwards covers the new thread and what it covered
before (`Covers`), and the threads that have run stay where they are. -/
set_option autoImplicit false

namespace CursorRegex.ThreadList

variable {limit size ran : Nat} {dir : Direction} {t : Thread} {l l' : ThreadList limit}

structure Sound (size : Nat) (l : ThreadList limit) : Prop where
  size_index : l.index.size = size
  points : ∀ i place, l.index[i]? = some (some place) →
    ∃ t : Thread, l.threads[place]? = some t ∧ t.inst = i

theorem sound_empty (size : Nat) : (empty size : ThreadList limit).Sound size := by
  refine ⟨Array.size_replicate, fun i place found => ?_⟩
  obtain ⟨bound, value⟩ := Array.getElem?_eq_some_iff.mp found
  simp [empty] at value

theorem Sound.within (sound : l.Sound size) : ∀ t ∈ l.threads, t.inst < size :=
  sound.size_index ▸ l.placed

/-- A thread waits at `inst` whose attempt is as good as one that began at `seed`. -/
def Covers (dir : Direction) (l : ThreadList limit) (inst seed : Nat) : Prop :=
  ∃ t ∈ l.threads, t.inst = inst ∧ dir.prefers seed t.seed = false

theorem Covers.of_not_prefers {inst seed seed' : Nat} (h : l.Covers dir inst seed)
    (worse : dir.prefers seed' seed = false) : l.Covers dir inst seed' := by
  obtain ⟨t, member, at_inst, le⟩ := h
  exact ⟨t, member, at_inst, Direction.not_prefers_trans worse le⟩

theorem not_mem_of_isEmpty (h : l.isEmpty = true) (t : Thread) : t ∉ l.threads := by
  have none_left : l.threads = #[] := by simpa [isEmpty] using h
  simp [none_left]

/-! ## Clearing -/

theorem getElem?_unindex (ts : List Thread) (index : Array (Option Nat))
    (placed : ∀ t ∈ ts, t.inst < index.size) (i : Nat) :
    (unindex ts index placed)[i]? = if ∃ t ∈ ts, t.inst = i then some none else index[i]? := by
  induction ts generalizing index with
  | nil => simp [unindex]
  | cons t ts ih =>
    rw [unindex, ih, Array.getElem?_set]
    by_cases here : t.inst = i <;> simp [here]

theorem clear_eq (sound : l.Sound size) : l.clear = empty size := by
  have cleared : ∀ placed, unindex l.threads.toList l.index placed = .replicate size none := by
    intro placed
    refine Array.ext_getElem? fun i => ?_
    rw [getElem?_unindex, Array.getElem?_replicate, ← sound.size_index]
    by_cases some_thread : ∃ t ∈ l.threads.toList, t.inst = i
    · obtain ⟨t, member, rfl⟩ := some_thread
      rw [if_pos ⟨t, member, rfl⟩, if_pos (placed t member)]
    rw [if_neg some_thread]
    by_cases bound : i < l.index.size
    · rw [Array.getElem?_eq_getElem bound, if_pos bound]
      cases entry : l.index[i] with
      | none => rfl
      | some place =>
        obtain ⟨t, found, at_i⟩ := sound.points i place (by rw [Array.getElem?_eq_getElem bound, entry])
        have member := Array.mem_of_getElem? found
        exact absurd ⟨t, Array.mem_toList_iff.mpr member, at_i⟩ some_thread
    · rw [Array.getElem?_eq_none (Nat.le_of_not_lt bound), if_neg bound]
  simp only [clear, empty, cleared]

theorem sound_clear (sound : l.Sound size) : l.clear.Sound size := by
  rw [clear_eq sound]
  exact sound_empty size

theorem not_mem_clear (l : ThreadList limit) (t : Thread) : t ∉ l.clear.threads :=
  Array.not_mem_empty t

/-! ## Adding -/

inductive Added (dir : Direction) (ran : Nat) (t : Thread) (l l' : ThreadList limit) : Prop where
  | kept {old : Thread} (same : l' = l) (waits : old ∈ l.threads) (at_inst : old.inst = t.inst)
      (worse : dir.prefers t.seed old.seed = false)
  | appended (threads : l'.threads = l.threads.push t)
  | replaced {place : Nat} (fresh : ran ≤ place) (there : place < l.threads.size)
      (at_inst : l.threads[place].inst = t.inst) (better : dir.prefers t.seed l.threads[place].seed = true)
      (threads : l'.threads = l.threads.set place t)

namespace Added

theorem covers_new (h : Added dir ran t l l') : l'.Covers dir t.inst t.seed := by
  cases h with
  | @kept old same waits at_inst worse => exact ⟨old, same ▸ waits, at_inst, worse⟩
  | appended threads =>
    exact ⟨t, threads ▸ Array.mem_push_self, rfl, dir.prefers_irrefl t.seed⟩
  | @replaced place fresh there at_inst better threads =>
    refine ⟨t, threads ▸ Array.mem_of_getElem? (i := place) ?_, rfl, dir.prefers_irrefl t.seed⟩
    exact Array.getElem?_set_self there

theorem covers (h : Added dir ran t l l') {inst seed : Nat} (covered : l.Covers dir inst seed) :
    l'.Covers dir inst seed := by
  obtain ⟨u, member, at_inst', le⟩ := covered
  cases h with
  | kept same => exact ⟨u, same ▸ member, at_inst', le⟩
  | appended threads => exact ⟨u, threads ▸ Array.mem_push_of_mem t member, at_inst', le⟩
  | @replaced place fresh there at_inst better threads =>
    obtain ⟨i, found⟩ := Array.mem_iff_getElem?.mp member
    by_cases here : place = i
    · subst here
      cases (Array.getElem?_eq_getElem there).symm.trans found
      refine ⟨t, threads ▸ Array.mem_of_getElem? (i := place) ?_, at_inst.symm.trans at_inst', ?_⟩
      · exact Array.getElem?_set_self there
      · exact Direction.not_prefers_trans le (Direction.not_prefers_of_prefers better)
    · refine ⟨u, threads ▸ Array.mem_of_getElem? (i := i) ?_, at_inst', le⟩
      rw [Array.getElem?_set_ne there here, found]

theorem getElem?_eq (h : Added dir ran t l l') (within : ran ≤ l.threads.size) {i : Nat}
    (has_run : i < ran) : l'.threads[i]? = l.threads[i]? := by
  cases h with
  | kept same => rw [same]
  | appended threads => rw [threads, Array.getElem?_push_lt (by omega), Array.getElem?_eq_getElem]
  | replaced fresh there at_inst better threads =>
    rw [threads, Array.getElem?_set_ne there (by omega)]

theorem size_le (h : Added dir ran t l l') : l.threads.size ≤ l'.threads.size := by
  cases h with
  | kept same => exact Nat.le_of_eq (same ▸ rfl)
  | appended threads =>
    rw [threads, Array.size_push]
    exact Nat.le_succ _
  | replaced fresh there at_inst better threads =>
    exact Nat.le_of_eq (by rw [threads, Array.size_set])

theorem forall_mem {holds : Thread → Prop} (h : Added dir ran t l l') (new : holds t)
    (all : ∀ u ∈ l.threads, holds u) : ∀ u ∈ l'.threads, holds u := by
  cases h with
  | kept same => exact same ▸ all
  | appended threads =>
    intro u member
    rcases Array.mem_push.mp (threads ▸ member) with old | rfl
    · exact all u old
    · exact new
  | replaced fresh there at_inst better threads =>
    intro u member
    rcases Array.mem_or_eq_of_mem_set (threads ▸ member) with old | rfl
    · exact all u old
    · exact new

end Added

theorem achieves_append (sound : l.Sound size) (placed : t.inst < l.index.size) :
    Achieves (· = l) (fun l' => l'.Sound size ∧ l'.threads = l.threads.push t) (l.append t placed) := by
  unfold append
  by_cases room : l.threads.size < limit
  · rw [dif_pos room]
    refine ⟨⟨(Array.size_set placed).trans sound.size_index, fun i place found => ?_⟩, rfl⟩
    by_cases here : t.inst = i
    · subst here
      rw [Array.getElem?_set_self placed] at found
      cases found
      exact ⟨t, Array.getElem?_push_size, rfl⟩
    · rw [Array.getElem?_set_ne placed here] at found
      obtain ⟨u, waits, at_inst⟩ := sound.points i place found
      obtain ⟨bound, -⟩ := Array.getElem?_eq_some_iff.mp waits
      exact ⟨u, by rw [Array.getElem?_push_lt bound, ← waits, Array.getElem?_eq_getElem], at_inst⟩
  · rw [dif_neg room]
    rfl

theorem sound_replace {place : Nat} (sound : l.Sound size) (there : place < l.threads.size)
    (placed : t.inst < l.index.size) (at_inst : l.threads[place].inst = t.inst) :
    (l.replace place t there placed).Sound size := by
  refine ⟨sound.size_index, fun i place' found => ?_⟩
  obtain ⟨u, waits, at_i⟩ := sound.points i place' found
  by_cases here : place = place'
  · subst here
    cases (Array.getElem?_eq_getElem there).symm.trans waits
    exact ⟨t, Array.getElem?_set_self there, at_inst.symm.trans at_i⟩
  · exact ⟨u, (Array.getElem?_set_ne there here).trans waits, at_i⟩

/-- Adding a thread does one of the things `Added` names, or finds the list full. -/
theorem achieves_add (dir : Direction) (ran : Nat) (sound : l.Sound size)
    (within : t.inst < size) :
    Achieves (· = l) (fun l' => l'.Sound size ∧ Added dir ran t l l') (l.add dir ran t) := by
  have placed : t.inst < l.index.size := sound.size_index ▸ within
  have append : Achieves (· = l) (fun l' => l'.Sound size ∧ Added dir ran t l l') (l.append t placed) :=
    (achieves_append sound placed).mono fun l' h => ⟨h.1, .appended h.2⟩
  unfold add
  rw [dif_pos placed]
  cases latest : l.index[t.inst] with
  | none => exact append
  | some place =>
    have entry := Array.getElem?_eq_getElem placed
    obtain ⟨old, waits, at_inst⟩ := sound.points t.inst place (by rw [entry, latest])
    obtain ⟨there, rfl⟩ := Array.getElem?_eq_some_iff.mp waits
    dsimp only
    rw [dif_pos there]
    by_cases better : dir.prefers t.seed l.threads[place].seed = true
    · rw [if_pos better]
      by_cases has_run : place < ran
      · rw [if_pos has_run]
        exact append
      · rw [if_neg has_run]
        refine ⟨sound_replace sound there placed at_inst, ?_⟩
        exact .replaced (Nat.le_of_not_lt has_run) there at_inst better rfl
    · rw [if_neg better]
      have worse : dir.prefers t.seed l.threads[place].seed = false := (Bool.not_eq_true _).mp better
      exact ⟨sound, .kept rfl (Array.getElem_mem there) at_inst worse⟩

end CursorRegex.ThreadList
