import CursorRegex.Proofs.Program.Trail

/-! # What shortening links does to an arena

`Resolves i r` says that the first place on the way from `i` that is not an empty instruction with a
successor is `r`.  Shortening sends each link in its range to the place its target resolves to and
changes nothing else (`shorten_eq`).  The links are rewritten in place, so later walks follow links
rewritten before; `Resolves.setNext` says that this makes no difference. -/
set_option autoImplicit false

namespace CursorRegex.Arena

variable {a : Arena} {i j r : Nat}

def emptyNext (a : Arena) (i : Nat) : Option Nat :=
  match a.get? i with
  | some ⟨.empty, next⟩ => next
  | _ => none

def Resolves (a : Arena) (i r : Nat) : Prop := r < a.size ∧ ∃ l, Trail a.emptyNext i l r

theorem lt_size_of_get? {inst : Instruction} (here : a.get? i = some inst) : i < a.size :=
  (Array.getElem?_eq_some_iff.mp here).1

theorem exists_get? (bound : i < a.size) : ∃ inst, a.get? i = some inst :=
  ⟨_, Array.getElem?_eq_getElem bound⟩

theorem get?_of_emptyNext (h : a.emptyNext i = some j) : a.get? i = some ⟨.empty, some j⟩ := by
  unfold emptyNext at h
  split at h
  · rename_i here
    rw [here, h]
  · cases h

theorem Resolves.unique {r' : Nat} (h : a.Resolves i r) (h' : a.Resolves i r') : r = r' := by
  obtain ⟨-, l, trail⟩ := h
  obtain ⟨-, l', trail'⟩ := h'
  exact (trail.unique trail').2

theorem Resolves.stop {inst : Instruction} (here : a.get? i = some inst)
    (ne : inst.kind ≠ .empty ∨ inst.next = none) : a.Resolves i i := by
  refine ⟨lt_size_of_get? here, [i], .stop ?_⟩
  obtain ⟨kind, next⟩ := inst
  unfold emptyNext
  rw [here]
  cases kind <;> simp_all

theorem Resolves.skip (here : a.get? i = some ⟨.empty, some j⟩) (rest : a.Resolves j r) :
    a.Resolves i r := by
  obtain ⟨bound, l, trail⟩ := rest
  refine ⟨bound, i :: l, .step ?_ trail⟩
  rw [emptyNext, here]

/-! ## Finding where a link leads -/

theorem skipEmpty_of_trail {l : List Nat} (trail : Trail a.emptyNext i l r) (bound : r < a.size)
    {fuel : Nat} (enough : l.length ≤ fuel) : a.skipEmpty fuel i = .ok r := by
  induction trail generalizing fuel with
  | @stop i here =>
    obtain ⟨fuel, rfl⟩ := Nat.exists_eq_add_of_lt (show 0 < fuel from enough)
    obtain ⟨⟨kind, next⟩, found⟩ := exists_get? bound
    rw [emptyNext, found] at here
    rw [Nat.zero_add, skipEmpty, found]
    cases kind with
    | empty =>
      cases next with
      | none => rfl
      | some target => simp at here
    | _ => rfl
  | @step i k r l here rest ih =>
    rw [List.length_cons] at enough
    obtain ⟨fuel, rfl⟩ := Nat.exists_eq_add_of_lt (show 0 < fuel by omega)
    rw [Nat.zero_add, skipEmpty, get?_of_emptyNext here]
    exact ih bound (by omega)

/-- A walk that ends passes each place at most once, so there is fuel for it. -/
theorem skipEmpty_of_resolves (h : a.Resolves i r) : a.skipEmpty (a.size + 1) i = .ok r := by
  obtain ⟨bound, l, trail⟩ := h
  refine skipEmpty_of_trail trail bound (Nat.le_succ_of_le (trail.length_le fun j member => ?_))
  rcases trail.mem_cases member with rfl | ⟨k, link⟩
  · exact bound
  · exact lt_size_of_get? (get?_of_emptyNext link)

theorem shortcut_of_resolves {kind : Kind} (here : a.get? i = some ⟨kind, some j⟩)
    (h : a.Resolves j r) : a.shortcut i = .ok (some r) := by
  rw [shortcut, here]
  simp only [skipEmpty_of_resolves h]
  rfl

/-! ## Rewriting a link -/

theorem get?_setNext_self {kind : Kind} {next : Option Nat} (here : a.get? i = some ⟨kind, next⟩)
    (target : Nat) : (a.setNext i target).get? i = some ⟨kind, some target⟩ := by
  rw [get?_setNext, if_pos rfl, here]
  rfl

theorem get?_setNext_ne (ne : i ≠ j) (target : Nat) :
    (a.setNext i target).get? j = a.get? j := by
  rw [get?_setNext, if_neg ne]

theorem emptyNext_setNext_ne (ne : i ≠ j) (target : Nat) :
    (a.setNext i target).emptyNext j = a.emptyNext j := by
  rw [emptyNext, emptyNext, get?_setNext_ne ne]

theorem Resolves.setNext {source target x : Nat} {kind : Kind} (h : a.Resolves i x)
    (here : a.get? source = some ⟨kind, some target⟩) (leads : a.Resolves target r) :
    (a.setNext source r).Resolves i x := by
  obtain ⟨bound, l, trail⟩ := h
  refine ⟨by rwa [size_setNext], ?_⟩
  have written := get?_setNext_self here r
  by_cases empty : kind = .empty
  · subst empty
    have source_next : a.emptyNext source = some target := by rw [emptyNext, here]
    induction trail with
    | @stop i stops =>
      have ne : source ≠ i := by
        intro same
        rw [← same, source_next] at stops
        cases stops
      exact ⟨[i], .stop ((emptyNext_setNext_ne ne r).trans stops)⟩
    | @step i k x l link rest ih =>
      by_cases same : source = i
      · subst same
        have ends : r = x := by
          cases source_next.symm.trans link
          exact leads.unique ⟨bound, l, rest⟩
        subst ends
        have ne : source ≠ r := by
          intro same
          have stops := rest.next_end
          rw [← same, source_next] at stops
          cases stops
        have last : Trail (a.setNext source r).emptyNext r [r] r :=
          .stop ((emptyNext_setNext_ne ne r).trans rest.next_end)
        exact ⟨_, .step (by rw [emptyNext, written]) last⟩
      · obtain ⟨l', trail'⟩ := ih bound
        exact ⟨_, .step ((emptyNext_setNext_ne same r).trans link) trail'⟩
  · refine ⟨l, trail.congr fun j _ => ?_⟩
    by_cases same : source = j
    · subst same
      rw [emptyNext, emptyNext, written, here]
      cases kind <;> first | rfl | exact absurd rfl empty
    · exact emptyNext_setNext_ne same r

/-! ## Rewriting a range -/

inductive Shortened (a : Arena) (inst : Instruction) : Instruction → Prop where
  | unlinked (last : inst.next = none) : Shortened a inst inst
  | linked {target r : Nat} (link : inst.next = some target) (leads : a.Resolves target r) :
      Shortened a inst ⟨inst.kind, some r⟩

theorem Shortened.of_setNext {i j r : Nat} {kind : Kind} {inst inst' : Instruction}
    (here : a.get? i = some ⟨kind, some j⟩) (resolved : a.Resolves j r)
    (leads : ∀ target, inst.next = some target → ∃ x, a.Resolves target x)
    (h : Shortened (a.setNext i r) inst inst') : Shortened a inst inst' := by
  cases h with
  | unlinked last => exact .unlinked last
  | @linked target r' link resolved' =>
    obtain ⟨x, before⟩ := leads target link
    rw [resolved'.unique (before.setNext here resolved)]
    exact .linked link before

theorem shortenFrom_eq {start count : Nat} (within : start + count ≤ a.size)
    (leads : ∀ i kind target, start ≤ i → a.get? i = some ⟨kind, some target⟩ →
      ∃ r, a.Resolves target r) :
    ∃ a', a.shortenFrom start count = (a', none) ∧
      (∀ i, i < start ∨ start + count ≤ i → a'.get? i = a.get? i) ∧
      ∀ i inst, start ≤ i → i < start + count → a.get? i = some inst →
        ∃ inst', a'.get? i = some inst' ∧ Shortened a inst inst' := by
  induction count generalizing a start with
  | zero => exact ⟨a, rfl, fun _ _ => rfl, fun i inst _ _ => by omega⟩
  | succ count ih =>
    obtain ⟨⟨kind, next⟩, here⟩ := exists_get? (show start < a.size by omega)
    cases next with
    | none =>
      have rest : start + 1 + count ≤ a.size := by omega
      obtain ⟨a', run, outside, inside⟩ := ih rest fun i kind target after =>
        leads i kind target (by omega)
      refine ⟨a', ?_, fun i out => outside i (by omega), fun i inst low high found => ?_⟩
      · have shortcut : a.shortcut start = .ok none := by rw [Arena.shortcut, here]
        rw [shortenFrom, shortcut]
        exact run
      · by_cases first : i = start
        · subst first
          rw [here] at found
          cases found
          exact ⟨_, (outside i (by omega)).trans here, .unlinked rfl⟩
        · exact inside i inst (by omega) (by omega) found
    | some target =>
      obtain ⟨r, resolved⟩ := leads start kind target (Nat.le_refl _) here
      have rest : start + 1 + count ≤ (a.setNext start r).size := by
        rw [size_setNext]
        omega
      obtain ⟨a', run, outside, inside⟩ := ih rest fun i kind target after found => by
        rw [get?_setNext_ne (by omega)] at found
        obtain ⟨x, h⟩ := leads i kind target (by omega) found
        exact ⟨x, h.setNext here resolved⟩
      refine ⟨a', ?_, fun i out => ?_, fun i inst low high found => ?_⟩
      · rw [shortenFrom, shortcut_of_resolves here resolved]
        exact run
      · rw [outside i (by omega), get?_setNext_ne (by omega)]
      · by_cases first : i = start
        · subst first
          rw [here] at found
          cases found
          exact ⟨_, (outside i (by omega)).trans (get?_setNext_self here r), .linked rfl resolved⟩
        · have unchanged : (a.setNext start r).get? i = some inst := by
            rwa [get?_setNext_ne (Ne.symm first)]
          obtain ⟨inst', found', short⟩ := inside i inst (by omega) (by omega) unchanged
          refine ⟨inst', found', short.of_setNext here resolved fun target' link => ?_⟩
          obtain ⟨kind', next'⟩ := inst
          cases link
          exact leads i kind' target' low found

theorem shorten_eq {start stop : Nat} (order : start ≤ stop) (within : stop ≤ a.size)
    (leads : ∀ i kind target, start ≤ i → a.get? i = some ⟨kind, some target⟩ →
      ∃ r, a.Resolves target r) :
    ∃ a', a.shorten start stop = (a', none) ∧
      (∀ i, i < start ∨ stop ≤ i → a'.get? i = a.get? i) ∧
      ∀ i inst, start ≤ i → i < stop → a.get? i = some inst →
        ∃ inst', a'.get? i = some inst' ∧ Shortened a inst inst' := by
  have split : start + (stop - start) = stop := by omega
  obtain ⟨a', run, outside, inside⟩ := shortenFrom_eq (split.symm ▸ within) leads
  rw [split] at outside inside
  exact ⟨a', run, outside, inside⟩

end CursorRegex.Arena
