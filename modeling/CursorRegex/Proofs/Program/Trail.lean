import CursorRegex.Program.Arena

/-! # Links followed to their end

`Trail next i l r` says that following `next` from `i` passes the places `l` and ends at `r`, where
there is no link.  A link that is followed twice is followed for ever, so a trail meets no place
twice, and one that stays below `n` has at most `n` places (`Trail.length_le`).  This is what the
bounds rest on, both where links are shortened and where threads are run. -/
set_option autoImplicit false

namespace CursorRegex

inductive Trail (next : Nat → Option Nat) : Nat → List Nat → Nat → Prop where
  | stop {i : Nat} (here : next i = none) : Trail next i [i] i
  | step {i j r : Nat} {l : List Nat} (here : next i = some j) (rest : Trail next j l r) :
      Trail next i (i :: l) r

namespace Trail

variable {next : Nat → Option Nat} {i r : Nat} {l : List Nat}

theorem unique {l' : List Nat} {r' : Nat} (h : Trail next i l r) (h' : Trail next i l' r') :
    l = l' ∧ r = r' := by
  induction h generalizing l' with
  | stop here =>
    cases h' with
    | stop => exact ⟨rfl, rfl⟩
    | step here' => simp [here] at here'
  | step here _ ih =>
    cases h' with
    | stop here' => simp [here] at here'
    | step here' rest' =>
      cases here.symm.trans here'
      obtain ⟨rfl, rfl⟩ := ih rest'
      exact ⟨rfl, rfl⟩

theorem next_end (h : Trail next i l r) : next r = none := by
  induction h with
  | stop here => exact here
  | step _ _ ih => exact ih

theorem of_mem {j : Nat} (h : Trail next i l r) (member : j ∈ l) :
    ∃ l', Trail next j l' r ∧ l'.length ≤ l.length := by
  induction h with
  | @stop i here =>
    rw [List.mem_singleton.mp member]
    exact ⟨[i], .stop here, Nat.le_refl _⟩
  | @step i k r l here rest ih =>
    rcases List.mem_cons.mp member with rfl | member
    · exact ⟨_, .step here rest, Nat.le_refl _⟩
    · obtain ⟨l', trail, shorter⟩ := ih member
      exact ⟨l', trail, Nat.le_succ_of_le shorter⟩

theorem nodup (h : Trail next i l r) : l.Nodup := by
  induction h with
  | stop => simp
  | @step i j r l here rest ih =>
    refine List.nodup_cons.mpr ⟨fun again => ?_, ih⟩
    obtain ⟨l', trail, shorter⟩ := rest.of_mem again
    obtain ⟨same, -⟩ := trail.unique (.step here rest)
    rw [same, List.length_cons] at shorter
    omega

theorem length_le {n : Nat} (h : Trail next i l r) (bound : ∀ j ∈ l, j < n) : l.length ≤ n := by
  have subset : l ⊆ List.range n := fun j member => List.mem_range.mpr (bound j member)
  have shorter := h.nodup.length_le_of_subset subset
  rwa [List.length_range] at shorter

theorem mem_cases {j : Nat} (h : Trail next i l r) (member : j ∈ l) :
    j = r ∨ ∃ k, next j = some k := by
  induction h with
  | stop => exact Or.inl (List.mem_singleton.mp member)
  | @step i k r l here rest ih =>
    rcases List.mem_cons.mp member with rfl | member
    · exact Or.inr ⟨k, here⟩
    · exact ih member

theorem end_mem (h : Trail next i l r) : r ∈ l := by
  induction h with
  | stop => exact List.mem_singleton_self _
  | step _ _ ih => exact List.mem_cons_of_mem _ ih

theorem forall_mem {S : Nat → Prop} (closed : ∀ i j, S i → next i = some j → S j)
    (h : Trail next i l r) (begins : S i) : ∀ j ∈ l, S j := by
  induction h with
  | stop => simpa using begins
  | @step i j r l here rest ih =>
    intro k member
    rcases List.mem_cons.mp member with rfl | member
    · exact begins
    · exact ih (closed _ _ begins here) k member

theorem congr {next' : Nat → Option Nat} (h : Trail next i l r)
    (same : ∀ j ∈ l, next' j = next j) : Trail next' i l r := by
  induction h with
  | stop here => exact .stop ((same _ List.mem_cons_self).trans here)
  | step here _ ih =>
    refine .step ((same _ List.mem_cons_self).trans here) (ih fun j member => ?_)
    exact same j (List.mem_cons_of_mem _ member)

end Trail

end CursorRegex
