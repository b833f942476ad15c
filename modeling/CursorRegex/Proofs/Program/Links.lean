import CursorRegex.Proofs.Pattern.References
import CursorRegex.Proofs.Program.Layout
import CursorRegex.Proofs.Program.Shortened

/-! # Links lead to the end of a program

In a program as it is assembled, following successors from any instruction ends (`Term.ends_code`):
loops are closed by forks only, and a fork loops through its right branch.  So every link can be
shortened (`Ends.resolves`), and shortening keeps this (`Ends.shortened`).  An arena where it holds and
where no reference leads outside is `Closed`. -/
set_option autoImplicit false

namespace CursorRegex

/-- A trail of `next` that follows `next'` at first goes on from where `next'` stops. -/
theorem Trail.through {next next' : Nat → Option Nat} {i r r' : Nat} {l l' : List Nat}
    (sub : ∀ j k, next' j = some k → next j = some k) (h : Trail next i l r)
    (h' : Trail next' i l' r') : ∃ l'', Trail next r' l'' r ∧ l''.length ≤ l.length := by
  induction h' generalizing l with
  | stop => exact ⟨l, h, Nat.le_refl _⟩
  | @step i j r' l' here rest ih =>
    have link := sub i j here
    cases h with
    | stop ends =>
      rw [link] at ends
      cases ends
    | step link' trail =>
      cases link.symm.trans link'
      obtain ⟨l'', trail', shorter⟩ := ih trail
      exact ⟨l'', trail', Nat.le_succ_of_le shorter⟩

namespace Arena

variable {a a' : Arena} {i j : Nat}

def nextOf (a : Arena) (i : Nat) : Option Nat := (a.get? i).bind (·.next)

def Ends (a : Arena) (i : Nat) : Prop := ∃ r, r < a.size ∧ ∃ l, Trail a.nextOf i l r

theorem nextOf_of_emptyNext (h : a.emptyNext i = some j) : a.nextOf i = some j := by
  rw [nextOf, get?_of_emptyNext h]
  rfl

theorem Ends.stop {kind : Kind} (here : a.get? i = some ⟨kind, none⟩) : a.Ends i :=
  ⟨i, lt_size_of_get? here, [i], .stop (by rw [nextOf, here]; rfl)⟩

theorem Ends.step {kind : Kind} (here : a.get? i = some ⟨kind, some j⟩) (rest : a.Ends j) :
    a.Ends i := by
  obtain ⟨r, within, l, trail⟩ := rest
  exact ⟨r, within, i :: l, .step (by rw [nextOf, here]; rfl) trail⟩

theorem Ends.lt_size (h : a.Ends i) : i < a.size := by
  obtain ⟨r, within, l, trail⟩ := h
  cases trail with
  | stop => exact within
  | step here =>
    rw [nextOf, Option.bind_eq_some_iff] at here
    obtain ⟨inst, found, -⟩ := here
    exact lt_size_of_get? found

def EndsBetween (a : Arena) (lo hi : Nat) : Prop := ∀ i, lo ≤ i → i < hi → a.Ends i

theorem EndsBetween.single (h : a.Ends i) : a.EndsBetween i (i + 1) := by
  intro i' low high
  have here : i' = i := by omega
  rwa [here]

theorem EndsBetween.append {lo mid hi : Nat} (h : a.EndsBetween lo mid)
    (h' : a.EndsBetween mid hi) : a.EndsBetween lo hi := by
  intro i low high
  by_cases before : i < mid
  · exact h i low before
  · exact h' i (Nat.le_of_not_lt before) high

theorem lt_size_of_trail {r : Nat} {l : List Nat} (within : r < a.size)
    (trail : Trail a.nextOf i l r) : ∀ j ∈ l, j < a.size := by
  intro j member
  obtain ⟨l', trail', -⟩ := trail.of_mem member
  exact Ends.lt_size ⟨r, within, l', trail'⟩

/-- Following successors takes no more steps than there are instructions. -/
theorem Ends.bounded (h : a.Ends i) : ∃ r l, Trail a.nextOf i l r ∧ l.length ≤ a.size := by
  obtain ⟨r, within, l, trail⟩ := h
  exact ⟨r, l, trail, trail.length_le (lt_size_of_trail within trail)⟩

theorem Ends.next {kind : Kind} (h : a.Ends i) (here : a.get? i = some ⟨kind, some j⟩) :
    a.Ends j := by
  obtain ⟨r, within, l, trail⟩ := h
  have link : a.nextOf i = some j := by rw [nextOf, here]; rfl
  cases trail with
  | stop ends =>
    rw [link] at ends
    cases ends
  | step link' rest =>
    cases link.symm.trans link'
    exact ⟨r, within, _, rest⟩

/-- The way through empty instructions ends, because the way through all does. -/
theorem Ends.resolves (h : a.Ends i) : ∃ r, a.Resolves i r := by
  have bound := h.lt_size
  obtain ⟨r, within, l, trail⟩ := h
  induction trail with
  | @stop i here =>
    have stops : a.emptyNext i = none := by
      cases next : a.emptyNext i with
      | none => rfl
      | some j =>
        rw [nextOf_of_emptyNext next] at here
        cases here
    exact ⟨i, bound, [i], .stop stops⟩
  | @step i j r l here rest ih =>
    cases next : a.emptyNext i with
    | none => exact ⟨i, bound, [i], .stop next⟩
    | some k =>
      cases here.symm.trans (nextOf_of_emptyNext next)
      have bound' : j < a.size := Ends.lt_size ⟨r, within, l, rest⟩
      obtain ⟨x, leads⟩ := ih bound' within
      exact ⟨x, leads.skip (get?_of_emptyNext next)⟩

theorem Ends.shortened (size : a'.size = a.size)
    (links : ∀ i, a'.nextOf i = a.nextOf i ∨
      ∃ target r, a.nextOf i = some target ∧ a.Resolves target r ∧ a'.nextOf i = some r)
    (h : a.Ends i) : a'.Ends i := by
  obtain ⟨r, within, l, trail⟩ := h
  refine ⟨r, size ▸ within, ?_⟩
  -- a shortened link jumps ahead on the trail, so the rest gets shorter
  induction hn : l.length using Nat.strongRecOn generalizing i l with
  | ind n ih =>
    subst hn
    cases trail with
    | stop here =>
      rcases links r with same | ⟨target, x, link, -, -⟩
      · exact ⟨[r], .stop (same.trans here)⟩
      · rw [here] at link
        cases link
    | @step i j r l here rest =>
      rcases links i with same | ⟨target, x, link, ⟨-, skipped, empties⟩, written⟩
      · obtain ⟨l', trail'⟩ := ih l.length (Nat.lt_succ_self _) l rest rfl
        exact ⟨i :: l', .step (same.trans here) trail'⟩
      · cases here.symm.trans link
        obtain ⟨l₁, ahead, shorter⟩ := rest.through (fun _ _ => nextOf_of_emptyNext) empties
        obtain ⟨l', trail'⟩ := ih l₁.length (Nat.lt_succ_of_le shorter) l₁ ahead rfl
        exact ⟨i :: l', .step written trail'⟩

end Arena

/-! ## Blocks of instructions -/

def Arena.Has (a : Arena) (lo : Nat) (code : List Instruction) : Prop :=
  ∀ i inst, code[i]? = some inst → a.get? (lo + i) = some inst

namespace Arena

variable {a : Arena} {lo : Nat} {inst : Instruction} {front code more : List Instruction}

theorem has_nil : a.Has lo [] := nofun

theorem has_cons : a.Has lo (inst :: code) ↔ a.get? lo = some inst ∧ a.Has (lo + 1) code := by
  constructor
  · intro has
    refine ⟨has 0 inst rfl, fun i inst' found => ?_⟩
    have next := has (i + 1) inst' found
    rwa [← Nat.add_assoc, Nat.add_right_comm] at next
  · rintro ⟨here, has⟩ i inst' found
    cases i with
    | zero =>
      cases found
      exact here
    | succ i =>
      have next := has i inst' found
      rwa [Nat.add_right_comm, Nat.add_assoc] at next

theorem has_append :
    a.Has lo (code ++ more) ↔ a.Has lo code ∧ a.Has (lo + code.length) more := by
  induction code generalizing lo with
  | nil => simp [has_nil]
  | cons inst code ih =>
    have place : lo + 1 + code.length = lo + (inst :: code).length := by
      rw [List.length_cons]
      omega
    rw [List.cons_append, has_cons, has_cons, ih, place, and_assoc]

theorem has_of_toList (h : a.insts.toList = front ++ code) : a.Has front.length code := by
  intro i inst found
  rw [get?, ← Array.getElem?_toList, h, List.getElem?_append_right (Nat.le_add_right _ _),
    Nat.add_sub_cancel_left]
  exact found

end Arena

namespace Term

variable {a : Arena} {dir : Direction}

/-- If the way behind a block ends, so does the way from each place in it. -/
theorem ends_code {e : Term} {lo n : Nat} (has : a.Has lo (e.code dir lo (some n)))
    (ends : a.Ends n) : a.EndsBetween lo (lo + e.size) := by
  induction e generalizing lo n with
  | atom x =>
    simp only [code, Arena.has_cons] at has
    exact .single (.step has.1 ends)
  | group opening number body ih =>
    simp only [code, Arena.has_append, Arena.has_cons, length_code] at has
    obtain ⟨inside, close, opened, -⟩ := has
    have close_ends : a.Ends (lo + body.size) := .step close ends
    have body_ends := ih inside close_ends
    have entry := first_mem dir body lo
    have open_ends : a.Ends (lo + body.size + 1) := .step opened (body_ends _ entry.1 entry.2)
    exact (body_ends.append (.single close_ends)).append (.single open_ends)
  | repeated q body ih =>
    cases q with
    | star | plus =>
      simp only [code, Arena.has_append, Arena.has_cons, length_code] at has
      obtain ⟨inside, fork, -⟩ := has
      have fork_ends : a.Ends (lo + body.size) := .step fork ends
      exact (ih inside fork_ends).append (.single fork_ends)
    | quest =>
      simp only [code, Arena.has_append, Arena.has_cons, length_code] at has
      obtain ⟨inside, fork, exit, -⟩ := has
      have exit_ends : a.Ends (lo + body.size + 1) := .step exit ends
      have fork_ends : a.Ends (lo + body.size) := .step fork exit_ends
      exact ((ih inside exit_ends).append (.single fork_ends)).append (.single exit_ends)
  | sequence fst snd ih ih' =>
    rw [size, ← Nat.add_assoc]
    cases dir with
    | forward =>
      simp only [code, Arena.has_append, length_code] at has
      have snd_ends := ih' has.2 ends
      have entry := first_mem .forward snd (lo + fst.size)
      exact (ih has.1 (snd_ends _ entry.1 entry.2)).append snd_ends
    | backward =>
      simp only [code, Arena.has_append, length_code] at has
      have fst_ends := ih has.1 ends
      have entry := first_mem .backward fst lo
      exact fst_ends.append (ih' has.2 (fst_ends _ entry.1 entry.2))
  | alternate fst snd ih ih' =>
    simp only [code, Arena.has_append, Arena.has_cons, length_code] at has
    obtain ⟨inside_fst, inside_snd, exit, fork, -⟩ := has
    have exit_ends : a.Ends (lo + fst.size + snd.size) := .step exit ends
    have snd_ends := ih' inside_snd exit_ends
    have entry := first_mem dir snd (lo + fst.size)
    have fork_ends : a.Ends (lo + fst.size + snd.size + 1) :=
      .step fork (snd_ends _ entry.1 entry.2)
    rw [size, ← Nat.add_assoc, ← Nat.add_assoc]
    have blocks := (ih inside_fst exit_ends).append snd_ends
    exact (blocks.append (.single exit_ends)).append (.single fork_ends)

end Term

/-! ## References -/

/-- What the instruction refers to is there: an entry of the class table, a mark, a right branch among the
first `size` instructions. -/
def Kind.Refers (classes : ClassTable) (size : Nat) : Kind → Prop
  | .atom a => a.Refers classes
  | .openGroup number | .closeGroup number => Recorded number
  | .fork right => right < size
  | .empty | .accept => True

theorem Kind.Refers.mono {classes : ClassTable} {size more : Nat} {kind : Kind} (h : kind.Refers classes size)
    (le : size ≤ more) : kind.Refers classes more := by
  cases kind with
  | fork right => exact Nat.lt_of_lt_of_le h le
  | atom | openGroup | closeGroup | empty | accept => exact h

def Instruction.Linked (classes : ClassTable) (size : Nat) (inst : Instruction) : Prop :=
  inst.kind.Refers classes size ∧ inst.next ≠ none

theorem Instruction.Linked.mono {classes : ClassTable} {size more : Nat} {inst : Instruction}
    (h : inst.Linked classes size) (le : size ≤ more) : inst.Linked classes more :=
  ⟨h.1.mono le, h.2⟩

theorem Term.refers_code {classes : ClassTable} {dir : Direction} {e : Term} (refers : e.Refers classes)
    (lo n : Nat) : ∀ inst ∈ e.code dir lo (some n), inst.Linked classes (lo + e.size) := by
  induction e generalizing lo n with
  | atom x =>
    intro inst member
    rw [List.mem_singleton.mp member]
    exact ⟨refers, Option.some_ne_none n⟩
  | group opening number body ih =>
    obtain ⟨recorded, refers⟩ := refers
    intro inst member
    simp only [code, List.mem_append, List.mem_cons, List.not_mem_nil, or_false] at member
    rcases member with inside | rfl | rfl
    · exact (ih refers lo _ inst inside).mono (by simp only [size]; omega)
    · exact ⟨recorded, Option.some_ne_none _⟩
    · exact ⟨recorded, Option.some_ne_none _⟩
  | repeated q body ih =>
    intro inst member
    have entry := first_mem dir body lo
    cases q with
    | star | plus =>
      simp only [code, List.mem_append, List.mem_cons, List.not_mem_nil, or_false] at member
      rcases member with inside | rfl
      · exact (ih refers lo _ inst inside).mono (by simp only [size]; omega)
      · refine ⟨?_, Option.some_ne_none _⟩
        simp only [Kind.Refers, size]
        omega
    | quest =>
      simp only [code, List.mem_append, List.mem_cons, List.not_mem_nil, or_false] at member
      rcases member with inside | rfl | rfl
      · exact (ih refers lo _ inst inside).mono (by simp only [size]; omega)
      · refine ⟨?_, Option.some_ne_none _⟩
        simp only [Kind.Refers, size]
        omega
      · exact ⟨trivial, Option.some_ne_none _⟩
  | sequence fst snd ih ih' =>
    obtain ⟨fst_refers, snd_refers⟩ := refers
    intro inst member
    have sizes : lo + fst.size + snd.size = lo + (Term.sequence fst snd).size := by
      simp only [size]
      omega
    cases dir with
    | forward | backward =>
      simp only [code, List.mem_append] at member
      rcases member with inside | inside
      · exact (ih fst_refers lo _ inst inside).mono (by simp only [size]; omega)
      · exact (ih' snd_refers (lo + fst.size) _ inst inside).mono (Nat.le_of_eq sizes)
  | alternate fst snd ih ih' =>
    obtain ⟨fst_refers, snd_refers⟩ := refers
    intro inst member
    have entry := first_mem dir fst lo
    simp only [code, List.mem_append, List.mem_cons, List.not_mem_nil, or_false] at member
    rcases member with inside | inside | rfl | rfl
    · exact (ih fst_refers lo _ inst inside).mono (by simp only [size]; omega)
    · exact (ih' snd_refers (lo + fst.size) _ inst inside).mono (by simp only [size]; omega)
    · exact ⟨trivial, Option.some_ne_none _⟩
    · refine ⟨?_, Option.some_ne_none _⟩
      simp only [Kind.Refers, size]
      omega

theorem refers_programCode {classes : ClassTable} {dir : Direction} {o : Option Term}
    (refers : ∀ e ∈ o, e.Refers classes) (lo : Nat) : ∀ inst ∈ programCode dir lo o,
      inst.kind.Refers classes (lo + (programCode dir lo o).length) ∧
        (inst.next = none → inst.kind = .accept) := by
  intro inst member
  cases o with
  | none =>
    rw [List.mem_singleton.mp member]
    exact ⟨trivial, fun _ => rfl⟩
  | some e =>
    rcases List.mem_append.mp member with inside | last
    · obtain ⟨kind, linked⟩ := Term.refers_code (refers e rfl) lo _ inst inside
      refine ⟨kind.mono ?_, fun unlinked => absurd unlinked linked⟩
      rw [programCode, List.length_append, Term.length_code]
      omega
    · rw [List.mem_singleton.mp last]
      exact ⟨trivial, fun _ => rfl⟩

theorem ends_programCode {a : Arena} {dir : Direction} {o : Option Term} {lo : Nat}
    (has : a.Has lo (programCode dir lo o)) :
    a.EndsBetween lo (lo + (programCode dir lo o).length) := by
  cases o with
  | none => exact .single (.stop (Arena.has_cons.mp has).1)
  | some e =>
    obtain ⟨inside, last⟩ := Arena.has_append.mp has
    rw [Term.length_code] at last
    have accept : a.Ends (lo + e.size) := .stop (Arena.has_cons.mp last).1
    rw [programCode, List.length_append, Term.length_code, ← Nat.add_assoc]
    exact (Term.ends_code inside accept).append (.single accept)

/-- No reference leads nowhere, and only accepting ends a program. -/
structure Arena.Closed (a : Arena) (classes : ClassTable) : Prop where
  refers : ∀ i inst, a.get? i = some inst → inst.kind.Refers classes a.size
  accepts : ∀ i kind, a.get? i = some ⟨kind, none⟩ → kind = .accept
  ends : ∀ i, i < a.size → a.Ends i

theorem Arena.closed_nil (classes : ClassTable) : Arena.nil.Closed classes := ⟨nofun, nofun, nofun⟩

end CursorRegex
