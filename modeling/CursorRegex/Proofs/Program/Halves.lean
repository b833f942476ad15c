import CursorRegex.Proofs.Program.Encoding
import CursorRegex.Search.Path
import Mathlib.Order.Interval.Finset.Nat

/-! # The two halves of a program

The arena of a compiled pattern holds the forward program in front and the backward program behind it.
Each is `SelfContained`: no link leads from one into the other, none leads to an empty instruction, and
following successors from any place ends at the one accepting instruction of that half
(`selfContained_of_compile`).

As a block is assembled its links stay inside, or lead to the one place behind it (`Term.inward_code`), and
forks branch to where blocks are entered (`Term.resolves_right`), so a whole program leads nowhere but to
its accepting instruction (`Arena.Assembled`).  Shortening sends a link on over empty instructions, which
all have a successor in the same half (`Assembled.selfContained`). -/
set_option autoImplicit false

namespace CursorRegex

def Program.half (p : Program) : Direction → Finset Nat
  | .forward => .Ico 0 p.split
  | .backward => .Ico p.split p.arena.size

namespace Arena

def Lands (a : Arena) (block : Finset Nat) (i : Nat) : Prop :=
  i ∈ block ∧ ∀ next, a.get? i ≠ some ⟨.empty, next⟩

/-- The instructions at the places `block` are a program of their own, which begins at `entry` and accepts
at one place. -/
structure SelfContained (a : Arena) (block : Finset Nat) (entry accepting : Nat) : Prop where
  within : ∀ i ∈ block, i < a.size
  entry : a.Lands block entry
  next : ∀ i kind j, i ∈ block → a.get? i = some ⟨kind, some j⟩ → a.Lands block j
  right : ∀ i right next, i ∈ block → a.get? i = some ⟨.fork right, next⟩ → a.Lands block right
  accepting_mem : accepting ∈ block
  accept_iff : ∀ i kind next, i ∈ block → a.get? i = some ⟨kind, next⟩ →
    (kind = .accept ↔ i = accepting)
  unlinked_iff : ∀ i kind next, i ∈ block → a.get? i = some ⟨kind, next⟩ →
    (next = none ↔ kind = .accept)
  ends : ∀ i ∈ block, ∃ l, Trail a.nextOf i l accepting ∧ l.Nodup ∧ ∀ j ∈ l, j ∈ block

end Arena

/-! ## Blocks before they are shortened -/

structure Instruction.Inward (block : Finset Nat) (n : Nat) (inst : Instruction) : Prop where
  ne_accept : inst.kind ≠ .accept
  next : ∃ j, inst.next = some j ∧ (j ∈ block ∨ j = n)
  right : ∀ right, inst.kind = .fork right → right ∈ block

namespace Instruction.Inward

variable {block block' : Finset Nat} {n n' j right : Nat} {kind : Kind} {inst : Instruction}

theorem mono (h : inst.Inward block n) (sub : block ⊆ block') (leads : n ∈ block' ∨ n = n') :
    inst.Inward block' n' := by
  obtain ⟨j, link, target⟩ := h.next
  refine ⟨h.ne_accept, ⟨j, link, ?_⟩, fun right is => sub (h.right right is)⟩
  rcases target with inside | rfl
  · exact Or.inl (sub inside)
  · exact leads

theorem plain (goes_on : kind ≠ .accept ∧ ∀ right, kind ≠ .fork right) (target : j ∈ block ∨ j = n) :
    Inward block n ⟨kind, some j⟩ :=
  ⟨goes_on.1, ⟨j, rfl, target⟩, fun right is => absurd is (goes_on.2 right)⟩

theorem fork (inside : right ∈ block) (target : j ∈ block ∨ j = n) :
    Inward block n ⟨.fork right, some j⟩ := by
  refine ⟨by simp, ⟨j, rfl, target⟩, ?_⟩
  intro right' is
  cases is
  exact inside

end Instruction.Inward

namespace Term

variable {a : Arena} {dir : Direction}

theorem inward_code (e : Term) (lo n : Nat) :
    ∀ inst ∈ e.code dir lo (some n), inst.Inward (.Ico lo (lo + e.size)) n := by
  induction e generalizing lo n with
  | atom x =>
    intro inst member
    rw [List.mem_singleton.mp member]
    exact .plain (by simp) (Or.inr rfl)
  | group opening number body ih =>
    have entry := first_mem dir body lo
    intro inst member
    simp only [code, List.mem_append, List.mem_cons, List.not_mem_nil, or_false] at member
    rcases member with inside | rfl | rfl
    · apply (ih lo _ inst inside).mono
      · exact Finset.Ico_subset_Ico_right (by simp only [size]; omega)
      · exact Or.inl (by simp [size])
    · exact .plain (by simp) (Or.inr rfl)
    · apply Instruction.Inward.plain (by simp)
      left
      simp only [size, Finset.mem_Ico]
      omega
  | repeated q body ih =>
    have entry := first_mem dir body lo
    intro inst member
    cases q with
    | star | plus =>
      simp only [code, List.mem_append, List.mem_cons, List.not_mem_nil, or_false] at member
      rcases member with inside | rfl
      · apply (ih lo _ inst inside).mono
        · exact Finset.Ico_subset_Ico_right (by simp only [size]; omega)
        · exact Or.inl (by simp [size, Quantifier.size])
      · refine .fork ?_ (Or.inr rfl)
        simp only [size, Finset.mem_Ico]
        omega
    | quest =>
      have exit : lo + body.size + 1 ∈ Finset.Ico lo (lo + (repeated .quest body).size) := by
        simp only [size, Quantifier.size, Finset.mem_Ico]
        omega
      simp only [code, List.mem_append, List.mem_cons, List.not_mem_nil, or_false] at member
      rcases member with inside | rfl | rfl
      · apply (ih lo _ inst inside).mono
        · exact Finset.Ico_subset_Ico_right (by simp only [size]; omega)
        · exact Or.inl exit
      · refine .fork ?_ (Or.inl exit)
        simp only [size, Finset.mem_Ico]
        omega
      · exact .plain (by simp) (Or.inr rfl)
  | sequence fst snd ih ih' =>
    have entry := first_mem dir fst lo
    have entry' := first_mem dir snd (lo + fst.size)
    have front : Finset.Ico lo (lo + fst.size) ⊆ .Ico lo (lo + (sequence fst snd).size) :=
      Finset.Ico_subset_Ico_right (by simp only [size]; omega)
    have back : Finset.Ico (lo + fst.size) (lo + fst.size + snd.size) ⊆
        .Ico lo (lo + (sequence fst snd).size) :=
      Finset.Ico_subset_Ico (by omega) (by simp only [size]; omega)
    intro inst member
    cases dir with
    | forward =>
      simp only [code, List.mem_append] at member
      rcases member with inside | inside
      · apply (ih lo _ inst inside).mono front
        exact Or.inl (back (Finset.mem_Ico.mpr entry'))
      · exact (ih' _ _ inst inside).mono back (Or.inr rfl)
    | backward =>
      simp only [code, List.mem_append] at member
      rcases member with inside | inside
      · exact (ih lo _ inst inside).mono front (Or.inr rfl)
      · apply (ih' _ _ inst inside).mono back
        exact Or.inl (front (Finset.mem_Ico.mpr entry))
  | alternate fst snd ih ih' =>
    have entry := first_mem dir fst lo
    have entry' := first_mem dir snd (lo + fst.size)
    have exit : lo + fst.size + snd.size ∈ Finset.Ico lo (lo + (alternate fst snd).size) := by
      simp only [size, Finset.mem_Ico]
      omega
    intro inst member
    simp only [code, List.mem_append, List.mem_cons, List.not_mem_nil, or_false] at member
    rcases member with inside | inside | rfl | rfl
    · apply (ih lo _ inst inside).mono
      · exact Finset.Ico_subset_Ico_right (by simp only [size]; omega)
      · exact Or.inl exit
    · apply (ih' _ _ inst inside).mono
      · exact Finset.Ico_subset_Ico (by omega) (by simp only [size]; omega)
      · exact Or.inl exit
    · exact .plain (by simp) (Or.inr rfl)
    · apply Instruction.Inward.fork
      · simp only [size, Finset.mem_Ico]
        omega
      · left
        simp only [size, Finset.mem_Ico]
        omega

theorem resolves_right {e : Term} {lo n : Nat} (has : a.Has lo (e.code dir lo (some n)))
    {right : Nat} {next : Option Nat} (member : ⟨.fork right, next⟩ ∈ e.code dir lo (some n)) :
    a.Resolves right right := by
  induction e generalizing lo n with
  | atom x => simp [code] at member
  | group opening number body ih =>
    simp only [code, Arena.has_append] at has
    simp only [code, List.mem_append, List.mem_cons, List.not_mem_nil, Instruction.mk.injEq,
      reduceCtorEq, false_and, or_false] at member
    exact ih has.1 member
  | repeated q body ih =>
    cases q with
    | star | plus | quest =>
      simp only [code, Arena.has_append] at has
      simp only [code, List.mem_append, List.mem_cons, List.not_mem_nil, Instruction.mk.injEq,
        Kind.fork.injEq, reduceCtorEq, false_and, or_false] at member
      rcases member with inside | ⟨rfl, -⟩
      · exact ih has.1 inside
      · exact resolves_first has.1
  | sequence fst snd ih ih' =>
    cases dir with
    | forward | backward =>
      simp only [code, Arena.has_append, length_code] at has
      simp only [code, List.mem_append] at member
      rcases member with inside | inside
      · exact ih has.1 inside
      · exact ih' has.2 inside
  | alternate fst snd ih ih' =>
    simp only [code, Arena.has_append, length_code] at has
    simp only [code, List.mem_append, List.mem_cons, List.not_mem_nil, Instruction.mk.injEq,
      Kind.fork.injEq, reduceCtorEq, false_and, false_or, or_false] at member
    rcases member with inside | inside | ⟨rfl, -⟩
    · exact ih has.1 inside
    · exact ih' has.2.1 inside
    · exact resolves_first has.1

end Term

/-! ## Programs before they are shortened -/

namespace Arena

variable {a a' : Arena} {block : Finset Nat} {entry accepting : Nat} {classes : ClassTable}

structure Assembled (a : Arena) (block : Finset Nat) (entry accepting : Nat) : Prop where
  within : ∀ i ∈ block, i < a.size
  entry_mem : entry ∈ block
  entry_resolves : a.Resolves entry entry
  accepting_mem : accepting ∈ block
  accepts : a.get? accepting = some ⟨.accept, none⟩
  inward : ∀ i inst, i ∈ block → i ≠ accepting → a.get? i = some inst → inst.Inward block accepting
  right_resolves : ∀ i right next, i ∈ block → a.get? i = some ⟨.fork right, next⟩ →
    a.Resolves right right

theorem assembled_programCode {dir : Direction} {o : Option Term} {front : List Instruction}
    (insts : a.insts.toList = front ++ programCode dir front.length o) :
    ∃ accepting, a.Assembled (.Ico front.length a.size) (programEntry dir front.length o)
      accepting := by
  have has := has_of_toList insts
  have size : a.size = front.length + (programCode dir front.length o).length := by
    rw [Arena.size, ← Array.length_toList, insts, List.length_append]
  have at_code : ∀ i inst, i ∈ Finset.Ico front.length a.size → a.get? i = some inst →
      (programCode dir front.length o)[i - front.length]? = some inst := by
    intro i inst inside here
    have low := (Finset.mem_Ico.mp inside).1
    rwa [get?, ← Array.getElem?_toList, insts, List.getElem?_append_right low] at here
  have within : ∀ i ∈ Finset.Ico front.length a.size, i < a.size :=
    fun i inside => (Finset.mem_Ico.mp inside).2
  cases o with
  | none =>
    simp only [programCode, has_cons] at has
    simp only [programCode, List.length_singleton] at size at_code
    have only : ∀ i, i ∈ Finset.Ico front.length a.size → i = front.length := by
      intro i inside
      rw [Finset.mem_Ico] at inside
      omega
    have here : front.length ∈ Finset.Ico front.length a.size := Finset.mem_Ico.mpr (by omega)
    refine ⟨front.length, within, here, .stop has.1 (Or.inr rfl), here, has.1, ?_, ?_⟩
    · intro i inst inside other
      exact absurd (only i inside) other
    · intro i right next inside fork
      rw [only i inside, has.1] at fork
      cases fork
  | some e =>
    simp only [programCode, has_append, has_cons, Term.length_code] at has
    simp only [programCode, List.length_append, Term.length_code, List.length_singleton] at size at_code
    obtain ⟨inside, accept, -⟩ := has
    have entered := Term.first_mem dir e front.length
    have block : Finset.Ico front.length (front.length + e.size) ⊆ .Ico front.length a.size :=
      Finset.Ico_subset_Ico_right (by omega)
    have last : front.length + e.size ∈ Finset.Ico front.length a.size :=
      Finset.mem_Ico.mpr (by omega)
    have in_term : ∀ i inst, i ∈ Finset.Ico front.length a.size → i ≠ front.length + e.size →
        a.get? i = some inst → inst ∈ e.code dir front.length (some (front.length + e.size)) := by
      intro i inst bounds other here
      have found := at_code i inst bounds here
      rw [Finset.mem_Ico] at bounds
      rw [List.getElem?_append_left (by rw [Term.length_code]; omega)] at found
      exact List.mem_of_getElem? found
    refine ⟨front.length + e.size, within, block (Finset.mem_Ico.mpr entered),
      Term.resolves_first inside, last, accept, ?_, ?_⟩
    · intro i inst bounds other here
      exact (e.inward_code front.length _ inst (in_term i inst bounds other here)).mono block
        (Or.inr rfl)
    · intro i right next bounds fork
      apply Term.resolves_right inside
      apply in_term i _ bounds _ fork
      intro same
      rw [same, accept] at fork
      cases fork

/-! ## Programs with shortened links -/

namespace Assembled

theorem ne_accepting (h : a.Assembled block entry accepting) {i : Nat} {inst : Instruction}
    (here : a.get? i = some inst) (other : inst ≠ ⟨.accept, none⟩) : i ≠ accepting := by
  intro same
  rw [same, h.accepts] at here
  exact other (Option.some.inj here).symm

theorem next_mem (h : a.Assembled block entry accepting) {i j : Nat} {kind : Kind}
    (inside : i ∈ block) (here : a.get? i = some ⟨kind, some j⟩) : j ∈ block := by
  have other := h.ne_accepting here nofun
  obtain ⟨j', link, target⟩ := (h.inward i _ inside other here).next
  cases link
  rcases target with inside | rfl
  · exact inside
  · exact h.accepting_mem

theorem not_empty_of_resolves (h : a.Assembled block entry accepting) {i r : Nat} (inside : i ∈ block)
    (leads : a.Resolves i r) : r ∈ block ∧ ∀ next, a.get? r ≠ some ⟨.empty, next⟩ := by
  obtain ⟨-, l, trail⟩ := leads
  have closed : ∀ i j, i ∈ block → a.emptyNext i = some j → j ∈ block :=
    fun i j inside link => h.next_mem inside (get?_of_emptyNext link)
  have r_mem : r ∈ block := trail.forall_mem closed inside r trail.end_mem
  refine ⟨r_mem, fun next here => ?_⟩
  have other := h.ne_accepting here nofun
  obtain ⟨j, link, -⟩ := (h.inward r _ r_mem other here).next
  have stops := trail.next_end
  cases link
  rw [emptyNext, here] at stops
  cases stops

theorem lands_of_resolves {start : Nat} (h : a.Assembled block entry accepting)
    (closed : a.Closed classes) (shortens : a.Shortens start a') {i r : Nat} (inside : i ∈ block)
    (leads : a.Resolves i r) : a'.Lands block r := by
  obtain ⟨r_mem, filled⟩ := h.not_empty_of_resolves inside leads
  refine ⟨r_mem, fun next' here' => ?_⟩
  obtain ⟨next, here, -⟩ := shortens.same_kind closed here'
  exact filled next here

theorem selfContained {start : Nat} (h : a.Assembled block entry accepting) (closed : a.Closed classes)
    (shortens : a.Shortens start a') (behind : ∀ i ∈ block, start ≤ i) :
    a'.SelfContained block entry accepting := by
  have linked : ∀ i kind j, i ∈ block → a'.get? i = some ⟨kind, some j⟩ → ∃ target,
      target ∈ block ∧ a.Resolves target j := by
    intro i kind j inside here'
    obtain ⟨⟨kind', next⟩, here⟩ := exists_get? (h.within i inside)
    cases next with
    | none =>
      cases here'.symm.trans (shortens.unlinked i kind' here)
    | some target =>
      obtain ⟨r, leads⟩ := closed.resolves here
      cases here'.symm.trans (shortens.linked i kind' target r (behind i inside) here leads)
      exact ⟨target, h.next_mem inside here, leads⟩
  have next : ∀ i kind j, i ∈ block → a'.get? i = some ⟨kind, some j⟩ → a'.Lands block j := by
    intro i kind j inside here'
    obtain ⟨target, target_mem, leads⟩ := linked i kind j inside here'
    exact h.lands_of_resolves closed shortens target_mem leads
  have accept_iff : ∀ i kind next, i ∈ block → a'.get? i = some ⟨kind, next⟩ →
      (kind = .accept ↔ i = accepting) ∧ (next = none ↔ kind = .accept) := by
    intro i kind next' inside here'
    obtain ⟨next, here, unlinked⟩ := shortens.same_kind closed here'
    by_cases other : i = accepting
    · subst other
      cases here.symm.trans h.accepts
      cases here'.symm.trans (shortens.unlinked i _ here)
      simp
    · have inward := h.inward i _ inside other here
      obtain ⟨j, link, -⟩ := inward.next
      have goes_on : kind ≠ .accept := inward.ne_accept
      refine ⟨by simp [other, goes_on], ⟨fun ends => ?_, fun is => absurd is goes_on⟩⟩
      rw [unlinked ends] at link
      cases link
  refine ⟨?_, ?_, next, ?_, h.accepting_mem, ?_, ?_, ?_⟩
  · intro i inside
    exact shortens.size ▸ h.within i inside
  · exact h.lands_of_resolves closed shortens h.entry_mem h.entry_resolves
  · intro i right next' inside fork'
    obtain ⟨next, fork, -⟩ := shortens.same_kind closed fork'
    have other := h.ne_accepting fork nofun
    have right_mem := (h.inward i _ inside other fork).right right rfl
    exact h.lands_of_resolves closed shortens right_mem (h.right_resolves i right next inside fork)
  · exact fun i kind next inside here => (accept_iff i kind next inside here).1
  · exact fun i kind next inside here => (accept_iff i kind next inside here).2
  · intro i inside
    obtain ⟨r, bound, l, trail⟩ := (shortens.closed closed).ends i
      (shortens.size ▸ h.within i inside)
    have stays : ∀ j ∈ l, j ∈ block := by
      refine trail.forall_mem (fun i j inside link => ?_) inside
      obtain ⟨⟨kind, next'⟩, here, is⟩ := Option.bind_eq_some_iff.mp link
      cases is
      exact (next i kind j inside here).1
    have r_mem := stays r trail.end_mem
    obtain ⟨⟨kind, next'⟩, here⟩ := exists_get? bound
    have ends := trail.next_end
    rw [nextOf, here] at ends
    have accepts := accept_iff r kind next' r_mem here
    have at_end : r = accepting := accepts.1.mp (accepts.2.mp ends)
    exact ⟨l, at_end ▸ trail, trail.nodup, stays⟩

end Assembled

theorem SelfContained.mono (keeps : ∀ i inst, a.get? i = some inst → a'.get? i = some inst)
    (h : a.SelfContained block entry accepting) : a'.SelfContained block entry accepting := by
  have same : ∀ i ∈ block, a'.get? i = a.get? i := by
    intro i inside
    obtain ⟨inst, here⟩ := exists_get? (h.within i inside)
    rw [here, keeps i inst here]
  have lands : ∀ i, a.Lands block i → a'.Lands block i := by
    intro i lands
    exact ⟨lands.1, fun next => same i lands.1 ▸ lands.2 next⟩
  refine ⟨?_, lands _ h.entry, ?_, ?_, h.accepting_mem, ?_, ?_, ?_⟩
  · intro i inside
    obtain ⟨inst, here⟩ := exists_get? (h.within i inside)
    exact lt_size_of_get? (keeps i inst here)
  · intro i kind j inside here
    exact lands j (h.next i kind j inside (same i inside ▸ here))
  · intro i right next inside here
    exact lands right (h.right i right next inside (same i inside ▸ here))
  · intro i kind next inside here
    exact h.accept_iff i kind next inside (same i inside ▸ here)
  · intro i kind next inside here
    exact h.unlinked_iff i kind next inside (same i inside ▸ here)
  · intro i inside
    obtain ⟨l, trail, nodup, stays⟩ := h.ends i inside
    refine ⟨l, trail.congr fun j member => ?_, nodup, stays⟩
    rw [nextOf, nextOf, same j (stays j member)]

/-- A path that begins in a program stays there, and meets no empty instruction. -/
theorem SelfContained.path (h : a.SelfContained block entry accepting) {table : ClassTable} {text : Text}
    {dir : Direction} {i pos j pos' : Nat} {trace : List (Nat × Nat)} (begins : a.Lands block i)
    (path : a.Path table text dir i pos trace j pos') : a.Lands block j := by
  induction path with
  | nil => exact begins
  | @cons i k j pos _ _ trace head tail ih =>
    apply ih
    cases head with
    | atom here | openGroup here | closeGroup here | forkNext here | empty here =>
      exact h.next i _ k begins.1 here
    | forkRight here => exact h.right i k _ begins.1 here

end Arena

namespace Program

variable {limits : Limits}

theorem exists_selfContained_of_build {dir : Direction} {length entry : Nat} {classes : ClassTable}
    {toks : List Token} {a a' : Arena} (closed : a.Closed classes) (refer : Tokens.Refer classes toks)
    (h : build limits dir (Polish.ofTokens limits.stack length toks) a = .ok (entry, a')) :
    ∃ accepting, a'.SelfContained (.Ico a.size a'.size) entry accepting := by
  obtain ⟨o, raw, -, rfl, insts, raw_closed, shortens⟩ := exists_shortens_of_build closed refer h
  obtain ⟨accepting, assembled⟩ := Arena.assembled_programCode insts
  rw [shortens.size]
  refine ⟨accepting, assembled.selfContained raw_closed shortens fun i inside => ?_⟩
  exact (Finset.mem_Ico.mp inside).1

theorem exists_selfContained {pattern : String} {p : Program}
    (compiled : compile limits pattern = .ok p) :
    p.split ≤ p.arena.size ∧
      ∀ dir, ∃ accepting, p.arena.SelfContained (p.half dir) (p.entry dir) accepting := by
  obtain ⟨tokens, read, built⟩ := bind_eq_ok.mp (mapError_eq_ok.mp compiled)
  have refer := Tokens.refers_ofPattern (mapError_eq_ok.mp read)
  obtain ⟨⟨forward, a⟩, first, built⟩ := bind_eq_ok.mp built
  obtain ⟨⟨backward, a'⟩, second, built⟩ := bind_eq_ok.mp built
  cases built
  obtain ⟨-, -, -, -, closed, -⟩ := build_eq_ok (Arena.closed_nil _) refer first
  obtain ⟨-, -, -, -, -, keeps⟩ := build_eq_ok closed refer second
  obtain ⟨accepting, front⟩ := exists_selfContained_of_build (Arena.closed_nil _) refer first
  obtain ⟨accepting', back⟩ := exists_selfContained_of_build closed refer second
  have last := Finset.mem_Ico.mp back.accepting_mem
  refine ⟨Nat.le_of_lt (Nat.lt_of_le_of_lt last.1 last.2), fun dir => ?_⟩
  cases dir with
  | forward => exact ⟨accepting, front.mono keeps⟩
  | backward => exact ⟨accepting', back⟩

/-- Both halves of a compiled program are self-contained, and whatever is read, neither comes to an
instruction of the other or to an empty one. -/
theorem selfContained_of_compile {pattern : String} {p : Program}
    (compiled : compile limits pattern = .ok p) :
    p.split ≤ p.arena.size ∧ ∀ dir,
      (∃ accepting, p.arena.SelfContained (p.half dir) (p.entry dir) accepting) ∧
      ∀ text pos trace i pos', p.arena.Path p.classes text dir (p.entry dir) pos trace i pos' →
        p.arena.Lands (p.half dir) i := by
  obtain ⟨order, halves⟩ := exists_selfContained compiled
  refine ⟨order, fun dir => ⟨halves dir, fun text pos trace i pos' path => ?_⟩⟩
  obtain ⟨accepting, contained⟩ := halves dir
  exact contained.path contained.entry path

/-- The empty instructions where an alternation and an option end are passed over in both halves. -/
theorem selfContained_optional_alternation : ∃ p, compile {} "(a|b)?" = .ok p ∧ p.split = 9 ∧
    p.arena.get? 2 = some ⟨.empty, some 4⟩ ∧ p.arena.get? 16 = some ⟨.empty, some 17⟩ ∧
    p.arena.SelfContained (.Ico 0 9) 6 8 ∧ p.arena.SelfContained (.Ico 9 18) 15 17 := by
  have compiled : compile {} "(a|b)?" = .ok
      ⟨⟨#[⟨.atom (.char 'a'), some 4⟩, ⟨.atom (.char 'b'), some 4⟩, ⟨.empty, some 4⟩,
        ⟨.fork 0, some 1⟩, ⟨.closeGroup (some 1), some 8⟩, ⟨.openGroup (some 1), some 3⟩,
        ⟨.fork 5, some 8⟩, ⟨.empty, some 8⟩, ⟨.accept, none⟩, ⟨.atom (.char 'a'), some 13⟩,
        ⟨.atom (.char 'b'), some 13⟩, ⟨.empty, some 13⟩, ⟨.fork 9, some 10⟩,
        ⟨.closeGroup (some 1), some 17⟩, ⟨.openGroup (some 1), some 12⟩, ⟨.fork 14, some 17⟩,
        ⟨.empty, some 17⟩, ⟨.accept, none⟩]⟩, ⟨#[]⟩, 6, 15, 1, 9⟩ := by decide +kernel
  obtain ⟨-, halves⟩ := selfContained_of_compile compiled
  obtain ⟨⟨accepting, front⟩, -⟩ := halves .forward
  obtain ⟨⟨accepting', back⟩, -⟩ := halves .backward
  refine ⟨_, compiled, rfl, rfl, rfl, ?_, ?_⟩
  · cases (front.accept_iff 8 .accept none (by decide) rfl).mp rfl
    exact front
  · cases (back.accept_iff 17 .accept none (by decide) rfl).mp rfl
    exact back

end Program

end CursorRegex
