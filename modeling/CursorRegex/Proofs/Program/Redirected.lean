import CursorRegex.Proofs.Program.Paths
import CursorRegex.Proofs.Program.Shortened
import Mathlib.Data.Fintype.EquivFin
import Mathlib.Logic.Relation

/-! # Shortening links changes no meaning

An arena is shortened wherever its successors lie in it and no way through empty instructions is a cycle
(`Settled.leads`).  `Redirects` says what the outcome is for any set of places; it fixes the outcome
(`Redirects.unique`) and two rewritings one after the other are one of the union (`Redirects.comp`), so
that neither the order of two ranges nor a second pass makes a difference.  A place leads to the same
instruction before and after (`Redirects.resolves_iff`), which is why every path to an accepting
instruction goes over (`Redirects.acceptsFrom_iff`). -/
set_option autoImplicit false

namespace CursorRegex

def Kind.Advances (classes : ClassTable) (text : Text) (dir : Direction) : Kind → Nat → Nat → Prop
  | .atom x, pos, pos' => dir.Between (x.Matches classes text) pos pos'
  | .accept, _, _ => False
  | .openGroup _, pos, pos' | .closeGroup _, pos, pos' | .fork _, pos, pos' | .empty, pos, pos' =>
    pos' = pos

namespace Arena

variable {a a' b c : Arena} {i j r : Nat}

/-- Successors are instructions of the arena, and no way through empty instructions comes back to where
it began. -/
structure Settled (a : Arena) : Prop where
  within : ∀ i kind target, a.get? i = some ⟨kind, some target⟩ → target < a.size
  acyclic : ∀ i, ¬ Relation.TransGen (fun i j => a.emptyNext i = some j) i i

/-- It is enough that successors lie in the arena and that those of empty instructions have a lower
rank. -/
theorem settled_of_rank (rank : Nat → Nat) (falls : ∀ i < a.size, ∀ inst ∈ a.get? i,
    ∀ target ∈ inst.next, target < a.size ∧ (inst.kind = .empty → rank target < rank i)) :
    a.Settled := by
  have link : ∀ i kind target, a.get? i = some ⟨kind, some target⟩ →
      target < a.size ∧ (kind = .empty → rank target < rank i) :=
    fun i kind target here => falls i (lt_size_of_get? here) _ here _ rfl
  refine ⟨fun i kind target here => (link i kind target here).1, fun i cycle => ?_⟩
  have lower : ∀ j, Relation.TransGen (fun i j => a.emptyNext i = some j) i j → rank j < rank i := by
    intro j way
    induction way with
    | single next => exact (link _ _ _ (get?_of_emptyNext next)).2 rfl
    | tail _ next ih => exact Nat.lt_trans ((link _ _ _ (get?_of_emptyNext next)).2 rfl) ih
  exact Nat.lt_irrefl _ (lower i cycle)

def Leads (a : Arena) : Prop :=
  ∀ i kind target, a.get? i = some ⟨kind, some target⟩ → ∃ r, a.Resolves target r

/-- The way through empty instructions goes down, because the arena is finite. -/
theorem Settled.exists_resolves (h : a.Settled) (i : Fin a.size) : ∃ r, a.Resolves i r := by
  let behind : Fin a.size → Fin a.size → Prop := fun j i =>
    Relation.TransGen (fun i j => a.emptyNext i = some j) i j
  have irreflexive : Std.Irrefl behind := ⟨fun i => h.acyclic i⟩
  have transitive : IsTrans (Fin a.size) behind := ⟨fun _ _ _ hij hjk => hjk.trans hij⟩
  have founded : WellFounded behind := Finite.wellFounded_of_trans_of_irrefl behind
  induction i using founded.induction with
  | _ i ih =>
    obtain ⟨inst, here⟩ := exists_get? i.isLt
    cases next : a.emptyNext i with
    | none => exact ⟨i, i.isLt, [i.val], .stop next⟩
    | some j =>
      have link := get?_of_emptyNext next
      obtain ⟨r, resolved⟩ := ih ⟨j, h.within _ _ _ link⟩ (.single next)
      exact ⟨r, resolved.skip link⟩

theorem Settled.leads (h : a.Settled) : a.Leads := fun i kind target here =>
  h.exists_resolves ⟨target, h.within i kind target here⟩

theorem Resolves.self (h : a.Resolves i r) : a.Resolves r r := by
  obtain ⟨bound, l, trail⟩ := h
  exact ⟨bound, [r], .stop trail.next_end⟩

theorem Leads.exists_resolves (leads : a.Leads) (bound : i < a.size) : ∃ r, a.Resolves i r := by
  cases next : a.emptyNext i with
  | none => exact ⟨i, bound, [i], .stop next⟩
  | some j =>
    have link := get?_of_emptyNext next
    obtain ⟨r, resolved⟩ := leads i _ j link
    exact ⟨r, resolved.skip link⟩

/-! ## Rewriting the links of a set of places -/

/-- In `a'` the links at the places `S` lead straight to where they lead in `a`, past all linked empty
instructions, and nothing else has changed. -/
structure Redirects (S : Nat → Prop) (a a' : Arena) : Prop where
  size : a'.size = a.size
  outside : ∀ i, ¬ S i → a'.get? i = a.get? i
  unlinked : ∀ i kind, a.get? i = some ⟨kind, none⟩ → a'.get? i = some ⟨kind, none⟩
  linked : ∀ i kind target, S i → a.get? i = some ⟨kind, some target⟩ →
    ∃ r, a.Resolves target r ∧ a'.get? i = some ⟨kind, some r⟩

theorem ext_get? (same : ∀ i, a.get? i = b.get? i) : a = b := by
  obtain ⟨insts⟩ := a
  obtain ⟨insts'⟩ := b
  exact congrArg Arena.mk (Array.ext_getElem? same)

theorem get?_eq_none (bound : a.size ≤ i) : a.get? i = none := Array.getElem?_eq_none bound

namespace Redirects

variable {S S' : Nat → Prop} {kind : Kind} {next : Option Nat}

theorem unique (h : a.Redirects S b) (h' : a.Redirects S c) : b = c := by
  refine ext_get? fun i => ?_
  by_cases chosen : S i
  · cases here : a.get? i with
    | none =>
      have bound : a.size ≤ i := Array.getElem?_eq_none_iff.mp here
      rw [get?_eq_none (h.size ▸ bound), get?_eq_none (h'.size ▸ bound)]
    | some inst =>
      obtain ⟨kind, next⟩ := inst
      cases next with
      | none => rw [h.unlinked i kind here, h'.unlinked i kind here]
      | some target =>
        obtain ⟨r, resolved, written⟩ := h.linked i kind target chosen here
        obtain ⟨r', resolved', written'⟩ := h'.linked i kind target chosen here
        rw [written, written', resolved.unique resolved']
  · rw [h.outside i chosen, h'.outside i chosen]

/-- What stands at a place afterwards is what stood there, or has its link sent on. -/
theorem get?_cases (h : a.Redirects S a') (here : a.get? i = some ⟨kind, next⟩) :
    a'.get? i = some ⟨kind, next⟩ ∨
      ∃ target r, next = some target ∧ a.Resolves target r ∧ a'.get? i = some ⟨kind, some r⟩ := by
  by_cases chosen : S i
  · cases next with
    | none => exact Or.inl (h.unlinked i kind here)
    | some target =>
      obtain ⟨r, resolved, written⟩ := h.linked i kind target chosen here
      exact Or.inr ⟨target, r, rfl, resolved, written⟩
  · exact Or.inl ((h.outside i chosen).trans here)

theorem exists_get? (h : a.Redirects S a') (here' : a'.get? i = some ⟨kind, next⟩) :
    a.get? i = some ⟨kind, next⟩ ∨
      ∃ target r, next = some r ∧ a.Resolves target r ∧ a.get? i = some ⟨kind, some target⟩ := by
  obtain ⟨⟨kind', next'⟩, here⟩ := Arena.exists_get? (h.size ▸ lt_size_of_get? here' : i < a.size)
  rcases h.get?_cases here with same | ⟨target, r, rfl, resolved, written⟩
  · rw [here'] at same
    exact Or.inl (same ▸ here)
  · rw [here'] at written
    cases written
    exact Or.inr ⟨target, r, rfl, resolved, here⟩

theorem resolves (h : a.Redirects S a') (leads : a.Resolves i r) : a'.Resolves i r := by
  obtain ⟨bound, l, trail⟩ := leads
  have inside : r < a'.size := h.size ▸ bound
  induction trail with
  | @stop i stops =>
    obtain ⟨⟨kind, next⟩, here⟩ := Arena.exists_get? bound
    have last : kind ≠ .empty ∨ next = none := by
      by_contra linked
      rw [not_or, not_not] at linked
      obtain ⟨rfl, some_next⟩ := linked
      rw [emptyNext, here] at stops
      exact some_next stops
    rcases h.get?_cases here with same | ⟨target, r, rfl, -, written⟩
    · exact .stop same last
    · exact .stop written (Or.inl (last.resolve_right (Option.some_ne_none target)))
  | @step i j r l link rest ih =>
    rcases h.get?_cases (get?_of_emptyNext link) with same | ⟨target, r', is, resolved, written⟩
    · exact (ih bound inside).skip same
    · cases is
      have ends : r' = r := resolved.unique ⟨bound, l, rest⟩
      exact (ih bound inside).self.skip (ends ▸ written)

theorem leads (h : a.Redirects S a') (leads : a.Leads) : a'.Leads := by
  intro i kind target here'
  rcases h.exists_get? here' with here | ⟨source, r, is, resolved, -⟩
  · obtain ⟨r, resolved⟩ := leads i kind target here
    exact ⟨r, h.resolves resolved⟩
  · cases is
    exact ⟨target, h.resolves resolved.self⟩

theorem resolves_iff (h : a.Redirects S a') (leads : a.Leads) :
    a'.Resolves i r ↔ a.Resolves i r := by
  refine ⟨fun resolved' => ?_, h.resolves⟩
  have bound : i < a.size := by
    obtain ⟨bound, l, trail⟩ := resolved'
    rcases trail with _ | link
    · exact h.size ▸ bound
    · exact h.size ▸ lt_size_of_get? (get?_of_emptyNext link)
  obtain ⟨r', resolved⟩ := leads.exists_resolves bound
  rwa [resolved'.unique (h.resolves resolved)]

/-- Rewriting twice is rewriting once, wherever either rewrote. -/
theorem comp (h : a.Redirects S b) (h' : b.Redirects S' c) (leads : a.Leads) :
    a.Redirects (fun i => S i ∨ S' i) c := by
  refine ⟨h'.size.trans h.size, fun i not_chosen => ?_, fun i kind here => ?_, ?_⟩
  · rw [not_or] at not_chosen
    rw [h'.outside i not_chosen.2, h.outside i not_chosen.1]
  · exact h'.unlinked i kind (h.unlinked i kind here)
  · intro i kind target chosen here
    rcases h.get?_cases here with same | ⟨target', r, is, resolved, written⟩
    · by_cases second : S' i
      · obtain ⟨r, resolved, written⟩ := h'.linked i kind target second same
        exact ⟨r, (h.resolves_iff leads).mp resolved, written⟩
      · obtain ⟨r, resolved, written⟩ := h.linked i kind target (chosen.resolve_right second) here
        exact ⟨r, resolved, (h'.outside i second).trans written⟩
    · cases is
      refine ⟨r, resolved, ?_⟩
      rcases h'.get?_cases written with same | ⟨r', r'', is, onward, rewritten⟩
      · exact same
      · cases is
        have ends : r'' = r := onward.unique (h.resolves resolved.self)
        rwa [ends] at rewritten

end Redirects

theorem exists_redirects (leads : a.Leads) {start stop : Nat} (order : start ≤ stop)
    (within : stop ≤ a.size) :
    ∃ a', a.shorten start stop = (a', none) ∧
      a.Redirects (fun i => start ≤ i ∧ i < stop) a' := by
  obtain ⟨a', run, outside, inside⟩ := shorten_eq order within fun i kind target _ here =>
    leads i kind target here
  have size := a.size_shorten start stop
  rw [run] at size
  refine ⟨a', run, size, fun i out => outside i (by omega), fun i kind here => ?_, ?_⟩
  · by_cases chosen : start ≤ i ∧ i < stop
    · obtain ⟨inst', here', short⟩ := inside i _ chosen.1 chosen.2 here
      cases short with
      | unlinked => exact here'
      | linked link => cases link
    · exact (outside i (by omega)).trans here
  · rintro i kind target ⟨low, high⟩ here
    obtain ⟨inst', here', short⟩ := inside i _ low high here
    cases short with
    | unlinked last => cases last
    | linked link resolved =>
      cases link
      exact ⟨_, resolved, here'⟩

/-! ## Paths -/

section Accepting

variable {classes : ClassTable} {text : Text} {dir : Direction} {pos pos' pos'' : Nat}
  {S : Nat → Prop}

/-- A path from instruction `i` at position `pos` ends at an accepting instruction at `pos'`. -/
def AcceptsFrom (a : Arena) (classes : ClassTable) (text : Text) (dir : Direction) (i pos pos' : Nat) :
    Prop :=
  ∃ k next, a.Reaches classes text dir i pos k pos' ∧ a.get? k = some ⟨.accept, next⟩

theorem AcceptsFrom.of_goes (head : a.Goes classes text dir i pos j pos')
    (rest : a.AcceptsFrom classes text dir j pos' pos'') : a.AcceptsFrom classes text dir i pos pos'' := by
  obtain ⟨k, next, reaches, accepts⟩ := rest
  exact ⟨k, next, head.reaches.trans reaches, accepts⟩

theorem acceptsFrom_empty (here : a.get? i = some ⟨.empty, some j⟩) :
    a.AcceptsFrom classes text dir i pos pos' ↔ a.AcceptsFrom classes text dir j pos pos' := by
  constructor
  · rintro ⟨k, next, ⟨trace, path⟩, accepts⟩
    obtain ⟨j', mid, rest, -, goes, tail⟩ := path.exists_cons here nofun accepts
    obtain ⟨rfl, rfl⟩ := goes_empty here goes
    exact ⟨k, next, ⟨rest, tail⟩, accepts⟩
  · exact .of_goes (.empty here)

theorem Resolves.acceptsFrom_iff (h : a.Resolves i r) :
    a.AcceptsFrom classes text dir i pos pos' ↔ a.AcceptsFrom classes text dir r pos pos' := by
  obtain ⟨-, l, trail⟩ := h
  induction trail with
  | stop => exact Iff.rfl
  | step link _ ih => exact (acceptsFrom_empty (get?_of_emptyNext link)).trans ih

theorem goes_iff : a.Goes classes text dir i pos j pos' ↔
    (∃ kind : Kind, a.get? i = some ⟨kind, some j⟩ ∧ kind.Advances classes text dir pos pos') ∨
      ∃ next, a.get? i = some ⟨.fork j, next⟩ ∧ pos' = pos := by
  constructor
  · intro step
    cases step with
    | atom here range => exact Or.inl ⟨_, here, range⟩
    | openGroup here | closeGroup here | forkNext here | empty here => exact Or.inl ⟨_, here, rfl⟩
    | forkRight here => exact Or.inr ⟨_, here, rfl⟩
  · rintro (⟨kind, here, advances⟩ | ⟨next, here, rfl⟩)
    · cases kind with
      | atom x => exact .atom here advances
      | openGroup => cases advances; exact .openGroup here
      | closeGroup => cases advances; exact .closeGroup here
      | fork => cases advances; exact .forkNext here
      | empty => cases advances; exact .empty here
      | accept => cases advances
    · exact .forkRight here

/-- A step afterwards leads to where one led before, or to where that leads. -/
theorem Redirects.goes (h : a.Redirects S a') (step : a.Goes classes text dir i pos j pos') :
    ∃ j', a'.Goes classes text dir i pos j' pos' ∧ (j' = j ∨ a.Resolves j j') := by
  rcases goes_iff.mp step with ⟨kind, here, advances⟩ | ⟨next, here, same⟩
  · rcases h.get?_cases here with kept | ⟨_, r, ⟨⟩, resolved, written⟩
    · exact ⟨j, goes_iff.mpr (Or.inl ⟨kind, kept, advances⟩), Or.inl rfl⟩
    · exact ⟨r, goes_iff.mpr (Or.inl ⟨kind, written, advances⟩), Or.inr resolved⟩
  · rcases h.get?_cases here with kept | ⟨_, r, -, -, written⟩
    · exact ⟨j, goes_iff.mpr (Or.inr ⟨next, kept, same⟩), Or.inl rfl⟩
    · exact ⟨j, goes_iff.mpr (Or.inr ⟨some r, written, same⟩), Or.inl rfl⟩

theorem Redirects.exists_goes (h : a.Redirects S a') (step : a'.Goes classes text dir i pos j pos') :
    ∃ j', a.Goes classes text dir i pos j' pos' ∧ (j = j' ∨ a.Resolves j' j) := by
  rcases goes_iff.mp step with ⟨kind, here, advances⟩ | ⟨next, here, same⟩
  · rcases h.exists_get? here with kept | ⟨target, _, ⟨⟩, resolved, before⟩
    · exact ⟨j, goes_iff.mpr (Or.inl ⟨kind, kept, advances⟩), Or.inl rfl⟩
    · exact ⟨target, goes_iff.mpr (Or.inl ⟨kind, before, advances⟩), Or.inr resolved⟩
  · rcases h.exists_get? here with kept | ⟨target, _, -, -, before⟩
    · exact ⟨j, goes_iff.mpr (Or.inr ⟨next, kept, same⟩), Or.inl rfl⟩
    · exact ⟨j, goes_iff.mpr (Or.inr ⟨some target, before, same⟩), Or.inl rfl⟩

/-- From every place the same positions are reached at an accepting instruction. -/
theorem Redirects.acceptsFrom_iff (h : a.Redirects S a') :
    a.AcceptsFrom classes text dir i pos pos' ↔ a'.AcceptsFrom classes text dir i pos pos' := by
  constructor
  · rintro ⟨k, next, ⟨trace, path⟩, accepts⟩
    induction path with
    | nil i pos =>
      rcases h.get?_cases accepts with same | ⟨_, r, -, -, written⟩
      · exact ⟨i, next, .refl i pos, same⟩
      · exact ⟨i, some r, .refl i pos, written⟩
    | cons head _ ih =>
      obtain ⟨j', step, led⟩ := h.goes head
      have rest := ih accepts
      rcases led with rfl | resolved
      · exact .of_goes step rest
      · exact .of_goes step ((h.resolves resolved).acceptsFrom_iff.mp rest)
  · rintro ⟨k, next, ⟨trace, path⟩, accepts⟩
    induction path with
    | nil i pos =>
      rcases h.exists_get? accepts with same | ⟨target, r, -, -, before⟩
      · exact ⟨i, next, .refl i pos, same⟩
      · exact ⟨i, some target, .refl i pos, before⟩
    | cons head _ ih =>
      obtain ⟨j', step, led⟩ := h.exists_goes head
      have rest := ih accepts
      rcases led with rfl | resolved
      · exact .of_goes step rest
      · exact .of_goes step (resolved.acceptsFrom_iff.mpr rest)

end Accepting

/-! ## The pass -/

/-- Shortening the links of a range ends and does what `Redirects` says.  Doing it again changes nothing,
two ranges may be shortened in either order, and from every instruction the same ranges of every text are
read on the way to an accepting one. -/
theorem shorten_preserves (settled : a.Settled) {start stop : Nat} (order : start ≤ stop)
    (within : stop ≤ a.size) :
    ∃ a', a.shorten start stop = (a', none) ∧ a.Redirects (fun i => start ≤ i ∧ i < stop) a' ∧
      a'.shorten start stop = (a', none) ∧
      (∀ start' stop', start' ≤ stop' → stop' ≤ a.size → ∃ b both,
        a.shorten start' stop' = (b, none) ∧ b.shorten start stop = (both, none) ∧
          a'.shorten start' stop' = (both, none)) ∧
      ∀ classes text dir i pos pos',
        a.AcceptsFrom classes text dir i pos pos' ↔ a'.AcceptsFrom classes text dir i pos pos' := by
  have leads := settled.leads
  obtain ⟨a', run, short⟩ := exists_redirects leads order within
  have leads' := short.leads leads
  refine ⟨a', run, short, ?_, ?_, fun _ _ _ _ _ _ => short.acceptsFrom_iff⟩
  · obtain ⟨again, run', short'⟩ := exists_redirects leads' order (short.size ▸ within)
    have twice := short.comp short' leads
    simp only [or_self] at twice
    rw [run', twice.unique short]
  · intro start' stop' order' within'
    obtain ⟨b, run_b, short_b⟩ := exists_redirects leads order' within'
    obtain ⟨both, run_ab, short_ab⟩ := exists_redirects leads' order' (short.size ▸ within')
    obtain ⟨both', run_ba, short_ba⟩ :=
      exists_redirects (short_b.leads leads) order (short_b.size ▸ within)
    have one_way := short.comp short_ab leads
    have other_way := short_b.comp short_ba leads
    simp only [or_comm] at other_way
    exact ⟨b, both', run_b, run_ba, by rw [run_ab, one_way.unique other_way]⟩

/-- The way from instruction 2 goes down to 1 and up again to 4, and leaves the range.  The unlinked empty
instruction stays where it is. -/
theorem shorten_preserves_chain : ∃ a a' : Arena,
    a = ⟨#[⟨.empty, none⟩, ⟨.empty, some 4⟩, ⟨.atom (.char 'a'), some 3⟩, ⟨.empty, some 1⟩,
      ⟨.accept, none⟩, ⟨.fork 2, some 0⟩]⟩ ∧
    a' = ⟨#[⟨.empty, none⟩, ⟨.empty, some 4⟩, ⟨.atom (.char 'a'), some 4⟩, ⟨.empty, some 4⟩,
      ⟨.accept, none⟩, ⟨.fork 2, some 0⟩]⟩ ∧
    a.Settled ∧ 2 ≤ 4 ∧ 4 ≤ a.size ∧ a.shorten 2 4 = (a', none) ∧ a'.shorten 2 4 = (a', none) ∧
    ∀ classes text dir i pos pos',
      a.AcceptsFrom classes text dir i pos pos' ↔ a'.AcceptsFrom classes text dir i pos pos' := by
  refine ⟨_, _, rfl, rfl, ?_⟩
  have settled : Arena.Settled ⟨#[⟨.empty, none⟩, ⟨.empty, some 4⟩, ⟨.atom (.char 'a'), some 3⟩,
      ⟨.empty, some 1⟩, ⟨.accept, none⟩, ⟨.fork 2, some 0⟩]⟩ :=
    settled_of_rank (fun i => if i = 3 then 2 else if i = 1 then 1 else 0) (by decide)
  obtain ⟨a', run, -, again, -, same⟩ :=
    shorten_preserves settled (show 2 ≤ 4 by decide) (by decide)
  have computed : Arena.shorten ⟨#[⟨.empty, none⟩, ⟨.empty, some 4⟩, ⟨.atom (.char 'a'), some 3⟩,
      ⟨.empty, some 1⟩, ⟨.accept, none⟩, ⟨.fork 2, some 0⟩]⟩ 2 4 =
      (⟨#[⟨.empty, none⟩, ⟨.empty, some 4⟩, ⟨.atom (.char 'a'), some 4⟩, ⟨.empty, some 4⟩,
        ⟨.accept, none⟩, ⟨.fork 2, some 0⟩]⟩, none) := by decide
  rw [run] at computed
  cases computed
  exact ⟨settled, by decide, by decide, run, again, same⟩

end Arena

end CursorRegex
