import CursorRegex.Proofs.Pattern.Groups
import CursorRegex.Proofs.Program.Runs

/-! # Where a trace meets groups

`Arena.lastVisit` is the last position where a trace comes to an instruction of some kind.  A trace of a
term either meets no edge of group `k`, or the last time it opened the group it also closed it, and what
it read in between is a match of what is in the group (`Runs.keeps`).  The group may stand in a loop and
be gone through many times; what counts is that no group contains another of its number. -/
set_option autoImplicit false

namespace CursorRegex

namespace Arena

variable {a : Arena} {kind : Kind}

def IsAt (a : Arena) (kind : Kind) (i : Nat) : Prop := ∃ next, a.get? i = some ⟨kind, next⟩

instance (a : Arena) (kind : Kind) (i : Nat) : Decidable (a.IsAt kind i) :=
  decidable_of_iff ((a.get? i).map (·.kind) = some kind) <| by
    cases found : a.get? i with
    | none => simp [IsAt, found]
    | some inst =>
      obtain ⟨kind', next⟩ := inst
      simp [IsAt, found]

/-- The last position where a trace comes to an instruction of that kind. -/
def lastVisit (a : Arena) (kind : Kind) (trace : List (Nat × Nat)) : Option Nat :=
  ((trace.filter fun step => a.IsAt kind step.1).getLast?).map (·.2)

theorem lastVisit_nil : a.lastVisit kind [] = none := rfl

theorem lastVisit_append (tr tr' : List (Nat × Nat)) :
    a.lastVisit kind (tr ++ tr') = (a.lastVisit kind tr').or (a.lastVisit kind tr) := by
  unfold lastVisit
  rw [List.filter_append, List.getLast?_append, Option.map_or]

theorem lastVisit_singleton (i pos : Nat) :
    a.lastVisit kind [(i, pos)] = if a.IsAt kind i then some pos else none := by
  unfold lastVisit
  by_cases here : a.IsAt kind i <;> simp [here]

theorem lastVisit_of_get? {i pos : Nat} {kind' : Kind} {next : Option Nat}
    (here : a.get? i = some ⟨kind', next⟩) :
    a.lastVisit kind [(i, pos)] = if kind' = kind then some pos else none := by
  have same : a.IsAt kind i ↔ kind' = kind := by
    unfold IsAt
    rw [here]
    simp
  simp only [lastVisit_singleton, same]

theorem lastVisit_snoc {i pos : Nat} {kind' : Kind} {next : Option Nat}
    (here : a.get? i = some ⟨kind', next⟩) (tr : List (Nat × Nat)) :
    a.lastVisit kind (tr ++ [(i, pos)]) = if kind' = kind then some pos else a.lastVisit kind tr := by
  rw [lastVisit_append, lastVisit_of_get? here]
  split <;> rfl

theorem lastVisit_eq_none_iff {trace : List (Nat × Nat)} :
    a.lastVisit kind trace = none ↔ ∀ step ∈ trace, ¬ a.IsAt kind step.1 := by
  simp [lastVisit]

end Arena

namespace Term

variable {a : Arena} {classes : ClassTable} {text : Text} {dir : Direction} {k pos mid pos' : Nat}
  {tr tr' : List (Nat × Nat)}

/-- A trace leaves group `k` alone, or at its end the group has been gone through, around a match of
what is in it. -/
inductive Keeps (a : Arena) (classes : ClassTable) (text : Text) (dir : Direction)
    (groups : List (Option Nat × Term)) (k : Nat) (tr : List (Nat × Nat)) (pos mid : Nat) : Prop where
  | untouched (opened : a.lastVisit (.openGroup (some k)) tr = none)
      (closed : a.lastVisit (.closeGroup (some k)) tr = none)
  | enclosed {here there : Nat} {body : Term}
      (opened : a.lastVisit (.openGroup (some k)) tr = some here)
      (closed : a.lastVisit (.closeGroup (some k)) tr = some there)
      (member : (some k, body) ∈ groups)
      (inner : dir.Between (body.tree.Matches classes text) here there)
      (low : dir.Between (· ≤ ·) pos here) (high : dir.Between (· ≤ ·) there mid)

namespace Keeps

variable {groups groups' : List (Option Nat × Term)}

theorem mono (sub : ∀ g, g ∈ groups → g ∈ groups') (h : Keeps a classes text dir groups k tr pos mid) :
    Keeps a classes text dir groups' k tr pos mid := by
  cases h with
  | untouched opened closed => exact .untouched opened closed
  | enclosed opened closed member inner low high =>
    exact .enclosed opened closed (sub _ member) inner low high

theorem append (fst : Keeps a classes text dir groups k tr pos mid)
    (snd : Keeps a classes text dir groups k tr' mid pos') (le : dir.Between (· ≤ ·) pos mid)
    (le' : dir.Between (· ≤ ·) mid pos') : Keeps a classes text dir groups k (tr ++ tr') pos pos' := by
  cases snd with
  | untouched opened' closed' =>
    cases fst with
    | untouched opened closed =>
      refine .untouched ?_ ?_
      · rw [Arena.lastVisit_append, opened', opened, Option.or]
      · rw [Arena.lastVisit_append, closed', closed, Option.or]
    | enclosed opened closed member inner low high =>
      refine .enclosed ?_ ?_ member inner low (between_le_trans high le')
      · rw [Arena.lastVisit_append, opened', opened, Option.or]
      · rw [Arena.lastVisit_append, closed', closed, Option.or]
  | enclosed opened' closed' member inner low high =>
    refine .enclosed ?_ ?_ member inner (between_le_trans le low) high
    · rw [Arena.lastVisit_append, opened', Option.or]
    · rw [Arena.lastVisit_append, closed', Option.or]

theorem of_get? {i : Nat} {kind : Kind} {next : Option Nat} (here : a.get? i = some ⟨kind, next⟩)
    (no_open : kind ≠ .openGroup (some k)) (no_close : kind ≠ .closeGroup (some k)) :
    Keeps a classes text dir groups k [(i, pos)] pos mid := by
  refine .untouched ?_ ?_
  · rw [Arena.lastVisit_of_get? here, if_neg no_open]
  · rw [Arena.lastVisit_of_get? here, if_neg no_close]

theorem cons {i : Nat} {kind : Kind} {next : Option Nat} (here : a.get? i = some ⟨kind, next⟩)
    (no_open : kind ≠ .openGroup (some k)) (no_close : kind ≠ .closeGroup (some k))
    (rest : Keeps a classes text dir groups k tr pos mid) (le : dir.Between (· ≤ ·) pos mid) :
    Keeps a classes text dir groups k ((i, pos) :: tr) pos mid :=
  (of_get? here no_open no_close).append rest (between_le_refl dir pos) le

theorem between_edges {i j : Nat} {number next next' : Option Nat}
    (opened : a.get? i = some ⟨.openGroup number, next⟩)
    (close : a.get? j = some ⟨.closeGroup number, next'⟩) (other : number ≠ some k)
    (within : Keeps a classes text dir groups k tr pos mid) (le : dir.Between (· ≤ ·) pos mid) :
    Keeps a classes text dir groups k ((i, pos) :: (tr ++ [(j, mid)])) pos mid := by
  have no_open : Kind.openGroup number ≠ .openGroup (some k) := fun is => other (Kind.openGroup.inj is)
  have no_close : Kind.closeGroup number ≠ .closeGroup (some k) :=
    fun is => other (Kind.closeGroup.inj is)
  have left := within.append (.of_get? close nofun no_close) le (between_le_refl dir mid)
  exact .cons opened no_open nofun left le

theorem of_edges {i j : Nat} {body : Term} {next next' : Option Nat}
    (opened : a.get? i = some ⟨.openGroup (some k), next⟩)
    (close : a.get? j = some ⟨.closeGroup (some k), next'⟩)
    (within : Keeps a classes text dir groups k tr pos mid) (unnested : ∀ e, (some k, e) ∉ groups)
    (inner : dir.Between (body.tree.Matches classes text) pos mid) :
    Keeps a classes text dir ((some k, body) :: groups) k ((i, pos) :: (tr ++ [(j, mid)])) pos mid := by
  cases within with
  | untouched opened' closed' =>
    have opened_at : a.lastVisit (.openGroup (some k)) ((i, pos) :: (tr ++ [(j, mid)])) = some pos := by
      rw [← List.singleton_append, Arena.lastVisit_append, Arena.lastVisit_append, opened',
        Arena.lastVisit_of_get? close, if_neg nofun, Arena.lastVisit_of_get? opened, if_pos rfl]
      rfl
    have closed_at : a.lastVisit (.closeGroup (some k)) ((i, pos) :: (tr ++ [(j, mid)])) = some mid := by
      rw [← List.singleton_append, Arena.lastVisit_append, Arena.lastVisit_append,
        Arena.lastVisit_of_get? close, if_pos rfl]
      rfl
    exact .enclosed opened_at closed_at List.mem_cons_self inner (between_le_refl dir pos)
      (between_le_refl dir mid)
  | enclosed _ _ member => exact absurd member (unnested _)

end Keeps

theorem Runs.keeps {e : Term} {lo next : Nat} (runs : e.Runs classes text dir lo pos tr mid)
    (coded : e.Coded a dir lo next) (unnested : e.Unnested k) (low : pos ≤ text.length)
    (high : mid ≤ text.length) : Keeps a classes text dir e.groups k tr pos mid := by
  induction runs generalizing next with
  | atom range => exact .of_get? coded nofun nofun
  | @group opening number body lo pos mid tr inner ih =>
    obtain ⟨inside, close, opened⟩ := coded
    have within := ih inside (unnested.mono fun _ => List.mem_cons_of_mem _) low high
    by_cases mine : number = some k
    · subst mine
      exact .of_edges opened close within (unnested body List.mem_cons_self) (inner.matches low high)
    · have fits := within.mono fun g member => List.mem_cons_of_mem (number, body) member
      exact .between_edges opened close mine fits inner.le
  | @skip q body lo pos optional =>
    have fork : ∃ right j, a.get? (lo + body.size) = some ⟨.fork right, j⟩ := by
      cases q <;> exact ⟨_, _, coded.2⟩
    obtain ⟨right, j, fork⟩ := fork
    exact .of_get? fork nofun nofun
  | quest inner ih => exact .cons coded.2 nofun nofun (ih coded.1 unnested low high) inner.le
  | star inner more ih ih' =>
    have between := le_of_between inner.le more.le low high
    have passes := (ih coded.1 unnested low between).append (ih' coded unnested between high) inner.le
      more.le
    exact .cons coded.2 nofun nofun passes (between_le_trans inner.le more.le)
  | plus inner more ih ih' =>
    have between := le_of_between inner.le more.le low high
    exact (ih coded.1 unnested low between).append (ih' coded unnested between high) inner.le more.le
  | @sequenceForward fst snd lo pos mid mid' tr tr' is first second ih ih' =>
    have between := le_of_between first.le second.le low high
    subst is
    have front := ih coded.1 (unnested.mono fun _ => List.mem_append_left _) low between
    have back := ih' coded.2 (unnested.mono fun _ => List.mem_append_right _) between high
    exact (front.mono fun _ => List.mem_append_left _).append
      (back.mono fun _ => List.mem_append_right _) first.le second.le
  | @sequenceBackward fst snd lo pos mid mid' tr tr' is first second ih ih' =>
    have between := le_of_between first.le second.le low high
    subst is
    have front := ih coded.2 (unnested.mono fun _ => List.mem_append_right _) low between
    have back := ih' coded.1 (unnested.mono fun _ => List.mem_append_left _) between high
    exact (front.mono fun _ => List.mem_append_right _).append
      (back.mono fun _ => List.mem_append_left _) first.le second.le
  | alternateLeft inner ih =>
    have within := ih coded.1 (unnested.mono fun _ => List.mem_append_left _) low high
    exact .cons coded.2.2 nofun nofun (within.mono fun _ => List.mem_append_left _) inner.le
  | alternateRight inner ih =>
    have within := ih coded.2.1 (unnested.mono fun _ => List.mem_append_right _) low high
    exact .cons coded.2.2 nofun nofun (within.mono fun _ => List.mem_append_right _) inner.le

end Term

end CursorRegex
