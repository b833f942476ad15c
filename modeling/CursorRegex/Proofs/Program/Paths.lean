import CursorRegex.Proofs.Pattern.Rearranged
import CursorRegex.Proofs.Program.Encoding
import CursorRegex.Search.Path

/-! # Paths through an arena

What a single step of a path does, one lemma for each kind of instruction, and how paths are put
together. -/
set_option autoImplicit false

namespace CursorRegex

section Between

variable {classes : ClassTable} {text : Text} {dir : Direction}

theorem Direction.between_mono {range range' : Nat → Nat → Prop} {pos pos' : Nat}
    (sub : ∀ i j, range i j → range' i j) (h : dir.Between range pos pos') :
    dir.Between range' pos pos' := by
  cases dir <;> exact sub _ _ h

theorem Atom.Matches.le {x : Atom} {i j : Nat} (h : x.Matches classes text i j) : i ≤ j := by
  cases h <;> omega

end Between

namespace Arena

variable {a : Arena} {classes : ClassTable} {text : Text} {dir : Direction}
  {i j k pos pos' pos'' : Nat}

/-! ## Single steps -/

theorem goes_atom {x : Atom} {next : Option Nat} (here : a.get? i = some ⟨.atom x, next⟩)
    (h : a.Goes classes text dir i pos j pos') :
    next = some j ∧ dir.Between (x.Matches classes text) pos pos' := by
  cases h <;> simp_all

theorem goes_openGroup {number : Option Nat} {target : Nat}
    (here : a.get? i = some ⟨.openGroup number, some target⟩)
    (h : a.Goes classes text dir i pos j pos') : j = target ∧ pos' = pos := by
  cases h <;> simp_all

theorem goes_closeGroup {number : Option Nat} {target : Nat}
    (here : a.get? i = some ⟨.closeGroup number, some target⟩)
    (h : a.Goes classes text dir i pos j pos') : j = target ∧ pos' = pos := by
  cases h <;> simp_all

theorem goes_empty {target : Nat} (here : a.get? i = some ⟨.empty, some target⟩)
    (h : a.Goes classes text dir i pos j pos') : j = target ∧ pos' = pos := by
  cases h <;> simp_all

theorem goes_fork {right target : Nat} (here : a.get? i = some ⟨.fork right, some target⟩)
    (h : a.Goes classes text dir i pos j pos') : (j = target ∨ j = right) ∧ pos' = pos := by
  cases h <;> simp_all

theorem not_goes_accept {next : Option Nat} (here : a.get? i = some ⟨.accept, next⟩) :
    ¬ a.Goes classes text dir i pos j pos' := by
  intro h
  cases h <;> simp_all

/-! ## Paths -/

/-- A path that does not start at an accepting instruction, but ends at one, takes a step. -/
theorem Path.exists_cons {trace : List (Nat × Nat)} {kind : Kind} {next next' : Option Nat}
    (h : a.Path classes text dir i pos trace k pos'') (here : a.get? i = some ⟨kind, next⟩)
    (ne : kind ≠ .accept) (ends : a.get? k = some ⟨.accept, next'⟩) :
    ∃ j pos' rest, trace = (i, pos) :: rest ∧ a.Goes classes text dir i pos j pos' ∧
      a.Path classes text dir j pos' rest k pos'' := by
  cases h with
  | nil =>
    cases here.symm.trans ends
    exact absurd rfl ne
  | cons head tail => exact ⟨_, _, _, rfl, head, tail⟩

theorem Path.step {trace : List (Nat × Nat)} {kind : Kind} {next next' : Option Nat}
    (h : a.Path classes text dir i pos trace k pos'') (here : a.get? i = some ⟨kind, next⟩)
    (ne : kind ≠ .accept) (ends : a.get? k = some ⟨.accept, next'⟩) :
    ∃ j pos' rest, rest.length < trace.length ∧ a.Goes classes text dir i pos j pos' ∧
      a.Path classes text dir j pos' rest k pos'' := by
  obtain ⟨j, pos', rest, rfl, goes, tail⟩ := h.exists_cons here ne ends
  exact ⟨j, pos', rest, Nat.lt_succ_self _, goes, tail⟩

theorem Path.append {trace trace' : List (Nat × Nat)}
    (fst : a.Path classes text dir i pos trace j pos')
    (snd : a.Path classes text dir j pos' trace' k pos'') :
    a.Path classes text dir i pos (trace ++ trace') k pos'' := by
  induction fst with
  | nil => exact snd
  | cons head _ ih => exact .cons head (ih snd)

theorem Path.snoc {trace : List (Nat × Nat)} (h : a.Path classes text dir i pos trace j pos')
    (last : a.Goes classes text dir j pos' k pos'') :
    a.Path classes text dir i pos (trace ++ [(j, pos')]) k pos'' :=
  h.append (.cons last (.nil k pos''))

def Reaches (a : Arena) (classes : ClassTable) (text : Text) (dir : Direction) (i pos j pos' : Nat) :
    Prop :=
  ∃ trace, a.Path classes text dir i pos trace j pos'

theorem Reaches.refl (i pos : Nat) : a.Reaches classes text dir i pos i pos := ⟨[], .nil i pos⟩

theorem Goes.reaches (h : a.Goes classes text dir i pos j pos') :
    a.Reaches classes text dir i pos j pos' := ⟨_, .cons h (.nil j pos')⟩

theorem Reaches.trans (fst : a.Reaches classes text dir i pos j pos')
    (snd : a.Reaches classes text dir j pos' k pos'') :
    a.Reaches classes text dir i pos k pos'' := by
  obtain ⟨trace, path⟩ := fst
  obtain ⟨trace', path'⟩ := snd
  exact ⟨trace ++ trace', path.append path'⟩

end Arena

theorem Arena.Path.eq_nil_of_accept {a : Arena} {classes : ClassTable} {text : Text} {dir : Direction}
    {i k pos pos' : Nat} {next : Option Nat} {trace : List (Nat × Nat)}
    (here : a.get? i = some ⟨.accept, next⟩) (h : a.Path classes text dir i pos trace k pos') :
    trace = [] ∧ pos' = pos := by
  cases h with
  | nil => exact ⟨rfl, rfl⟩
  | cons head => exact absurd head (Arena.not_goes_accept here)

theorem Arena.Path.of_accept {a : Arena} {classes : ClassTable} {text : Text} {dir : Direction}
    {i k pos pos' : Nat} {next : Option Nat} {trace : List (Nat × Nat)}
    (here : a.get? i = some ⟨.accept, next⟩) (h : a.Path classes text dir i pos trace k pos') :
    pos' = pos :=
  (h.eq_nil_of_accept here).2

end CursorRegex
