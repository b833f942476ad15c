import CursorRegex.Program.Assembly
import CursorRegex.Proofs.Pattern.Term

/-! # Where the instructions of a term lie

The instructions of a term fill a block of the arena.  `Term.code` writes the block down for a term
that begins at `lo` and whose open end leads to `next`; `first` and `last` are the places where the
block is entered and left.  A term keeps the same block in both directions up to the links of its
sequences.

Only the last instruction has an open end, so giving the block a successor rewrites that one link
(`modify_last`). -/
set_option autoImplicit false

namespace CursorRegex

def Quantifier.size : Quantifier → Nat
  | .star | .plus => 1
  | .quest => 2

namespace Term

def size : Term → Nat
  | .atom _ => 1
  | .group _ _ body => body.size + 2
  | .repeated q body => body.size + q.size
  | .sequence fst snd => fst.size + snd.size
  | .alternate fst snd => fst.size + snd.size + 2

def first (dir : Direction) : Term → Nat → Nat
  | .atom _, lo => lo
  | .group _ _ body, lo => lo + body.size + 1
  | .repeated .plus body, lo => body.first dir lo
  | .repeated _ body, lo => lo + body.size
  | .sequence fst snd, lo =>
    match dir with
    | .forward => fst.first dir lo
    | .backward => snd.first dir (lo + fst.size)
  | .alternate fst snd, lo => lo + fst.size + snd.size + 1

def last (dir : Direction) : Term → Nat → Nat
  | .atom _, lo => lo
  | .group _ _ body, lo => lo + body.size
  | .repeated .quest body, lo => lo + body.size + 1
  | .repeated _ body, lo => lo + body.size
  | .sequence fst snd, lo =>
    match dir with
    | .forward => snd.last dir (lo + fst.size)
    | .backward => fst.last dir lo
  | .alternate fst snd, lo => lo + fst.size + snd.size

def code (dir : Direction) : Term → Nat → Option Nat → List Instruction
  | .atom a, _, next => [⟨.atom a, next⟩]
  | .group _ number body, lo, next =>
    body.code dir lo (some (lo + body.size)) ++
      [⟨.closeGroup number, next⟩, ⟨.openGroup number, some (body.first dir lo)⟩]
  | .repeated .quest body, lo, next =>
    body.code dir lo (some (lo + body.size + 1)) ++
      [⟨.fork (body.first dir lo), some (lo + body.size + 1)⟩, ⟨.empty, next⟩]
  | .repeated _ body, lo, next =>
    body.code dir lo (some (lo + body.size)) ++ [⟨.fork (body.first dir lo), next⟩]
  | .sequence fst snd, lo, next =>
    match dir with
    | .forward =>
      fst.code dir lo (some (snd.first dir (lo + fst.size))) ++ snd.code dir (lo + fst.size) next
    | .backward =>
      fst.code dir lo next ++ snd.code dir (lo + fst.size) (some (fst.first dir lo))
  | .alternate fst snd, lo, next =>
    fst.code dir lo (some (lo + fst.size + snd.size)) ++
      (snd.code dir (lo + fst.size) (some (lo + fst.size + snd.size)) ++
        [⟨.empty, next⟩, ⟨.fork (fst.first dir lo), some (snd.first dir (lo + fst.size))⟩])

theorem length_code (dir : Direction) (e : Term) (lo : Nat) (next : Option Nat) :
    (e.code dir lo next).length = e.size := by
  induction e generalizing lo next with
  | atom a => rfl
  | group opening number body ih => simp [code, size, ih]
  | repeated q body ih => cases q <;> simp [code, size, Quantifier.size, ih]
  | sequence fst snd ih ih' => cases dir <;> simp [code, size, ih, ih']
  | alternate fst snd ih ih' =>
    simp only [code, size, List.length_append, List.length_cons, List.length_nil, ih, ih']
    omega

theorem first_mem (dir : Direction) (e : Term) (lo : Nat) :
    lo ≤ e.first dir lo ∧ e.first dir lo < lo + e.size := by
  induction e generalizing lo with
  | atom a => simp [first, size]
  | group opening number body ih => simp only [first, size]; omega
  | repeated q body ih =>
    have := ih lo
    cases q <;> simp only [first, size, Quantifier.size] <;> omega
  | sequence fst snd ih ih' =>
    have := ih lo
    have := ih' (lo + fst.size)
    cases dir <;> simp only [first, size] <;> omega
  | alternate fst snd ih ih' => simp only [first, size]; omega

theorem last_mem (dir : Direction) (e : Term) (lo : Nat) :
    lo ≤ e.last dir lo ∧ e.last dir lo < lo + e.size := by
  induction e generalizing lo with
  | atom a => simp [last, size]
  | group opening number body ih => simp only [last, size]; omega
  | repeated q body ih => cases q <;> simp only [last, size, Quantifier.size] <;> omega
  | sequence fst snd ih ih' =>
    have := ih lo
    have := ih' (lo + fst.size)
    cases dir <;> simp only [last, size] <;> omega
  | alternate fst snd ih ih' => simp only [last, size]; omega

end Term

def programCode (dir : Direction) (lo : Nat) : Option Term → List Instruction
  | none => [⟨.accept, none⟩]
  | some e => e.code dir lo (some (lo + e.size)) ++ [⟨.accept, none⟩]

def programEntry (dir : Direction) (lo : Nat) : Option Term → Nat
  | none => lo
  | some e => e.first dir lo

/-! ## Rewriting inside a list of blocks -/

section Modify

variable {α : Type} (f : α → α) (front back : List α)

theorem modify_append_right (i : Nat) :
    (front ++ back).modify (front.length + i) f = front ++ back.modify i f :=
  List.modifyTailIdx_add _ i front back

theorem modify_append_left {i : Nat} (within : i < front.length) :
    (front ++ back).modify i f = front.modify i f ++ back := by
  induction front generalizing i with
  | nil => cases within
  | cons a front ih =>
    cases i with
    | zero => rfl
    | succ i =>
      rw [List.cons_append, List.modify_succ_cons, List.modify_succ_cons,
        ih (Nat.lt_of_succ_lt_succ within), List.cons_append]

theorem modify_middle (middle : List α) {i : Nat} (within : i < middle.length) :
    (front ++ (middle ++ back)).modify (front.length + i) f =
      front ++ (middle.modify i f ++ back) := by
  rw [modify_append_right, modify_append_left f middle back within]

end Modify

def Instruction.linkedTo (target : Nat) (inst : Instruction) : Instruction :=
  { inst with next := some target }

namespace Term

variable (dir : Direction)

theorem modify_code (e : Term) (lo target : Nat) :
    (e.code dir lo none).modify (e.last dir lo - lo) (Instruction.linkedTo target) =
      e.code dir lo (some target) := by
  induction e generalizing lo with
  | atom a => simp [code, last, Instruction.linkedTo]
  | group opening number body ih =>
    have at_end : lo + body.size - lo =
        (body.code dir lo (some (lo + body.size))).length + 0 := by rw [length_code]; omega
    rw [code, last, at_end, modify_append_right]
    rfl
  | repeated q body ih =>
    cases q with
    | star | plus =>
      have at_end : lo + body.size - lo =
          (body.code dir lo (some (lo + body.size))).length + 0 := by rw [length_code]; omega
      simp only [code, last]
      rw [at_end, modify_append_right]
      rfl
    | quest =>
      have at_end : lo + body.size + 1 - lo =
          (body.code dir lo (some (lo + body.size + 1))).length + 1 := by rw [length_code]; omega
      simp only [code, last]
      rw [at_end, modify_append_right]
      rfl
  | sequence fst snd ih ih' =>
    cases dir with
    | forward =>
      have inside := last_mem .forward snd (lo + fst.size)
      have at_snd : snd.last .forward (lo + fst.size) - lo =
          (fst.code .forward lo (some (snd.first .forward (lo + fst.size)))).length +
            (snd.last .forward (lo + fst.size) - (lo + fst.size)) := by
        rw [length_code]
        omega
      simp only [code, last]
      rw [at_snd, modify_append_right, ih']
    | backward =>
      have inside := last_mem .backward fst lo
      have at_fst : fst.last .backward lo - lo < (fst.code .backward lo none).length := by
        rw [length_code]
        omega
      simp only [code, last]
      rw [modify_append_left _ _ _ at_fst, ih]
  | alternate fst snd ih ih' =>
    have at_end : lo + fst.size + snd.size - lo =
        (fst.code dir lo (some (lo + fst.size + snd.size))).length +
          ((snd.code dir (lo + fst.size) (some (lo + fst.size + snd.size))).length + 0) := by
      rw [length_code, length_code]
      omega
    rw [code, last, at_end, modify_append_right, modify_append_right]
    rfl

theorem modify_last (e : Term) (target : Nat) (front back : List Instruction) :
    (front ++ (e.code dir front.length none ++ back)).modify (e.last dir front.length)
        (Instruction.linkedTo target) =
      front ++ (e.code dir front.length (some target) ++ back) := by
  have inside := last_mem dir e front.length
  have at_e : e.last dir front.length =
      front.length + (e.last dir front.length - front.length) := by omega
  have within : e.last dir front.length - front.length <
      (e.code dir front.length none).length := by
    rw [length_code]
    omega
  rw [at_e, modify_middle _ _ _ _ within, modify_code]

end Term

end CursorRegex
