import CursorRegex.Proofs.Outcome
import CursorRegex.Proofs.Pattern.Precedence
import CursorRegex.Proofs.Program.Layout

/-! # What assembly puts into the arena

While steps are carried out, the arena holds the blocks of the terms on the stack, one behind the
other in the order they were built, and the operands are their entries and exits (`Holds`).  Each step
keeps this (`Holds.step`), so a program that gets assembled is the block of the one term its steps
denote (`run_eq_ok`). -/
set_option autoImplicit false

namespace CursorRegex

namespace Arena

variable {limit : Nat} {a a' : Arena}

theorem alloc_eq_ok {kind : Kind} {i : Nat} (h : a.alloc limit kind = .ok (i, a')) :
    i = a.insts.toList.length ∧ a'.insts.toList = a.insts.toList ++ [⟨kind, none⟩] := by
  unfold alloc at h
  split at h
  · cases h
  · cases h
    exact ⟨rfl, Array.toList_push⟩

theorem connect_eq_ok {source target : Nat} (h : a.connect source target = .ok a') :
    a'.insts.toList = a.insts.toList.modify source (Instruction.linkedTo target) := by
  unfold connect link at h
  split at h
  · cases h
    exact Array.toList_modify
  · cases h

end Arena

def Term.fragment (dir : Direction) (e : Term) (lo : Nat) : Fragment :=
  ⟨e.first dir lo, e.last dir lo⟩

/-! ## One operator -/

namespace Arena

variable {limit : Nat} {a a' : Arena} {dir : Direction} {front : List Instruction} {f : Fragment}

theorem alloc_connect_eq_ok {kind : Kind} {i target : Nat} {a₁ : Arena}
    (new : a.alloc limit kind = .ok (i, a₁)) (linked : a₁.connect i target = .ok a') :
    i = a.insts.toList.length ∧ a'.insts.toList = a.insts.toList ++ [⟨kind, some target⟩] := by
  obtain ⟨rfl, h₁⟩ := alloc_eq_ok new
  refine ⟨rfl, ?_⟩
  rw [connect_eq_ok linked, h₁, ← Nat.add_zero a.insts.toList.length, modify_append_right]
  rfl

theorem connect_last_eq_ok {e : Term} {lo target : Nat} {back : List Instruction}
    (start : front.length = lo) (holds : a.insts.toList = front ++ (e.code dir lo none ++ back))
    (linked : a.connect (e.last dir lo) target = .ok a') :
    a'.insts.toList = front ++ (e.code dir lo (some target) ++ back) := by
  subst start
  rw [connect_eq_ok linked, holds, Term.modify_last]

theorem ofGroup_eq_ok {body : Term} {lo : Nat} {number : Option Nat} (opening : Span)
    (start : front.length = lo) (holds : a.insts.toList = front ++ body.code dir lo none)
    (h : a.ofGroup limit number (body.fragment dir lo) = .ok (f, a')) :
    f = (Term.group opening number body).fragment dir lo ∧
      a'.insts.toList = front ++ (Term.group opening number body).code dir lo none := by
  obtain ⟨⟨close, a₁⟩, closed, h⟩ := bind_eq_ok.mp h
  obtain ⟨a₂, left, h⟩ := bind_eq_ok.mp h
  obtain ⟨⟨opening', a₃⟩, opened, h⟩ := bind_eq_ok.mp h
  obtain ⟨a₄, entered, h⟩ := bind_eq_ok.mp h
  cases h
  obtain ⟨rfl, h₁⟩ := alloc_eq_ok closed
  have at_close : a.insts.toList.length = lo + body.size := by
    rw [holds, List.length_append, Term.length_code, start]
  rw [holds, List.append_assoc] at h₁
  have h₂ := connect_last_eq_ok start h₁ left
  obtain ⟨rfl, h₄⟩ := alloc_connect_eq_ok opened entered
  rw [h₄, h₂, at_close]
  simp only [List.length_append, Term.length_code, List.length_singleton, start]
  refine ⟨by simp [Term.fragment, Term.first, Term.last, Nat.add_assoc], ?_⟩
  simp [Term.code, Term.fragment]

theorem ofSequence_forward_eq_ok {fst snd : Term} {lo : Nat} (start : front.length = lo)
    (holds : a.insts.toList =
      front ++ (fst.code .forward lo none ++ snd.code .forward (lo + fst.size) none))
    (h : a.ofSequence (fst.fragment .forward lo) (snd.fragment .forward (lo + fst.size)) =
      .ok (f, a')) :
    f = (Term.sequence fst snd).fragment .forward lo ∧
      a'.insts.toList = front ++ (Term.sequence fst snd).code .forward lo none := by
  obtain ⟨a₁, linked, h⟩ := bind_eq_ok.mp h
  cases h
  exact ⟨rfl, connect_last_eq_ok start holds linked⟩

/-- Backward, the second operand leads to the first. -/
theorem ofSequence_backward_eq_ok {fst snd : Term} {lo : Nat} (start : front.length = lo)
    (holds : a.insts.toList =
      front ++ (fst.code .backward lo none ++ snd.code .backward (lo + fst.size) none))
    (h : a.ofSequence (snd.fragment .backward (lo + fst.size)) (fst.fragment .backward lo) =
      .ok (f, a')) :
    f = (Term.sequence fst snd).fragment .backward lo ∧
      a'.insts.toList = front ++ (Term.sequence fst snd).code .backward lo none := by
  obtain ⟨a₁, linked, h⟩ := bind_eq_ok.mp h
  cases h
  have start' : (front ++ fst.code .backward lo none).length = lo + fst.size := by
    rw [List.length_append, Term.length_code, start]
  rw [← List.append_assoc, ← List.append_nil (snd.code _ _ _)] at holds
  have h₁ := connect_last_eq_ok start' holds linked
  refine ⟨rfl, ?_⟩
  rw [h₁, List.append_nil, List.append_assoc]
  rfl

theorem ofAlternate_eq_ok {fst snd : Term} {lo : Nat} (start : front.length = lo)
    (holds : a.insts.toList =
      front ++ (fst.code dir lo none ++ snd.code dir (lo + fst.size) none))
    (h : a.ofAlternate limit (fst.fragment dir lo) (snd.fragment dir (lo + fst.size)) =
      .ok (f, a')) :
    f = (Term.alternate fst snd).fragment dir lo ∧
      a'.insts.toList = front ++ (Term.alternate fst snd).code dir lo none := by
  obtain ⟨⟨exit, a₁⟩, exits, h⟩ := bind_eq_ok.mp h
  obtain ⟨a₂, snd_left, h⟩ := bind_eq_ok.mp h
  obtain ⟨a₃, fst_left, h⟩ := bind_eq_ok.mp h
  obtain ⟨⟨fork, a₄⟩, forks, h⟩ := bind_eq_ok.mp h
  obtain ⟨a₅, entered, h⟩ := bind_eq_ok.mp h
  cases h
  obtain ⟨rfl, h₁⟩ := alloc_eq_ok exits
  have at_exit : a.insts.toList.length = lo + fst.size + snd.size := by
    simp only [holds, List.length_append, Term.length_code, start]
    omega
  have start' : (front ++ fst.code dir lo none).length = lo + fst.size := by
    rw [List.length_append, Term.length_code, start]
  rw [holds, ← List.append_assoc front, List.append_assoc] at h₁
  have h₂ := connect_last_eq_ok start' h₁ snd_left
  rw [List.append_assoc] at h₂
  have h₃ := connect_last_eq_ok start h₂ fst_left
  obtain ⟨rfl, h₅⟩ := alloc_connect_eq_ok forks entered
  rw [h₅, h₃, at_exit]
  simp only [List.length_append, Term.length_code, List.length_singleton, start]
  refine ⟨by simp [Term.fragment, Term.first, Term.last, Nat.add_assoc], ?_⟩
  simp [Term.code, Term.fragment]

theorem ofQuantified_eq_ok {body : Term} {lo : Nat} {q : Quantifier} (start : front.length = lo)
    (holds : a.insts.toList = front ++ body.code dir lo none)
    (h : a.ofQuantified limit q (body.fragment dir lo) = .ok (f, a')) :
    f = (Term.repeated q body).fragment dir lo ∧
      a'.insts.toList = front ++ (Term.repeated q body).code dir lo none := by
  obtain ⟨⟨fork, a₁⟩, forks, h⟩ := bind_eq_ok.mp h
  obtain ⟨rfl, h₁⟩ := alloc_eq_ok forks
  have at_fork : a.insts.toList.length = lo + body.size := by
    rw [holds, List.length_append, Term.length_code, start]
  rw [holds, List.append_assoc] at h₁
  cases q with
  | star | plus =>
    obtain ⟨a₂, left, h⟩ := bind_eq_ok.mp h
    cases h
    have h₂ := connect_last_eq_ok start h₁ left
    rw [h₂, at_fork]
    exact ⟨rfl, rfl⟩
  | quest =>
    obtain ⟨⟨exit, a₂⟩, exits, h⟩ := bind_eq_ok.mp h
    obtain ⟨a₃, skips, h⟩ := bind_eq_ok.mp h
    obtain ⟨a₄, left, h⟩ := bind_eq_ok.mp h
    cases h
    obtain ⟨rfl, h₂⟩ := alloc_eq_ok exits
    have at_exit : a₁.insts.toList.length = lo + body.size + 1 := by
      simp only [h₁, List.length_append, Term.length_code, start, List.length_singleton]
      omega
    have fork_place : a.insts.toList.length =
        (front ++ body.code dir lo none).length + 0 := by rw [holds, Nat.add_zero]
    have h₃ : a₃.insts.toList = front ++ (body.code dir lo none ++
        [⟨.fork (body.first dir lo), some (lo + body.size + 1)⟩, ⟨.empty, none⟩]) := by
      rw [connect_eq_ok skips, at_exit, h₂, h₁, fork_place, ← List.append_assoc front,
        List.append_assoc (front ++ _), modify_append_right, List.append_assoc]
      rfl
    have h₄ := connect_last_eq_ok start h₃ left
    rw [h₄, at_exit, at_fork]
    exact ⟨rfl, rfl⟩

end Arena

/-! ## The stack of operands -/

namespace Term

def totalSize : List Term → Nat
  | [] => 0
  | e :: es => totalSize es + e.size

def blocks (dir : Direction) (lo : Nat) : List Term → List Instruction
  | [] => []
  | e :: es => blocks dir lo es ++ e.code dir (lo + totalSize es) none

def fragments (dir : Direction) (lo : Nat) : List Term → List Fragment
  | [] => []
  | e :: es => e.fragment dir (lo + totalSize es) :: fragments dir lo es

theorem length_blocks (dir : Direction) (lo : Nat) (es : List Term) :
    (blocks dir lo es).length = totalSize es := by
  induction es with
  | nil => rfl
  | cons e es ih => rw [blocks, totalSize, List.length_append, ih, length_code]

end Term

namespace Assembly

variable {limits : Limits} {dir : Direction} {base : List Instruction} {ts : List Term}
  {s s' : Assembly}

/-- The arena continues `base` with the blocks of the terms, and the operands are their fragments. -/
structure Holds (dir : Direction) (base : List Instruction) (ts : List Term) (s : Assembly) :
    Prop where
  insts : s.arena.insts.toList = base ++ Term.blocks dir base.length ts
  operands : s.operands = Term.fragments dir base.length ts

theorem holds_nil (dir : Direction) (a : Arena) : Holds dir a.insts.toList [] ⟨a, []⟩ :=
  ⟨(List.append_nil _).symm, rfl⟩

theorem holds_push {rest : List Term} {e : Term} {made : Fragment × Arena}
    (entered : made.1 = e.fragment dir (base.length + Term.totalSize rest))
    (insts : made.2.insts.toList = base ++ Term.blocks dir base.length rest ++
      e.code dir (base.length + Term.totalSize rest) none)
    (h : push limits (Term.fragments dir base.length rest) made = .ok s') :
    Holds dir base (e :: rest) s' := by
  obtain ⟨f, a⟩ := made
  simp only [push] at h
  split at h
  · cases h
  · cases h
    exact ⟨by rw [insts, Term.blocks, List.append_assoc], by rw [Term.fragments, ← entered]⟩

theorem Holds.pushSingle {a : Atom} (h : Holds dir base ts s)
    (step : s.pushSingle limits (.atom a) = .ok s') : Holds dir base (.atom a :: ts) s' := by
  obtain ⟨arena, operands⟩ := s
  obtain ⟨insts, rfl⟩ := h
  obtain ⟨⟨i, a₁⟩, new, pushed⟩ := bind_eq_ok.mp step
  obtain ⟨rfl, h₁⟩ := Arena.alloc_eq_ok new
  dsimp only at insts
  refine holds_push ?_ ?_ pushed
  · rw [insts, List.length_append, Term.length_blocks]
    rfl
  · rw [h₁, insts]
    rfl

theorem Holds.apply {p : Pending} (h : Holds dir base ts s) (step : s.apply limits dir p = .ok s') :
    ∃ us, p.eval ts = some us ∧ Holds dir base us s' := by
  obtain ⟨arena, operands⟩ := s
  obtain ⟨insts, rfl⟩ := h
  obtain ⟨op, span, number⟩ := p
  dsimp only at insts
  have place : ∀ rest : List Term, (base ++ Term.blocks dir base.length rest).length =
      base.length + Term.totalSize rest := fun rest => by
    rw [List.length_append, Term.length_blocks]
  match op, ts with
  | .group, [] | .quantify _, [] | .alternate, [] | .concat, [] => cases step
  | .alternate, [_] | .concat, [_] => cases step
  | .group, body :: rest =>
    obtain ⟨⟨f, a₁⟩, made, pushed⟩ := bind_eq_ok.mp step
    rw [Term.blocks, ← List.append_assoc] at insts
    obtain ⟨entered, insts'⟩ := Arena.ofGroup_eq_ok span (place rest) insts made
    exact ⟨_, rfl, holds_push entered insts' pushed⟩
  | .quantify q, body :: rest =>
    obtain ⟨⟨f, a₁⟩, made, pushed⟩ := bind_eq_ok.mp step
    rw [Term.blocks, ← List.append_assoc] at insts
    obtain ⟨entered, insts'⟩ := Arena.ofQuantified_eq_ok (place rest) insts made
    exact ⟨_, rfl, holds_push entered insts' pushed⟩
  | .alternate, snd :: fst :: rest =>
    obtain ⟨⟨f, a₁⟩, made, pushed⟩ := bind_eq_ok.mp step
    rw [Term.blocks, Term.blocks, List.append_assoc, ← List.append_assoc base, Term.totalSize,
      ← Nat.add_assoc] at insts
    rw [Term.totalSize, ← Nat.add_assoc] at made
    obtain ⟨entered, insts'⟩ := Arena.ofAlternate_eq_ok (place rest) insts made
    exact ⟨_, rfl, holds_push entered insts' pushed⟩
  | .concat, snd :: fst :: rest =>
    rw [Term.blocks, Term.blocks, List.append_assoc, ← List.append_assoc base, Term.totalSize,
      ← Nat.add_assoc] at insts
    cases dir with
    | forward =>
      obtain ⟨⟨f, a₁⟩, made, pushed⟩ := bind_eq_ok.mp step
      rw [Term.totalSize, ← Nat.add_assoc] at made
      obtain ⟨entered, insts'⟩ := Arena.ofSequence_forward_eq_ok (place rest) insts made
      exact ⟨_, rfl, holds_push entered insts' pushed⟩
    | backward =>
      obtain ⟨⟨f, a₁⟩, made, pushed⟩ := bind_eq_ok.mp step
      rw [Term.totalSize, ← Nat.add_assoc] at made
      obtain ⟨entered, insts'⟩ := Arena.ofSequence_backward_eq_ok (place rest) insts made
      exact ⟨_, rfl, holds_push entered insts' pushed⟩

theorem Holds.step {step : Step} (h : Holds dir base ts s)
    (done : s.step limits dir step = .ok s') :
    ∃ us, step.eval ts = some us ∧ Holds dir base us s' := by
  cases step with
  | atom a => exact ⟨_, rfl, h.pushSingle done⟩
  | apply p => exact h.apply done

theorem Holds.steps {steps : List Step} (h : Holds dir base ts s)
    (done : steps.foldlM (Assembly.step limits dir) s = .ok s') :
    ∃ us, Step.evalAll ts steps = some us ∧ Holds dir base us s' := by
  induction steps generalizing s ts with
  | nil =>
    cases done
    exact ⟨ts, rfl, h⟩
  | cons step steps ih =>
    rw [List.foldlM_cons] at done
    obtain ⟨s₁, first, rest⟩ := bind_eq_ok.mp done
    obtain ⟨us₁, eval, holds⟩ := h.step first
    obtain ⟨us, eval', holds'⟩ := ih holds rest
    refine ⟨us, ?_, holds'⟩
    rw [Step.evalAll_cons, eval, Option.bind_some, eval']

/-! ## A whole program -/

variable {entry : Nat} {a : Arena}

theorem Holds.finish_nothing (h : Holds dir base ts s) (done : s.finish limits none = .ok (entry, a)) :
    ts = [] ∧ a.insts.toList = base ++ programCode dir base.length none ∧
      entry = programEntry dir base.length none := by
  obtain ⟨arena, operands⟩ := s
  obtain ⟨insts, rfl⟩ := h
  obtain ⟨s₁, single, done⟩ := bind_eq_ok.mp done
  obtain ⟨⟨i, a₁⟩, new, pushed⟩ := bind_eq_ok.mp single
  obtain ⟨rfl, h₁⟩ := Arena.alloc_eq_ok new
  dsimp only at insts
  simp only [push] at pushed
  split at pushed
  · cases pushed
  · cases pushed
    cases ts with
    | cons e rest => cases done
    | nil =>
      rw [Term.blocks, List.append_nil] at insts
      cases done
      refine ⟨rfl, ?_, ?_⟩
      · rw [h₁, insts]
        rfl
      · rw [insts]
        rfl

theorem Holds.finish_term {p : Pending} (is : p.op = .concat) (h : Holds dir base ts s)
    (done : s.finish limits (some p) = .ok (entry, a)) :
    ∃ e, ts = [e] ∧ a.insts.toList = base ++ programCode dir base.length (some e) ∧
      entry = programEntry dir base.length (some e) := by
  obtain ⟨arena, operands⟩ := s
  obtain ⟨op, span, number⟩ := p
  obtain ⟨insts, rfl⟩ := h
  obtain ⟨s₁, single, done⟩ := bind_eq_ok.mp done
  obtain ⟨⟨i, a₁⟩, new, pushed⟩ := bind_eq_ok.mp single
  obtain ⟨rfl, h₁⟩ := Arena.alloc_eq_ok new
  dsimp only at insts is
  subst is
  simp only [push] at pushed
  split at pushed
  · cases pushed
  · cases pushed
    obtain ⟨s₂, joined, done⟩ := bind_eq_ok.mp done
    cases ts with
    | nil => cases joined
    | cons e rest =>
      obtain ⟨⟨f, a₂⟩, made, pushed⟩ := bind_eq_ok.mp joined
      obtain ⟨a₃, linked, made⟩ := bind_eq_ok.mp made
      cases made
      simp only [push] at pushed
      split at pushed
      · cases pushed
      · cases pushed
        cases rest with
        | cons e' rest => cases done
        | nil =>
          cases done
          simp only [Term.blocks, Term.totalSize, Nat.add_zero, List.nil_append] at insts
          rw [insts, List.append_assoc] at h₁
          have h₂ := Arena.connect_last_eq_ok rfl h₁ linked
          refine ⟨e, rfl, ?_, rfl⟩
          rw [h₂, insts, List.length_append, Term.length_code]
          rfl

theorem ofTokens_joint {limit length : Nat} {toks : List Token} {ts us : List Term} {p : Pending}
    (h : (Polish.ofTokens limit length toks).Settles ts (some p) us) : p.op = .concat := by
  obtain ⟨r, us, -, ends⟩ := Polish.settles_andThen.mp h
  obtain ⟨-, -, joint⟩ := Reader.settles_finish ends
  cases after : r.afterOperand with
  | false => simp [after] at joint
  | true =>
    simp only [after, if_true] at joint
    obtain ⟨number, same⟩ := joint
    cases same
    rfl

/-- What is assembled is the block of the term that the steps denote. -/
theorem run_eq_ok {length : Nat} {toks : List Token} {start : Arena}
    (h : run limits dir (Polish.ofTokens limits.stack length toks) start = .ok (entry, a)) :
    ∃ o, (Polish.ofTokens limits.stack length toks).Yields o ∧
      a.insts.toList = start.insts.toList ++ programCode dir start.size o ∧
      entry = programEntry dir start.size o := by
  obtain ⟨s, steps, h⟩ := bind_eq_ok.mp h
  obtain ⟨joint, result, done⟩ := bind_eq_ok.mp h
  obtain ⟨ts, eval, holds⟩ := (holds_nil dir start).steps steps
  have settles : (Polish.ofTokens limits.stack length toks).Settles [] joint ts := ⟨result, eval⟩
  cases joint with
  | none =>
    obtain ⟨rfl, insts, entered⟩ := holds.finish_nothing done
    exact ⟨none, .nothing settles, insts, entered⟩
  | some p =>
    have is := ofTokens_joint settles
    obtain ⟨e, rfl, insts, entered⟩ := holds.finish_term is done
    exact ⟨some e, .term is settles, insts, entered⟩

end Assembly

end CursorRegex
