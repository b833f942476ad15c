import CursorRegex.Pattern.Grammar
import CursorRegex.Pattern.Polish

/-! # What a reverse Polish sequence denotes

Read from left to right, a reverse Polish sequence works on a stack of terms: an atom goes on top, and
an operator takes its operands from the top and leaves there what it makes of them.  A term is a tree
whose groups know the number they are recorded under.

`Polish.Settles` joins the two outcomes of a reading: the value it results in, and the stack its steps
lead to.  `Polish.Proceeds` says that nothing but a limit keeps a reading from settling.  What later
proofs need of the sequencing of readings is `settles_andThen` and `Proceeds.andThen`.  Each
binary operator shortens the stack by one and no other operator changes its length
(`length_evalAll_apply`), which is what the counting of operands rests on. -/
set_option autoImplicit false

namespace CursorRegex

/-- A tree whose groups carry the number they are recorded under, if they are recorded. -/
inductive Term where
  | atom (a : Atom)
  | group (opening : Span) (number : Option Nat) (body : Term)
  | repeated (q : Quantifier) (body : Term)
  | sequence (fst snd : Term)
  | alternate (fst snd : Term)

namespace Term

def tree : Term → Tree
  | .atom a => .atom a
  | .group opening _ body => .group opening body.tree
  | .repeated q body => .repeated q body.tree
  | .sequence fst snd => .sequence fst.tree snd.tree
  | .alternate fst snd => .alternate fst.tree snd.tree

end Term

def Pending.eval (p : Pending) (ts : List Term) : Option (List Term) :=
  match p.op, ts with
  | .group, body :: rest => some (.group p.span p.group body :: rest)
  | .alternate, snd :: fst :: rest => some (.alternate fst snd :: rest)
  | .concat, snd :: fst :: rest => some (.sequence fst snd :: rest)
  | .quantify q, body :: rest => some (.repeated q body :: rest)
  | _, _ => none

namespace Pending

variable {p : Pending} (rest : List Term)

theorem eval_group (is : p.op = .group) (body : Term) :
    p.eval (body :: rest) = some (.group p.span p.group body :: rest) := by
  simp [eval, is]

theorem eval_alternate (is : p.op = .alternate) (snd fst : Term) :
    p.eval (snd :: fst :: rest) = some (.alternate fst snd :: rest) := by
  simp [eval, is]

theorem eval_concat (is : p.op = .concat) (snd fst : Term) :
    p.eval (snd :: fst :: rest) = some (.sequence fst snd :: rest) := by
  simp [eval, is]

theorem eval_quantify {q : Quantifier} (is : p.op = .quantify q) (body : Term) :
    p.eval (body :: rest) = some (.repeated q body :: rest) := by
  simp [eval, is]

end Pending

namespace Step

def eval (ts : List Term) : Step → Option (List Term)
  | .atom a => some (.atom a :: ts)
  | .apply p => p.eval ts

def evalAll (ts : List Term) (steps : List Step) : Option (List Term) := steps.foldlM eval ts

theorem evalAll_nil (ts : List Term) : evalAll ts [] = some ts := rfl

theorem evalAll_cons (ts : List Term) (step : Step) (steps : List Step) :
    evalAll ts (step :: steps) = (step.eval ts).bind (evalAll · steps) := List.foldlM_cons

theorem evalAll_append (ts : List Term) (steps more : List Step) :
    evalAll ts (steps ++ more) = (evalAll ts steps).bind (evalAll · more) := List.foldlM_append

theorem evalAll_append_eq_some {ts vs : List Term} {steps more : List Step} :
    evalAll ts (steps ++ more) = some vs ↔
      ∃ us, evalAll ts steps = some us ∧ evalAll us more = some vs := by
  rw [evalAll_append, Option.bind_eq_some_iff]

theorem evalAll_apply_singleton (ts : List Term) (p : Pending) :
    evalAll ts ([p].map .apply) = p.eval ts := by
  rw [List.map_singleton, evalAll_cons]
  exact Option.bind_fun_some (p.eval ts)

theorem evalAll_apply_cons (ts : List Term) (p : Pending) (ps : List Pending) :
    evalAll ts ((p :: ps).map .apply) = (p.eval ts).bind (evalAll · (ps.map .apply)) :=
  evalAll_cons ts (.apply p) (ps.map .apply)

end Step

/-! ## Readings and the stacks they leave -/

def Polish.Settles {α : Type} (x : Polish α) (ts : List Term) (a : α) (us : List Term) : Prop :=
  x.result = .ok a ∧ Step.evalAll ts x.steps = some us

namespace Polish

variable {α β : Type}

theorem settles_pure {a b : α} {ts us : List Term} :
    (Polish.pure a).Settles ts b us ↔ a = b ∧ ts = us := by
  simp [Settles, Polish.pure, Step.evalAll_nil]

theorem not_settles_fail {cause : Cause} {a : α} {ts us : List Term} :
    ¬ (Polish.fail cause : Polish α).Settles ts a us := by
  simp [Settles, Polish.fail]

theorem settles_andThen {x : Polish α} {f : α → Polish β} {b : β} {ts vs : List Term} :
    (x.andThen f).Settles ts b vs ↔ ∃ a us, x.Settles ts a us ∧ (f a).Settles us b vs := by
  obtain ⟨steps, result⟩ := x
  cases result with
  | error cause => simp [Settles, andThen]
  | ok a =>
    simp only [Settles, andThen, Step.evalAll_append_eq_some]
    constructor
    · rintro ⟨done, us, first, second⟩
      exact ⟨a, us, ⟨rfl, first⟩, done, second⟩
    · rintro ⟨a', us, ⟨same, first⟩, done, second⟩
      cases same
      exact ⟨done, us, first, second⟩

/-- The steps of the reading lead somewhere from the stack `ts`, and unless a limit ends it, what it
results in and the stack it leaves have `post`. -/
def Proceeds (x : Polish α) (ts : List Term) (post : α → List Term → Prop) : Prop :=
  ∃ us, Step.evalAll ts x.steps = some us ∧
    match x.result with
    | .ok a => post a us
    | .error cause => cause.isLimit = true

namespace Proceeds

variable {x : Polish α} {ts us : List Term} {mid post : α → List Term → Prop}

theorem of_settles {a : α} (h : x.Proceeds ts post) (settles : x.Settles ts a us) : post a us := by
  obtain ⟨vs, eval, ends⟩ := h
  obtain ⟨result, eval'⟩ := settles
  cases eval.symm.trans eval'
  rw [result] at ends
  exact ends

theorem pure {a : α} (holds : post a ts) : (Polish.pure a).Proceeds ts post := ⟨ts, rfl, holds⟩

theorem fail {cause : Cause} (limit : cause.isLimit = true) :
    (Polish.fail cause : Polish α).Proceeds ts post := ⟨ts, rfl, limit⟩

theorem mono (h : x.Proceeds ts mid) (weaken : ∀ a us, mid a us → post a us) : x.Proceeds ts post := by
  obtain ⟨us, eval, ends⟩ := h
  refine ⟨us, eval, ?_⟩
  cases result : x.result with
  | error cause =>
    rw [result] at ends
    exact ends
  | ok a =>
    rw [result] at ends
    exact weaken a us ends

theorem andThen {post : β → List Term → Prop} {f : α → Polish β} (h : x.Proceeds ts mid)
    (next : ∀ a us, mid a us → (f a).Proceeds us post) : (x.andThen f).Proceeds ts post := by
  obtain ⟨steps, result⟩ := x
  obtain ⟨us, eval, ends⟩ := h
  cases result with
  | error cause => exact ⟨us, eval, ends⟩
  | ok a =>
    obtain ⟨vs, eval', ends'⟩ := next a us ends
    exact ⟨vs, Step.evalAll_append_eq_some.mpr ⟨us, eval, eval'⟩, ends'⟩

end Proceeds

end Polish

/-! ## Counting operands -/

def Operator.isBinary : Operator → Bool
  | .alternate | .concat => true
  | .group | .quantify _ => false

def Pending.isBinary (p : Pending) : Bool := p.op.isBinary

theorem Pending.length_eval {p : Pending} {ts us : List Term} (h : p.eval ts = some us) :
    us.length + p.isBinary.toNat = ts.length ∧ us ≠ [] := by
  obtain ⟨op, span, group⟩ := p
  cases op with
  | group | quantify =>
    cases ts with
    | nil => simp [Pending.eval] at h
    | cons t rest =>
      simp only [Pending.eval, Option.some.injEq] at h
      subst h
      simp [isBinary, Operator.isBinary]
  | alternate | concat =>
    match ts, h with
    | [], h | [_], h => simp [Pending.eval] at h
    | u :: t :: rest, h =>
      simp only [Pending.eval, Option.some.injEq] at h
      subst h
      simp [isBinary, Operator.isBinary]

theorem Step.length_evalAll_apply {ps : List Pending} {ts us : List Term}
    (h : evalAll ts (ps.map .apply) = some us) :
    us.length + ps.countP (·.isBinary) = ts.length := by
  induction ps generalizing ts with
  | nil =>
    cases h
    rfl
  | cons p ps ih =>
    rw [evalAll_apply_cons, Option.bind_eq_some_iff] at h
    obtain ⟨vs, first, rest⟩ := h
    have shorter := (Pending.length_eval first).1
    have shortest := ih rest
    rw [List.countP_cons]
    cases hb : p.isBinary <;> simp only [hb, Bool.toNat_true, Bool.toNat_false] at shorter ⊢ <;>
      simp <;> omega

end CursorRegex
