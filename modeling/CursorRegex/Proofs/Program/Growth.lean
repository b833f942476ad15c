import CursorRegex.Program.Basic
import CursorRegex.Proofs.Outcome
import CursorRegex.Proofs.Pattern.Cost

/-! # What a step does to the arena and to the stack

Every step of assembling takes operands from the stack, makes one fragment of them and pushes it.  How
many it takes and how many instructions it adds is known beforehand and does not depend on the direction
(`Assembly.step_cases`).  From this follows the size of a program, whose steps cost what its tokens do:
the limit on instructions is reported if and only if the size is above it (`Program.sized_build`).

The two directions go through stacks of the same height, so where one finds room for its operands the
other does (`Assembly.level_run`). -/
set_option autoImplicit false

namespace CursorRegex

/-! ## The arena -/

/-- What can keep an arena from growing to `size`: that this is above the limit, or a fault. -/
inductive Cramped (limit size : Nat) : Cause → Prop where
  | tooLong (above : limit < size) : Cramped limit size (.programTooLong limit)
  | internal (fault : Fault) : Cramped limit size (.internal fault)

/-- The computation leads to an arena of `target` instructions, unless it is cramped. -/
def Grows {α : Type} (limit : Nat) (size : α → Nat) (target : Nat) (x : Except Cause α) : Prop :=
  Concludes (Cramped limit target) (fun a => size a = target ∧ target ≤ limit) x

theorem Grows.bind {α β : Type} {limit mid target : Nat} {size : α → Nat} {size' : β → Nat}
    {x : Except Cause α} {f : α → Except Cause β} (h : Grows limit size mid x) (order : mid ≤ target)
    (next : ∀ a, size a = mid → mid ≤ limit → Grows limit size' target (f a)) :
    Grows limit size' target (x >>= f) := by
  refine Concludes.bind (h.mono (fun cause fails => ?_) fun _ => id) fun a ⟨size, fits⟩ =>
    next a size fits
  cases fails with
  | tooLong above => exact .tooLong (Nat.lt_of_lt_of_le above order)
  | internal fault => exact .internal fault

namespace Arena

variable {limit : Nat} {a : Arena}

theorem grows_alloc (a : Arena) (kind : Kind) :
    Grows limit (fun made : Nat × Arena => made.2.size) (a.size + 1) (a.alloc limit kind) := by
  unfold alloc
  split
  · next full => exact .tooLong (Nat.lt_succ_of_le full)
  · next room => exact ⟨Array.size_push _, Nat.lt_of_not_le room⟩

theorem grows_connect (fits : a.size ≤ limit) (source target : Nat) :
    Grows limit Arena.size a.size (a.connect source target) := by
  unfold connect link
  split
  · exact ⟨size_setNext source target a, fits⟩
  · exact .internal _

variable (fst snd body : Fragment)

theorem grows_ofGroup (a : Arena) (group : Option Nat) :
    Grows limit (fun made : Fragment × Arena => made.2.size) (a.size + 2)
      (a.ofGroup limit group body) := by
  refine (a.grows_alloc _).bind (Nat.le_succ _) fun closed size₁ fits₁ => ?_
  rw [← size₁] at fits₁
  refine (grows_connect fits₁ _ _).bind (by omega) fun a₂ size₂ fits₂ => ?_
  refine (a₂.grows_alloc _).bind (by omega) fun opened size₃ fits₃ => ?_
  rw [← size₃] at fits₃
  refine (grows_connect fits₃ _ _).bind (by omega) fun a₄ size₄ fits₄ => ?_
  have all : a₄.size = a.size + 2 := by omega
  exact ⟨all, by omega⟩

theorem grows_ofAlternate (a : Arena) :
    Grows limit (fun made : Fragment × Arena => made.2.size) (a.size + 2)
      (a.ofAlternate limit fst snd) := by
  refine (a.grows_alloc _).bind (Nat.le_succ _) fun exits size₁ fits₁ => ?_
  rw [← size₁] at fits₁
  refine (grows_connect fits₁ _ _).bind (by omega) fun a₂ size₂ fits₂ => ?_
  rw [← size₂] at fits₂
  refine (grows_connect fits₂ _ _).bind (by omega) fun a₃ size₃ fits₃ => ?_
  refine (a₃.grows_alloc _).bind (by omega) fun forks size₄ fits₄ => ?_
  rw [← size₄] at fits₄
  refine (grows_connect fits₄ _ _).bind (by omega) fun a₅ size₅ fits₅ => ?_
  have all : a₅.size = a.size + 2 := by omega
  exact ⟨all, by omega⟩

theorem grows_ofSequence (fits : a.size ≤ limit) :
    Grows limit (fun made : Fragment × Arena => made.2.size) a.size (a.ofSequence fst snd) :=
  (grows_connect fits _ _).bind (Nat.le_refl _) fun _ size fits => ⟨size, fits⟩

theorem grows_ofQuantified (a : Arena) (q : Quantifier) :
    Grows limit (fun made : Fragment × Arena => made.2.size) (a.size + q.size)
      (a.ofQuantified limit q body) := by
  cases q with
  | star | plus =>
    refine (a.grows_alloc _).bind (Nat.le_refl _) fun forks size₁ fits₁ => ?_
    have fits : forks.2.size ≤ limit := by omega
    refine (grows_connect fits _ _).bind (Nat.le_of_eq size₁) fun a₂ size₂ _ => ?_
    exact ⟨size₂.trans size₁, fits₁⟩
  | quest =>
    have two : Quantifier.quest.size = 2 := rfl
    refine (a.grows_alloc _).bind (by omega) fun forks size₁ _ => ?_
    refine (forks.2.grows_alloc _).bind (by omega) fun exits size₂ fits₂ => ?_
    rw [← size₂] at fits₂
    refine (grows_connect fits₂ _ _).bind (by omega) fun a₃ size₃ fits₃ => ?_
    rw [← size₃] at fits₃
    refine (grows_connect fits₃ _ _).bind (by omega) fun a₄ size₄ fits₄ => ?_
    have all : a₄.size = a.size + Quantifier.quest.size := by omega
    exact ⟨all, by omega⟩

end Arena

/-! ## The stack -/

def Step.arity : Step → Nat
  | .atom _ => 0
  | .apply p => p.isBinary.toNat + 1

namespace Assembly

variable {limits : Limits} {dir dir' : Direction} {s t s' : Assembly}

theorem pushSingle_eq (limits : Limits) (s : Assembly) (kind : Kind) : ∃ made,
    s.pushSingle limits kind = made >>= push limits s.operands ∧
      Grows limits.instructions (fun made => made.2.size) (s.arena.size + 1) made := by
  obtain ⟨a, operands⟩ := s
  refine ⟨do
    let made ← a.alloc limits.instructions kind
    return (.single made.1, made.2), ?_, ?_⟩
  · rw [bind_assoc]
    rfl
  · exact (a.grows_alloc kind).bind (Nat.le_refl _) fun made size fits => ⟨size, fits⟩

theorem step_cases (fits : s.arena.size ≤ limits.instructions) (dir : Direction) (step : Step) :
    (s.operands.length < step.arity ∧ ∃ p, step = .apply p ∧
        s.step limits dir step = .error (.illFormed p.missingOperand)) ∨
      (step.arity ≤ s.operands.length ∧ ∃ made,
        s.step limits dir step = made >>= push limits (s.operands.drop step.arity) ∧
        Grows limits.instructions (fun made => made.2.size) (s.arena.size + step.size) made) := by
  cases step with
  | atom x => exact Or.inr ⟨Nat.zero_le _, s.pushSingle_eq limits (.atom x)⟩
  | apply p =>
    obtain ⟨a, operands⟩ := s
    obtain ⟨op, span, number⟩ := p
    match op, operands with
    | .group, [] | .quantify _, [] | .alternate, [] | .concat, [] =>
      exact Or.inl ⟨Nat.succ_pos _, _, rfl, rfl⟩
    | .alternate, [_] | .concat, [_] => exact Or.inl ⟨Nat.lt_succ_self _, _, rfl, rfl⟩
    | .group, body :: rest =>
      exact Or.inr ⟨Nat.le_add_left _ _, _, rfl, a.grows_ofGroup body number⟩
    | .quantify q, body :: rest =>
      exact Or.inr ⟨Nat.le_add_left _ _, _, rfl, a.grows_ofQuantified body q⟩
    | .alternate, snd :: fst :: rest =>
      exact Or.inr ⟨Nat.le_add_left _ _, _, rfl, a.grows_ofAlternate fst snd⟩
    | .concat, snd :: fst :: rest =>
      cases dir with
      | forward => exact Or.inr ⟨Nat.le_add_left _ _, _, rfl, Arena.grows_ofSequence fst snd fits⟩
      | backward => exact Or.inr ⟨Nat.le_add_left _ _, _, rfl, Arena.grows_ofSequence snd fst fits⟩

/-- A push asks for room above what is left, and for nothing else. -/
theorem push_eq_ok {operands : List Fragment} {made : Fragment × Arena} :
    push limits operands made = .ok s' ↔
      operands.length < limits.stack ∧ ⟨made.2, made.1 :: operands⟩ = s' := by
  obtain ⟨f, a⟩ := made
  simp only [push]
  split
  · next full => simp [Nat.not_lt.mpr full]
  · next room => simp [Nat.lt_of_not_le room]

end Assembly

/-! ## The size of a program -/

/-- The computation leads to `target` instructions and these are within the limit, or it fails, and if it
reports the limit then `target` is above it. -/
def Sized {α : Type} (limit : Nat) (size : α → Nat) (target : Nat) (x : Except Cause α) : Prop :=
  Concludes (fun cause => ∀ l, cause = .programTooLong l → l = limit ∧ limit < target)
    (fun a => size a = target ∧ target ≤ limit) x

namespace Sized

variable {α β : Type} {limit mid target : Nat} {size : α → Nat} {size' : β → Nat}
  {x : Except Cause α}

theorem of_grows (h : Grows limit size target x) : Sized limit size target x := by
  refine h.mono ?_ fun _ => id
  rintro cause (above | fault) l same
  · cases same
    exact ⟨rfl, above⟩
  · cases same

theorem bind {f : α → Except Cause β} (h : Sized limit size mid x) (order : mid ≤ target)
    (next : ∀ a, size a = mid → mid ≤ limit → Sized limit size' target (f a)) :
    Sized limit size' target (x >>= f) := by
  refine Concludes.bind (h.mono (fun cause fails l same => ?_) fun _ => id) fun a ⟨size, fits⟩ =>
    next a size fits
  obtain ⟨rfl, above⟩ := fails l same
  exact ⟨rfl, Nat.lt_of_lt_of_le above order⟩

end Sized

namespace Assembly

variable {limits : Limits} {dir : Direction} {s : Assembly}

theorem sized_push {target : Nat} {made : Except Cause (Fragment × Arena)} (operands : List Fragment)
    (grows : Grows limits.instructions (fun made => made.2.size) target made) :
    Sized limits.instructions (fun s' : Assembly => s'.arena.size) target
      (made >>= push limits operands) := by
  refine (Sized.of_grows grows).bind (Nat.le_refl _) ?_
  rintro ⟨f, a⟩ size fits
  simp only [push]
  split
  · exact nofun
  · exact ⟨size, fits⟩

theorem sized_pushSingle (limits : Limits) (s : Assembly) (kind : Kind) :
    Sized limits.instructions (fun s' : Assembly => s'.arena.size) (s.arena.size + 1)
      (s.pushSingle limits kind) := by
  obtain ⟨made, same, grows⟩ := s.pushSingle_eq limits kind
  rw [same]
  exact sized_push _ grows

theorem sized_step (fits : s.arena.size ≤ limits.instructions) (dir : Direction) (step : Step) :
    Sized limits.instructions (fun s' : Assembly => s'.arena.size) (s.arena.size + step.size)
      (s.step limits dir step) := by
  rcases step_cases fits dir step with ⟨-, p, -, fails⟩ | ⟨-, made, same, grows⟩
  · rw [fails]
    exact nofun
  · rw [same]
    exact sized_push _ grows

theorem sized_steps (fits : s.arena.size ≤ limits.instructions) (dir : Direction)
    (steps : List Step) :
    Sized limits.instructions (fun s' : Assembly => s'.arena.size)
      (s.arena.size + Step.totalSize steps) (steps.foldlM (Assembly.step limits dir) s) := by
  induction steps generalizing s with
  | nil => exact ⟨rfl, fits⟩
  | cons step steps ih =>
    have split : Step.totalSize (step :: steps) = step.size + Step.totalSize steps := List.sum_cons
    rw [List.foldlM_cons, split, ← Nat.add_assoc]
    refine (sized_step fits dir step).bind (Nat.le_add_right _ _) fun s₁ size fits₁ => ?_
    rw [← size] at fits₁ ⊢
    exact ih fits₁

theorem sized_finish (s : Assembly) (joint : Option Pending) :
    Sized limits.instructions (fun made : Nat × Arena => made.2.size)
      (s.arena.size + 1 + jointSize joint) (s.finish limits joint) := by
  refine (s.sized_pushSingle limits .accept).bind (Nat.le_add_right _ _) fun s₁ size₁ fits₁ => ?_
  rw [← size₁] at fits₁ ⊢
  cases joint with
  | none =>
    simp only [pure_bind]
    split
    · exact ⟨rfl, fits₁⟩
    · exact nofun
  | some p =>
    refine (sized_step fits₁ .forward (.apply p)).bind (Nat.le_refl _) fun s₂ size₂ fits₂ => ?_
    dsimp only
    split
    · exact ⟨size₂, fits₂⟩
    · exact nofun

theorem sized_run {total : Nat} {x : Polish (Option Pending)} (spends : x.Spends jointSize total)
    {a : Arena} (fits : a.size ≤ limits.instructions) (dir : Direction) :
    Sized limits.instructions (fun made : Nat × Arena => made.2.size) (a.size + total + 1)
      (run limits dir x a) := by
  obtain ⟨steps, result⟩ := x
  have assembled : Sized limits.instructions (fun s' : Assembly => s'.arena.size)
      (a.size + Step.totalSize steps) (steps.foldlM (step limits dir) ⟨a, []⟩) :=
    sized_steps fits dir steps
  cases result with
  | error cause =>
    have spent : Step.totalSize steps ≤ total := spends.1
    exact assembled.bind (by omega) fun s _ _ l same => absurd same (spends.2 l)
  | ok joint =>
    have spent : Step.totalSize steps + jointSize joint = total := spends
    refine assembled.bind (by omega) fun s size _ => ?_
    have target : a.size + total + 1 = s.arena.size + 1 + jointSize joint := by omega
    rw [target]
    exact s.sized_finish joint

end Assembly

theorem Program.sized_build {limits : Limits} {a : Arena} (fits : a.size ≤ limits.instructions)
    (dir : Direction) (length : Nat) (toks : List Token) :
    Sized limits.instructions (fun made : Nat × Arena => made.2.size)
      (a.size + Token.totalSize toks + 1)
      (build limits dir (Polish.ofTokens limits.stack length toks) a) := by
  have spends := Polish.spends_ofTokens limits.stack length toks
  refine (Assembly.sized_run spends fits dir).bind (Nat.le_refl _) ?_
  rintro ⟨entry, raw⟩ size fits'
  have kept := raw.size_shorten a.size raw.size
  dsimp only
  split
  · next short shortened =>
    rw [shortened] at kept
    exact ⟨kept.trans size, fits'⟩
  · exact nofun

/-! ## The height of the stack -/

def Cause.isOverflow : Cause → Bool
  | .operandOverflow _ | .operatorOverflow _ => true
  | .illFormed _ | .programTooLong _ | .internal _ => false

theorem Cramped.isOverflow {limit size : Nat} {cause : Cause} (h : Cramped limit size cause) :
    cause.isOverflow = false := by
  cases h <;> rfl

namespace Assembly

variable {limits : Limits} {dir dir' : Direction} {s t s' : Assembly}

/-- As many operands wait, and the arena is within the limit, unless the computation fails; and then it
is not for want of room on a stack. -/
def Level (limits : Limits) (height : Nat) (x : Except Cause Assembly) : Prop :=
  Concludes (fun cause => cause.isOverflow = false)
    (fun t => t.operands.length = height ∧ t.arena.size ≤ limits.instructions) x

theorem level_push {target : Nat} {operands operands' : List Fragment}
    {made made' : Except Cause (Fragment × Arena)} (level : operands'.length = operands.length)
    (done : made >>= push limits operands = .ok s')
    (grows : Grows limits.instructions (fun made => made.2.size) target made') :
    Level limits s'.operands.length (made' >>= push limits operands') := by
  obtain ⟨m, -, pushed⟩ := bind_eq_ok.mp done
  obtain ⟨room, rfl⟩ := push_eq_ok.mp pushed
  refine Concludes.bind (grows.mono (fun _ => Cramped.isOverflow) fun _ => id) ?_
  intro m' ⟨size, fits⟩
  rw [push_eq_ok.mpr ⟨level ▸ room, rfl⟩]
  exact ⟨congrArg (· + 1) level, Nat.le_trans (Nat.le_of_eq size) fits⟩

theorem level_pushSingle {kind : Kind} (level : t.operands.length = s.operands.length)
    (done : s.pushSingle limits kind = .ok s') :
    Level limits s'.operands.length (t.pushSingle limits kind) := by
  obtain ⟨made, same, -⟩ := s.pushSingle_eq limits kind
  obtain ⟨made', same', grows⟩ := t.pushSingle_eq limits kind
  rw [same] at done
  rw [same']
  exact level_push level done grows

theorem level_step {step : Step} (fits : s.arena.size ≤ limits.instructions)
    (fits' : t.arena.size ≤ limits.instructions) (dir' : Direction)
    (level : t.operands.length = s.operands.length)
    (done : s.step limits dir step = .ok s') :
    Level limits s'.operands.length (t.step limits dir' step) := by
  rcases step_cases fits dir step with ⟨-, p, -, fails⟩ | ⟨enough, made, same, -⟩
  · rw [fails] at done
    cases done
  · rcases step_cases fits' dir' step with ⟨lacking, -⟩ | ⟨-, made', same', grows⟩
    · omega
    · rw [same] at done
      rw [same']
      refine level_push ?_ done grows
      rw [List.length_drop, List.length_drop, level]

/-- What finds room for its operands in one direction finds it in the other. -/
theorem level_steps {steps : List Step} (fits : s.arena.size ≤ limits.instructions)
    (fits' : t.arena.size ≤ limits.instructions) (dir' : Direction)
    (level : t.operands.length = s.operands.length)
    (done : steps.foldlM (Assembly.step limits dir) s = .ok s') :
    Level limits s'.operands.length (steps.foldlM (Assembly.step limits dir') t) := by
  induction steps generalizing s t with
  | nil =>
    cases done
    exact ⟨level, fits'⟩
  | cons step steps ih =>
    rw [List.foldlM_cons] at done ⊢
    obtain ⟨s₁, first, rest⟩ := bind_eq_ok.mp done
    have sized := sized_step fits dir step
    rw [first] at sized
    obtain ⟨size₁, fits₁⟩ := sized
    rw [← size₁] at fits₁
    refine Concludes.bind (level_step fits fits' dir' level first) ?_
    intro t₁ ⟨level₁, fits₁'⟩
    exact ih fits₁ fits₁' level₁ rest

theorem level_finish {joint : Option Pending} {made : Nat × Arena}
    (level : t.operands.length = s.operands.length) (done : s.finish limits joint = .ok made) :
    Concludes (fun cause => cause.isOverflow = false) (fun _ => True) (t.finish limits joint) := by
  obtain ⟨s₁, pushed, done⟩ := bind_eq_ok.mp done
  have sized := s.sized_pushSingle limits .accept
  rw [pushed] at sized
  obtain ⟨size₁, fits₁⟩ := sized
  rw [← size₁] at fits₁
  refine Concludes.bind (level_pushSingle level pushed) ?_
  rintro t₁ ⟨level₁, fits₁'⟩
  cases joint with
  | none =>
    simp only [pure_bind]
    split <;> trivial
  | some p =>
    obtain ⟨s₂, applied, -⟩ := bind_eq_ok.mp done
    have applied : s₁.step limits .forward (.apply p) = .ok s₂ := applied
    refine Concludes.bind (level_step fits₁ fits₁' .forward level₁ applied) fun t₂ _ => ?_
    dsimp only
    split <;> trivial

theorem level_run {x : Polish (Option Pending)} {a a' : Arena} {made : Nat × Arena}
    (fits : a.size ≤ limits.instructions) (fits' : a'.size ≤ limits.instructions)
    (dir' : Direction) (done : run limits dir x a = .ok made) :
    Concludes (fun cause => cause.isOverflow = false) (fun _ => True) (run limits dir' x a') := by
  obtain ⟨s, steps, done⟩ := bind_eq_ok.mp done
  obtain ⟨joint, read, done⟩ := bind_eq_ok.mp done
  have level : (Assembly.mk a' []).operands.length = (Assembly.mk a []).operands.length := rfl
  unfold run
  refine Concludes.bind (level_steps fits fits' dir' level steps) fun t ⟨level', _⟩ => ?_
  rw [read]
  exact level_finish level' done

end Assembly

end CursorRegex
