import CursorRegex.Proofs.Pattern.Tiers
import CursorRegex.Proofs.Program.Admitted
import CursorRegex.Proofs.Program.Growth

/-! # How high the stacks grow

Of the operators that wait, at most two for each open group and two more need a second operand, so the
operands that wait are few as well: they are never more than the waiting operators speak for
(`Reader.debt`).  Applying an operator does not raise the stack.  What is left to look at are the moments
when an atom comes in, and there the bound is that of the state which the reader is in afterwards
(`Reader.stays_token`).

So the room that both stacks need depends on how deep the groups of a pattern are nested and not on its
length (`Program.stack_suffices`). -/
set_option autoImplicit false

namespace CursorRegex

/-- Above the innermost group at most an alternation and a concatenation wait for a second operand. -/
theorem Tiered.countP_binary_le {ps : List Pending} (h : Tiered ps) :
    ps.countP (·.isBinary) ≤ 2 * ps.countP (·.op = .group) + min (topRank ps) 2 := by
  induction h with
  | nil => exact Nat.le_refl 0
  | @group p below is loose rest ih =>
    have unary : p.isBinary = false := by rw [Pending.isBinary, is]; rfl
    have same : (p :: below).countP (·.isBinary) = below.countP (·.isBinary) :=
      List.countP_cons_of_neg (by simp [unary])
    have one_more : (p :: below).countP (·.op = .group) = below.countP (·.op = .group) + 1 :=
      List.countP_cons_of_pos (decide_eq_true is)
    rw [same, one_more]
    omega
  | @tighter p below above rest ih =>
    obtain ⟨op, span, number⟩ := p
    dsimp only at above
    rw [topRank]
    dsimp only
    cases op with
    | group => exact absurd above (Nat.not_lt_zero _)
    | alternate | concat =>
      rw [List.countP_cons_of_pos rfl, List.countP_cons_of_neg (by simp)]
      simp only [Operator.rank] at above ⊢
      omega
    | quantify q =>
      rw [List.countP_cons_of_neg (by simp [Pending.isBinary, Operator.isBinary]),
        List.countP_cons_of_neg (by simp)]
      omega

theorem Orderly.debt_le {done : List Token} {r : Reader} (h : Orderly done r) :
    r.debt ≤ 2 * r.opened.length + 3 := by
  have binary := h.tiers.countP_binary_le
  have flag := Bool.toNat_le r.afterOperand
  rw [Reader.debt, h.groups]
  omega

/-! ## Steps on terms -/

namespace Step

/-- As long as the steps find their operands, the stack is never higher than `bound`. -/
def Stays (bound : Nat) (ts : List Term) (steps : List Step) : Prop :=
  ∀ front back us, steps = front ++ back → evalAll ts front = some us → us.length ≤ bound

variable {bound : Nat} {ts us : List Term} {step : Step} {steps more : List Step}

theorem stays_nil (low : ts.length ≤ bound) : Stays bound ts [] := by
  intro front back us split eval
  obtain ⟨rfl, -⟩ := List.append_eq_nil_iff.mp split.symm
  cases eval
  exact low

theorem Stays.cons (low : ts.length ≤ bound)
    (next : ∀ us, step.eval ts = some us → Stays bound us steps) : Stays bound ts (step :: steps) := by
  intro front back vs split eval
  cases front with
  | nil =>
    cases eval
    exact low
  | cons first front =>
    obtain ⟨rfl, rest⟩ := List.cons_eq_cons.mp split
    rw [evalAll_cons, Option.bind_eq_some_iff] at eval
    obtain ⟨us, here, behind⟩ := eval
    exact next us here front back vs rest behind

theorem Stays.last (h : Stays bound ts steps) (eval : evalAll ts steps = some us) :
    us.length ≤ bound := h steps [] us (List.append_nil steps).symm eval

theorem Stays.append (h : Stays bound ts steps)
    (next : ∀ us, evalAll ts steps = some us → Stays bound us more) : Stays bound ts (steps ++ more) := by
  intro front back vs split eval
  rcases List.append_eq_append_iff.mp split with ⟨behind, rfl, rest⟩ | ⟨behind, whole, -⟩
  · obtain ⟨us, first, second⟩ := evalAll_append_eq_some.mp eval
    exact next us first behind back vs rest second
  · exact h front behind vs whole eval

theorem Stays.andThen {α β : Type} {x : Polish α} {f : α → Polish β} (h : Stays bound ts x.steps)
    (next : ∀ a us, x.Settles ts a us → Stays bound us (f a).steps) :
    Stays bound ts (x.andThen f).steps := by
  obtain ⟨steps, result⟩ := x
  cases result with
  | error cause => exact h
  | ok a => exact h.append fun us eval => next a us ⟨rfl, eval⟩

theorem Stays.behind (h : Stays bound ts (step :: steps)) (eval : step.eval ts = some us) :
    us.length ≤ bound ∧ Stays bound us steps := by
  have through : ∀ front, evalAll ts (step :: front) = evalAll us front := by
    intro front
    rw [evalAll_cons, eval, Option.bind_some]
  refine ⟨h [step] steps us rfl (through []), fun front back vs split eval' => ?_⟩
  exact h (step :: front) back vs (congrArg (step :: ·) split) ((through front).trans eval')

theorem stays_apply (ps : List Pending) (low : ts.length ≤ bound) :
    Stays bound ts (ps.map .apply) := by
  intro front back us split eval
  obtain ⟨qs, -, -, rfl, -⟩ := List.map_eq_append_iff.mp split
  have counted := length_evalAll_apply eval
  omega

theorem exists_eval (enough : step.arity ≤ ts.length) :
    ∃ us, step.eval ts = some us ∧ us.length + step.arity = ts.length + 1 := by
  cases step with
  | atom a => exact ⟨.atom a :: ts, rfl, rfl⟩
  | apply p =>
    cases eval : p.eval ts with
    | none =>
      have low := Pending.length_of_eval_eq_none eval
      rw [arity] at enough
      omega
    | some us =>
      have counted := (Pending.length_eval eval).1
      refine ⟨us, eval, ?_⟩
      rw [arity]
      omega

end Step

/-! ## Reading -/

namespace Polish

def Applies {α : Type} (x : Polish α) : Prop := ∃ ps : List Pending, x.steps = ps.map .apply

theorem Applies.andThen {α β : Type} {x : Polish α} {f : α → Polish β} (h : x.Applies)
    (next : ∀ a, (f a).Applies) : (x.andThen f).Applies := by
  obtain ⟨steps, result⟩ := x
  cases result with
  | error cause => exact h
  | ok a =>
    obtain ⟨ps, first⟩ := h
    obtain ⟨qs, second⟩ := next a
    have first : steps = ps.map .apply := first
    refine ⟨ps ++ qs, ?_⟩
    simp only [Polish.andThen, first, second, List.map_append]

end Polish

namespace Reader

variable {limit depth : Nat} {done toks : List Token} {t : Token} {r r' : Reader} {ts us : List Term}

theorem applies_push (op : Operator) (span : Span) (r : Reader) : (r.push limit op span).Applies := by
  unfold push
  split
  · exact ⟨[], rfl⟩
  · exact ⟨[], rfl⟩

theorem applies_between (op : Operator) (span : Span) (r : Reader) :
    (r.between limit op span).Applies :=
  Polish.Applies.andThen ⟨_, rfl⟩ fun _ => applies_push op span _

theorem applies_joined (span : Span) (r : Reader) : (r.joined limit span).Applies := by
  unfold joined
  split
  · exact r.applies_between .concat span
  · exact ⟨[], rfl⟩

theorem applies_closeGroup (span : Span) (r : Reader) : (r.closeGroup span).Applies := by
  unfold closeGroup
  split
  · exact ⟨[], rfl⟩
  · dsimp only
    split
    · exact ⟨_, rfl⟩
    · exact ⟨_, rfl⟩

theorem applies_finish (span : Span) (r : Reader) : (r.finish limit span).Applies := by
  unfold finish
  split
  · exact ⟨[], rfl⟩
  · exact Polish.Applies.andThen ⟨_, rfl⟩ fun r =>
      (r.applies_joined span).andThen fun _ => ⟨[], rfl⟩

theorem length_le (h : Orderly done r) (low : ts.length ≤ r.debt)
    (deep : OpensAtMost depth (done ++ toks)) : ts.length ≤ 2 * depth + 3 := by
  have opens := deep.front done [] (List.append_nil _).symm
  have inside := h.depth
  have debt := h.debt_le
  omega

theorem orderly_of_settles (h : Orderly done r) (low : ts.length ≤ r.debt)
    (deep : OpensAtMost depth (done ++ t :: toks)) (settles : (r.token limit t).Settles ts r' us) :
    Orderly (done ++ [t]) r' ∧ us.length ≤ r'.debt := by
  have read : Concludes (Refuses limit depth) (Orderly (done ++ [t])) (r.token limit t).result :=
    concludes_token h (deep (done ++ [t]) toks (List.append_cons done t toks))
  rw [settles.1] at read
  have debt := debt_token settles
  exact ⟨read, by omega⟩

theorem stays_token (h : Orderly done r) (low : ts.length ≤ r.debt)
    (deep : OpensAtMost depth (done ++ t :: toks)) :
    Step.Stays (2 * depth + 3) ts (r.token limit t).steps := by
  have height := length_le h low deep
  have of_applies : ∀ x : Polish Reader, x.Applies → Step.Stays (2 * depth + 3) ts x.steps := by
    rintro x ⟨ps, all⟩
    rw [all]
    exact Step.stays_apply ps height
  cases kind : t.kind with
  | atom a =>
    have whole : r.token limit t = r.atom limit a t.span := by simp only [token, kind]
    rw [whole]
    refine (of_applies _ (r.applies_joined t.span)).andThen fun r₁ us joins => ?_
    have settles : (r.token limit t).Settles ts { r₁ with afterOperand := true } (.atom a :: us) := by
      rw [whole]
      exact Polish.settles_andThen.mpr ⟨r₁, us, joins, rfl, rfl⟩
    obtain ⟨orderly, low'⟩ := orderly_of_settles h low deep settles
    have top := length_le orderly low' (List.append_cons done t toks ▸ deep)
    refine .cons (Nat.le_of_succ_le top) fun vs eval => ?_
    cases eval
    exact Step.stays_nil top
  | quantifier q =>
    simp only [token, kind]
    exact of_applies _ (Polish.Applies.andThen ⟨_, rfl⟩ fun _ => applies_push _ _ _)
  | bar =>
    simp only [token, kind]
    exact of_applies _ (r.applies_between _ _)
  | openParen =>
    simp only [token, kind]
    exact of_applies _ ((applies_joined _ _).andThen fun _ => applies_push _ _ _)
  | closeParen =>
    simp only [token, kind]
    exact of_applies _ (r.applies_closeGroup _)

theorem stays_tokens (h : Orderly done r) (low : ts.length ≤ r.debt)
    (deep : OpensAtMost depth (done ++ toks)) :
    Step.Stays (2 * depth + 3) ts (r.tokens limit toks).steps := by
  induction toks generalizing done r ts with
  | nil => exact Step.stays_nil (length_le h low deep)
  | cons t toks ih =>
    refine (stays_token h low deep).andThen fun r' us settles => ?_
    obtain ⟨orderly, low'⟩ := orderly_of_settles h low deep settles
    exact ih orderly low' (List.append_cons done t toks ▸ deep)

end Reader

theorem Polish.stays_ofTokens {depth : Nat} {toks : List Token} (limit length : Nat)
    (deep : OpensAtMost depth toks) :
    Step.Stays (2 * depth + 3) [] (ofTokens limit length toks).steps := by
  have low : ([] : List Term).length ≤ Reader.start.debt := Nat.zero_le _
  have read : Step.Stays (2 * depth + 3) [] (Reader.start.tokens limit toks).steps :=
    Reader.stays_tokens Reader.orderly_start low deep
  refine read.andThen fun r us settles => ?_
  obtain ⟨ps, all⟩ : (r.finish limit ⟨length, length⟩).Applies := r.applies_finish _
  rw [all]
  exact Step.stays_apply ps (read.last settles.2)

/-! ## Assembling -/

namespace Assembly

variable {limits : Limits} {dir : Direction} {s : Assembly} {ts : List Term}

/-- What is made of operands finds room where there is some. -/
theorem concludes_push {target : Nat} {operands : List Fragment}
    {made : Except Cause (Fragment × Arena)} (room : operands.length < limits.stack)
    (grows : Grows limits.instructions (fun made => made.2.size) target made) :
    Concludes (fun cause => cause.isOverflow = false)
      (fun s' : Assembly => s'.operands.length = operands.length + 1 ∧
        s'.arena.size ≤ limits.instructions) (made >>= push limits operands) := by
  refine Concludes.bind (grows.mono (fun _ => Cramped.isOverflow) fun _ => id) ?_
  rintro m ⟨size, fits⟩
  rw [push_eq_ok.mpr ⟨room, rfl⟩]
  exact ⟨rfl, Nat.le_trans (Nat.le_of_eq size) fits⟩

theorem concludes_step (step : Step) (dir : Direction) (fits : s.arena.size ≤ limits.instructions)
    (room : s.operands.length + 1 ≤ limits.stack + step.arity) :
    Concludes (fun cause => cause.isOverflow = false)
      (fun s' => step.arity ≤ s.operands.length ∧
        s'.operands.length + step.arity = s.operands.length + 1 ∧
        s'.arena.size ≤ limits.instructions) (s.step limits dir step) := by
  rcases step_cases fits dir step with ⟨-, p, -, fails⟩ | ⟨enough, made, same, grows⟩
  · rw [fails]
    rfl
  · rw [same]
    have left := List.length_drop (i := step.arity) (l := s.operands)
    refine (concludes_push (by omega) grows).mono (fun _ => id) ?_
    rintro s' ⟨height, fits'⟩
    exact ⟨enough, by omega, fits'⟩

/-- Where the terms stay within the room, so do the fragments. -/
theorem concludes_steps {steps : List Step} (dir : Direction) (level : s.operands.length = ts.length)
    (fits : s.arena.size ≤ limits.instructions) (stays : Step.Stays limits.stack ts steps) :
    Concludes (fun cause => cause.isOverflow = false)
      (fun s' => s'.arena.size ≤ limits.instructions ∧
        ∃ us, Step.evalAll ts steps = some us ∧ s'.operands.length = us.length)
      (steps.foldlM (step limits dir) s) := by
  induction steps generalizing s ts with
  | nil => exact ⟨fits, ts, rfl, level⟩
  | cons step steps ih =>
    rw [List.foldlM_cons]
    have room : s.operands.length + 1 ≤ limits.stack + step.arity := by
      by_cases enough : step.arity ≤ ts.length
      · obtain ⟨us, eval, height⟩ := Step.exists_eval enough
        have low := (stays.behind eval).1
        omega
      · have low := stays [] (step :: steps) ts rfl rfl
        omega
    refine (concludes_step step dir fits room).bind ?_
    rintro s₁ ⟨enough, height, fits₁⟩
    obtain ⟨us, eval, height'⟩ := Step.exists_eval (level ▸ enough)
    refine (ih (by omega) fits₁ (stays.behind eval).2).mono (fun _ => id) ?_
    rintro s' ⟨fits', vs, rest, level'⟩
    exact ⟨fits', vs, by rw [Step.evalAll_cons, eval, Option.bind_some, rest], level'⟩

theorem concludes_finish (joint : Option Pending) (room : s.operands.length < limits.stack) :
    Concludes (fun cause => cause.isOverflow = false) (fun _ => True) (s.finish limits joint) := by
  obtain ⟨made, same, grows⟩ := s.pushSingle_eq limits .accept
  unfold finish
  rw [same]
  refine (concludes_push room grows).bind ?_
  rintro s₁ ⟨height, fits⟩
  cases joint with
  | none =>
    simp only [pure_bind]
    split <;> trivial
  | some p =>
    have arity : 1 ≤ (Step.apply p).arity := Nat.le_add_left _ _
    refine (concludes_step (.apply p) .forward fits (by omega)).bind fun s₂ _ => ?_
    dsimp only
    split <;> trivial

theorem concludes_run {depth length : Nat} {toks : List Token} {a : Arena} (dir : Direction)
    (deep : OpensAtMost depth toks) (room : 3 * depth + 6 ≤ limits.stack)
    (fits : a.size ≤ limits.instructions) :
    Concludes (fun cause => cause.isOverflow = false) (fun _ => True)
      (run limits dir (Polish.ofTokens limits.stack length toks) a) := by
  have stays := Polish.stays_ofTokens limits.stack length deep
  have enough : Step.Stays limits.stack [] (Polish.ofTokens limits.stack length toks).steps :=
    fun front back us split eval => Nat.le_trans (stays front back us split eval) (by omega)
  have level : (Assembly.mk a []).operands.length = ([] : List Term).length := rfl
  refine (concludes_steps dir level fits enough).bind ?_
  rintro s ⟨-, us, eval, height⟩
  have low := stays.last eval
  have read := Polish.concludes_ofTokens limits.stack length deep
  refine (read.mono ?_ fun _ _ => trivial).bind fun joint _ => concludes_finish joint (by omega)
  rintro cause (small | e)
  · omega
  · rfl

end Assembly

namespace Program

variable {limits : Limits} {pattern : String}

theorem concludes_build {depth length : Nat} {toks : List Token} {a : Arena} (dir : Direction)
    (deep : OpensAtMost depth toks) (room : 3 * depth + 6 ≤ limits.stack)
    (fits : a.size ≤ limits.instructions) :
    Concludes (fun cause => cause.isOverflow = false)
      (fun built : Nat × Arena => built.2.size ≤ limits.instructions)
      (build limits dir (Polish.ofTokens limits.stack length toks) a) := by
  have built : Concludes (fun cause => cause.isOverflow = false) (fun _ => True)
      (build limits dir (Polish.ofTokens limits.stack length toks) a) := by
    refine (Assembly.concludes_run dir deep room fits).bind ?_
    rintro ⟨entry, raw⟩ -
    dsimp only
    split <;> trivial
  refine built.of_ok fun made done => ?_
  have sized := sized_build fits dir length toks
  rw [done] at sized
  exact Nat.le_trans (Nat.le_of_eq sized.1) sized.2

theorem concludes_ofTokens {depth length : Nat} {tokens : Tokens} (deep : OpensAtMost depth tokens.list)
    (room : 3 * depth + 6 ≤ limits.stack) :
    Concludes (fun cause => cause.isOverflow = false) (fun _ => True)
      (ofTokens limits length tokens) := by
  refine (concludes_build .forward deep room (Nat.zero_le _)).bind ?_
  rintro ⟨forward, a⟩ fits
  exact (concludes_build .backward deep room fits).bind fun _ _ => trivial

/-- However long a pattern is, and well-formed or not: if no more than `depth` of its groups are open at
any place, then stacks with room for three entries for each of them and six more do not overflow. -/
theorem stack_suffices {depth : Nat}
    (nested : ∀ ts classes, Spells 0 0 pattern.toList ts classes → OpensAtMost depth ts)
    (room : 3 * depth + 6 ≤ limits.stack) :
    ∀ e, compile limits pattern = .error e → e.cause.isOverflow = false := by
  intro e failed
  cases read : Tokens.ofPattern pattern with
  | error flaw =>
    rw [compile, read] at failed
    cases failed
    rfl
  | ok tokens =>
    have deep := nested tokens.list tokens.classes (Tokens.ofPattern_eq_ok_iff.mp read)
    have built : Concludes _ _ (ofTokens limits pattern.utf8ByteSize tokens) :=
      concludes_ofTokens deep room
    rw [compile_eq limits read] at failed
    cases result : ofTokens limits pattern.utf8ByteSize tokens with
    | ok p =>
      rw [result] at failed
      cases failed
    | error cause =>
      rw [result] at failed built
      cases failed
      exact built

/-- With one place less, the quantifiers in a group of two alternatives fill the stack. -/
theorem stack_suffices_one_group : ∃ ts classes,
    Spells 0 0 "a|b(c|de*+?".toList ts classes ∧ OpensAtMost 1 ts ∧
      (∀ e, compile { stack := 9 } "a|b(c|de*+?" = .error e → e.cause.isOverflow = false) ∧
      compile { stack := 8 } "a|b(c|de*+?" = .error ⟨"a|b(c|de*+?", .operatorOverflow 8⟩ := by
  obtain ⟨ts, classes, read, opens⟩ : ∃ ts classes,
      Tokens.ofPattern "a|b(c|de*+?" = .ok ⟨ts, classes⟩ ∧ ts.countP (·.kind = .openParen) = 1 := by
    have read : Tokens.ofPattern "a|b(c|de*+?" = .ok
        ⟨[⟨⟨0, 1⟩, .atom (.char 'a')⟩, ⟨⟨1, 2⟩, .bar⟩, ⟨⟨2, 3⟩, .atom (.char 'b')⟩,
          ⟨⟨3, 4⟩, .openParen⟩, ⟨⟨4, 5⟩, .atom (.char 'c')⟩, ⟨⟨5, 6⟩, .bar⟩,
          ⟨⟨6, 7⟩, .atom (.char 'd')⟩, ⟨⟨7, 8⟩, .atom (.char 'e')⟩, ⟨⟨8, 9⟩, .quantifier .star⟩,
          ⟨⟨9, 10⟩, .quantifier .plus⟩, ⟨⟨10, 11⟩, .quantifier .quest⟩], []⟩ := by decide +kernel
    exact ⟨_, _, read, by decide⟩
  have nested : OpensAtMost 1 ts := opens ▸ opensAtMost_countP ts
  have within : ∀ ts classes, Spells 0 0 "a|b(c|de*+?".toList ts classes → OpensAtMost 1 ts := by
    intro ts' classes' spelled'
    cases read.symm.trans (Tokens.ofPattern_eq_ok_iff.mpr spelled')
    exact nested
  exact ⟨ts, classes, Tokens.ofPattern_eq_ok_iff.mp read, nested,
    stack_suffices within (by decide), by decide +kernel⟩

end Program

end CursorRegex
