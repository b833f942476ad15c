import CursorRegex.Proofs.Pattern.Defects
import CursorRegex.Proofs.Pattern.Spelling
import CursorRegex.Proofs.Program.Encoding

/-! # What the grammar admits compiles

Compiling never looks at the grammar, yet it accepts what the grammar derives and nothing else.  One half
is `exists_tree_of_compile`: what compiles has a tree.  For the other half, tokens that have a tree are
read without a missing operand (`proceeds_ofTokens`), each step then finds its operands on the stack
(`Holds.attains_step`), one fragment is left at the end, and shortening does not fail.  So nothing but a
limit keeps such a pattern from compiling (`attains_ofTokens`). -/
set_option autoImplicit false

namespace CursorRegex

/-- The computation gives a result with `post`, or fails at a limit. -/
def Attains {α : Type} (post : α → Prop) : Except Cause α → Prop
  | .ok a => post a
  | .error cause => cause.isLimit = true

theorem attains_iff {α : Type} {post : α → Prop} {x : Except Cause α} :
    Attains post x ↔ Concludes (fun cause => cause.isLimit = true) post x := by
  cases x <;> rfl

namespace Attains

variable {α β : Type} {mid post : α → Prop} {x : Except Cause α}

theorem mono (h : Attains mid x) (weaken : ∀ a, mid a → post a) : Attains post x :=
  attains_iff.mpr ((attains_iff.mp h).mono (fun _ => id) weaken)

theorem bind {post : β → Prop} {f : α → Except Cause β} (h : Attains mid x)
    (next : ∀ a, mid a → Attains post (f a)) : Attains post (x >>= f) :=
  attains_iff.mpr ((attains_iff.mp h).bind fun a is => attains_iff.mp (next a is))

theorem and_of_ok (h : Attains mid x) (also : ∀ a, x = .ok a → post a) : Attains post x :=
  attains_iff.mpr ((attains_iff.mp h).of_ok also)

end Attains

/-! ## Operators that have their operands -/

namespace Arena

variable {limit : Nat} {a : Arena}

theorem attains_alloc (kind : Kind) :
    Attains (fun made : Nat × Arena => made.1 = a.size ∧ made.2.size = a.size + 1)
      (a.alloc limit kind) := by
  unfold alloc
  split
  · rfl
  · exact ⟨rfl, Array.size_push _⟩

theorem attains_connect {source : Nat} (target : Nat) (within : source < a.size) :
    Attains (fun a' : Arena => a'.size = a.size) (a.connect source target) := by
  rw [connect, link, if_pos within]
  exact size_setNext source target a

variable {fst snd body : Fragment}

theorem attains_ofGroup (group : Option Nat) (within : body.last < a.size) :
    Attains (fun _ => True) (a.ofGroup limit group body) := by
  refine (attains_alloc _).bind ?_
  rintro ⟨close, a₁⟩ ⟨-, size₁⟩
  dsimp only at size₁
  refine (attains_connect close (by omega)).bind fun a₂ size₂ => ?_
  refine (attains_alloc _).bind ?_
  rintro ⟨opening, a₃⟩ ⟨place, size₃⟩
  dsimp only at place size₃
  exact (attains_connect body.first (by omega)).bind fun _ _ => trivial

theorem attains_ofSequence (within : fst.last < a.size) :
    Attains (fun _ => True) (a.ofSequence fst snd) :=
  (attains_connect snd.first within).bind fun _ _ => trivial

theorem attains_ofAlternate (within : fst.last < a.size) (within' : snd.last < a.size) :
    Attains (fun _ => True) (a.ofAlternate limit fst snd) := by
  refine (attains_alloc _).bind ?_
  rintro ⟨exit, a₁⟩ ⟨-, size₁⟩
  dsimp only at size₁
  refine (attains_connect exit (by omega)).bind fun a₂ size₂ => ?_
  refine (attains_connect exit (by omega)).bind fun a₃ size₃ => ?_
  refine (attains_alloc _).bind ?_
  rintro ⟨fork, a₄⟩ ⟨place, size₄⟩
  dsimp only at place size₄
  exact (attains_connect snd.first (by omega)).bind fun _ _ => trivial

theorem attains_ofQuantified (q : Quantifier) (within : body.last < a.size) :
    Attains (fun _ => True) (a.ofQuantified limit q body) := by
  refine (attains_alloc _).bind ?_
  rintro ⟨fork, a₁⟩ ⟨place, size₁⟩
  dsimp only at place size₁
  cases q with
  | star | plus => exact (attains_connect fork (by omega)).bind fun _ _ => trivial
  | quest =>
    refine (attains_alloc _).bind ?_
    rintro ⟨exit, a₂⟩ ⟨-, size₂⟩
    dsimp only at size₂
    refine (attains_connect exit (by omega)).bind fun a₃ size₃ => ?_
    exact (attains_connect exit (by omega)).bind fun _ _ => trivial

end Arena

/-! ## Assembling -/

namespace Assembly

variable {limits : Limits} {dir : Direction} {base : List Instruction} {ts us : List Term}
  {s : Assembly}

theorem attains_push (operands : List Fragment) (made : Fragment × Arena) :
    Attains (fun s' : Assembly => s' = ⟨made.2, made.1 :: operands⟩) (push limits operands made) := by
  obtain ⟨f, a⟩ := made
  simp only [push]
  split <;> rfl

theorem attains_pushSingle (kind : Kind) : Attains
    (fun s' : Assembly => s'.arena.size = s.arena.size + 1 ∧
      s'.operands = .single s.arena.size :: s.operands) (s.pushSingle limits kind) := by
  obtain ⟨a, operands⟩ := s
  refine (Arena.attains_alloc kind).bind ?_
  rintro ⟨i, a'⟩ ⟨rfl, size⟩
  refine (attains_push operands _).mono ?_
  rintro s' rfl
  exact ⟨size, rfl⟩

theorem Holds.last_lt (h : Holds dir base ts s) : ∀ f ∈ s.operands, f.last < s.arena.size := by
  obtain ⟨insts, operands⟩ := h
  have size : s.arena.size = base.length + Term.totalSize ts := by
    rw [Arena.size, ← Array.length_toList, insts, List.length_append, Term.length_blocks]
  rw [operands, size]
  clear insts operands size
  induction ts with
  | nil => exact List.forall_mem_nil _
  | cons e ts ih =>
    intro f member
    rw [Term.totalSize]
    rcases List.mem_cons.mp member with rfl | member
    · have inside := Term.last_mem dir e (base.length + Term.totalSize ts)
      have last : (e.fragment dir (base.length + Term.totalSize ts)).last =
          e.last dir (base.length + Term.totalSize ts) := rfl
      omega
    · have below := ih f member
      omega

theorem length_fragments (dir : Direction) (lo : Nat) (ts : List Term) :
    (Term.fragments dir lo ts).length = ts.length := by
  induction ts with
  | nil => rfl
  | cons e ts ih => rw [Term.fragments, List.length_cons, ih, List.length_cons]

theorem Holds.attains_apply {p : Pending} (h : Holds dir base ts s) (eval : p.eval ts = some us) :
    Attains (Holds dir base us) (s.apply limits dir p) := by
  have holds : ∀ s', s.apply limits dir p = .ok s' → Holds dir base us s' := by
    intro s' done
    obtain ⟨us', eval', holds⟩ := h.apply done
    cases eval.symm.trans eval'
    exact holds
  suffices proceeds : Attains (fun _ => True) (s.apply limits dir p) from proceeds.and_of_ok holds
  clear holds
  have inside := h.last_lt
  have length := length_fragments dir base.length ts
  rw [← h.operands] at length
  obtain ⟨arena, operands⟩ := s
  obtain ⟨op, span, number⟩ := p
  dsimp only at inside length
  match op, ts, operands with
  | .group, [], _ | .quantify _, [], _ | .alternate, [], _ | .concat, [], _ => cases eval
  | .alternate, [_], _ | .concat, [_], _ => cases eval
  | .group, _ :: _, [] | .quantify _, _ :: _, [] => cases length
  | .alternate, _ :: _ :: _, [] | .concat, _ :: _ :: _, [] => cases length
  | .alternate, _ :: _ :: _, [_] | .concat, _ :: _ :: _, [_] => cases length
  | .group, _ :: _, body :: rest =>
    have within := inside body List.mem_cons_self
    exact (Arena.attains_ofGroup number within).bind fun made _ =>
      (attains_push rest made).mono fun _ _ => trivial
  | .quantify q, _ :: _, body :: rest =>
    have within := inside body List.mem_cons_self
    exact (Arena.attains_ofQuantified q within).bind fun made _ =>
      (attains_push rest made).mono fun _ _ => trivial
  | .alternate, _ :: _ :: _, snd :: fst :: rest =>
    have within := inside snd List.mem_cons_self
    have within' := inside fst (List.mem_cons_of_mem snd List.mem_cons_self)
    exact (Arena.attains_ofAlternate within' within).bind fun made _ =>
      (attains_push rest made).mono fun _ _ => trivial
  | .concat, _ :: _ :: _, snd :: fst :: rest =>
    have within := inside snd List.mem_cons_self
    have within' := inside fst (List.mem_cons_of_mem snd List.mem_cons_self)
    cases dir with
    | forward =>
      exact (Arena.attains_ofSequence within').bind fun made _ =>
        (attains_push rest made).mono fun _ _ => trivial
    | backward =>
      exact (Arena.attains_ofSequence within).bind fun made _ =>
        (attains_push rest made).mono fun _ _ => trivial

theorem Holds.attains_step {step : Step} (h : Holds dir base ts s) (eval : step.eval ts = some us) :
    Attains (Holds dir base us) (s.step limits dir step) := by
  cases step with
  | atom a =>
    cases eval
    exact (attains_pushSingle (.atom a)).and_of_ok fun s' done => h.pushSingle done
  | apply p => exact h.attains_apply eval

theorem Holds.attains_steps {steps : List Step} (h : Holds dir base ts s)
    (eval : Step.evalAll ts steps = some us) :
    Attains (Holds dir base us) (steps.foldlM (Assembly.step limits dir) s) := by
  induction steps generalizing s ts with
  | nil =>
    cases eval
    exact h
  | cons step steps ih =>
    rw [Step.evalAll_cons, Option.bind_eq_some_iff] at eval
    obtain ⟨vs, first, rest⟩ := eval
    rw [List.foldlM_cons]
    exact (h.attains_step first).bind fun s₁ holds => ih holds rest

def ended (limits : Limits) (joint : Option Pending) (assembly : Assembly) : Except Cause Assembly := do
  let assembly ← assembly.pushSingle limits .accept
  match joint with
  | none => return assembly
  | some p => assembly.apply limits .forward p

theorem finish_eq (limits : Limits) (joint : Option Pending) (s : Assembly) :
    s.finish limits joint = s.ended limits joint >>= fun s' =>
      match s'.operands with
      | [f] => .ok (f.first, s'.arena)
      | operands => .error (.internal (.operandsLeft operands.length)) := by
  unfold finish ended
  rw [bind_assoc]
  cases joint <;> rfl

theorem Holds.attains_ended {joint : Option Pending} (h : Holds dir base ts s)
    (count : ts.length = joint.isSome.toNat) (concat : ∀ p ∈ joint, p.op = .concat) :
    Attains (fun s' => ∃ f, s'.operands = [f]) (s.ended limits joint) := by
  have inside := h.last_lt
  have length := length_fragments dir base.length ts
  rw [← h.operands] at length
  refine (attains_pushSingle .accept).bind ?_
  rintro ⟨a, operands⟩ ⟨size, rfl⟩
  dsimp only at size
  cases joint with
  | none =>
    have none_left : s.operands = [] := by
      rw [← List.length_eq_zero_iff, length, count]
      rfl
    rw [none_left]
    exact ⟨_, rfl⟩
  | some p =>
    have single : s.operands.length = 1 := by
      rw [length, count]
      rfl
    obtain ⟨f, one⟩ := List.length_eq_one_iff.mp single
    have within := inside f (one ▸ List.mem_cons_self)
    obtain ⟨op, span, number⟩ := p
    have is : op = .concat := concat _ rfl
    subst is
    rw [one]
    have within' : f.last < a.size := by omega
    refine (Arena.attains_ofSequence within').bind fun made _ => ?_
    refine (attains_push [] made).mono ?_
    rintro s' rfl
    exact ⟨_, rfl⟩

theorem Holds.attains_finish {joint : Option Pending} (h : Holds dir base ts s)
    (count : ts.length = joint.isSome.toNat) (concat : ∀ p ∈ joint, p.op = .concat) :
    Attains (fun _ => True) (s.finish limits joint) := by
  rw [finish_eq]
  refine (h.attains_ended count concat).bind ?_
  rintro s' ⟨f, one⟩
  rw [one]
  trivial

theorem attains_run {length : Nat} {toks : List Token} {t : Option Tree}
    (read : TreeReader.read toks = some t) (start : Arena) :
    Attains (fun _ => True) (run limits dir (Polish.ofTokens limits.stack length toks) start) := by
  obtain ⟨us, eval, ends⟩ : (Polish.ofTokens limits.stack length toks).Proceeds [] _ :=
    proceeds_ofTokens read
  unfold run
  refine ((holds_nil dir start).attains_steps eval).bind fun s holds => ?_
  cases result : (Polish.ofTokens limits.stack length toks).result with
  | error cause =>
    rw [result] at ends
    exact ends
  | ok joint =>
    rw [result] at ends
    obtain ⟨rfl, joined, concat⟩ := ends
    refine holds.attains_finish ?_ concat
    rw [joined]
    cases t <;> rfl

end Assembly

/-! ## Compiling -/

namespace Program

variable {limits : Limits} {pattern : String}

/-- Nothing that is assembled keeps its links from being shortened: what assembling concludes with, building
does. -/
theorem concludes_closed_build {failed : Cause → Prop} {dir : Direction} {length : Nat} {classes : ClassTable}
    {toks : List Token} {a : Arena} (closed : a.Closed classes) (refer : Tokens.Refer classes toks)
    (assembled : Concludes failed (fun _ => True)
      (Assembly.run limits dir (Polish.ofTokens limits.stack length toks) a)) :
    Concludes failed (fun built : Nat × Arena => built.2.Closed classes)
      (build limits dir (Polish.ofTokens limits.stack length toks) a) := by
  refine (assembled.of_ok fun made done => done).bind ?_
  rintro ⟨entry, raw⟩ done
  obtain ⟨o, yields, insts, -⟩ := Assembly.run_eq_ok done
  have refers : ∀ e ∈ o, e.Refers classes := fun e is => refers_of_yields refer (is ▸ yields)
  have raw_closed := closed.extend refers insts
  have within : a.size ≤ raw.size := by
    rw [Arena.size, Arena.size, ← Array.length_toList, ← Array.length_toList, insts, List.length_append]
    exact Nat.le_add_right _ _
  obtain ⟨short, shortened, shortens⟩ := raw_closed.exists_shortens within
  simp only [shortened]
  exact shortens.closed raw_closed

theorem attains_build {dir : Direction} {length : Nat} {classes : ClassTable} {toks : List Token}
    {t : Option Tree} {a : Arena} (closed : a.Closed classes) (refer : Tokens.Refer classes toks)
    (read : TreeReader.read toks = some t) :
    Attains (fun built : Nat × Arena => built.2.Closed classes)
      (build limits dir (Polish.ofTokens limits.stack length toks) a) :=
  attains_iff.mpr (concludes_closed_build closed refer (attains_iff.mp (Assembly.attains_run read a)))

theorem attains_ofTokens {length : Nat} {tokens : Tokens} {t : Option Tree}
    (refer : Tokens.Refer (.ofList tokens.classes) tokens.list)
    (read : TreeReader.read tokens.list = some t) :
    Attains (fun _ => True) (ofTokens limits length tokens) := by
  refine (attains_build (Arena.closed_nil _) refer read).bind ?_
  rintro ⟨forward, a⟩ closed
  exact (attains_build closed refer read).bind fun _ _ => trivial

theorem compile_eq (limits : Limits) {tokens : Tokens} (read : Tokens.ofPattern pattern = .ok tokens) :
    compile limits pattern =
      (ofTokens limits pattern.utf8ByteSize tokens).mapError (CompileError.mk pattern) := by
  rw [compile, read]
  rfl

/-- Only a limit can keep a pattern from compiling whose tokens have a tree. -/
theorem isLimit_of_error {tokens : Tokens} {t : Option Tree} {e : CompileError}
    (read : Tokens.ofPattern pattern = .ok tokens) (parses : Parses tokens.list t)
    (failed : compile limits pattern = .error e) : e.cause.isLimit = true := by
  have refer := Tokens.refers_ofPattern read
  have attains : Attains (fun _ => True) (ofTokens limits pattern.utf8ByteSize tokens) :=
    attains_ofTokens refer (TreeReader.read_of_parses parses)
  rw [compile_eq limits read] at failed
  cases built : ofTokens limits pattern.utf8ByteSize tokens with
  | ok p =>
    rw [built] at failed
    cases failed
  | error cause =>
    rw [built] at failed attains
    cases failed
    exact attains

/-- Compiling accepts the empty pattern and what the grammar derives, and nothing else, where no limit
is hit.  A pattern with a defect is rejected whatever the limits are. -/
theorem compiles_iff_derives {ts : List Token} {classes : List CharClass}
    (spelled : Spells 0 0 pattern.toList ts classes)
    (roomy : ∀ e, compile limits pattern = .error e → e.cause.isLimit = false) :
    ((∃ p, compile limits pattern = .ok p) ↔ ts = [] ∨ ∃ t, Derives .alternation ts t) ∧
      (Defective ts → ∃ e, compile limits pattern = .error e) := by
  have read := Tokens.ofPattern_eq_ok_iff.mpr spelled
  have tree_of : ∀ p, compile limits pattern = .ok p → ∃ t, Parses ts t := by
    intro p compiled
    obtain ⟨tokens, t, read', -, -, parses⟩ := exists_tree_of_compile compiled
    cases read.symm.trans read'
    exact ⟨t, parses⟩
  refine ⟨⟨?_, ?_⟩, ?_⟩
  · rintro ⟨p, compiled⟩
    obtain ⟨t, parses⟩ := tree_of p compiled
    cases t with
    | none => exact Or.inl parses
    | some t => exact Or.inr ⟨t, parses⟩
  · intro admitted
    have parses : ∃ t, Parses ts t := by
      rcases admitted with nothing | ⟨t, derives⟩
      · exact ⟨none, nothing⟩
      · exact ⟨some t, derives⟩
    obtain ⟨t, parses⟩ := parses
    cases compiled : compile limits pattern with
    | ok p => exact ⟨p, rfl⟩
    | error e =>
      have limit := isLimit_of_error read parses compiled
      rw [roomy e compiled] at limit
      cases limit
  · intro defective
    cases compiled : compile limits pattern with
    | error e => exact ⟨e, rfl⟩
    | ok p =>
      obtain ⟨t, parses⟩ := tree_of p compiled
      exact absurd parses (defective.not_parses t)

/-- The first alternative in the group is empty, but the bar in it finds two operands outside. -/
theorem compiles_iff_borrowed_operand : ∃ ts classes e,
    Spells 0 0 "a|b(|c)".toList ts classes ∧ compile {} "a|b(|c)" = .error e ∧
      e.cause.isLimit = false ∧ Defective ts ∧ ¬ (ts = [] ∨ ∃ t, Derives .alternation ts t) := by
  have read : Tokens.ofPattern "a|b(|c)" = .ok
      ⟨[⟨⟨0, 1⟩, .atom (.char 'a')⟩, ⟨⟨1, 2⟩, .bar⟩, ⟨⟨2, 3⟩, .atom (.char 'b')⟩,
        ⟨⟨3, 4⟩, .openParen⟩, ⟨⟨4, 5⟩, .bar⟩, ⟨⟨5, 6⟩, .atom (.char 'c')⟩,
        ⟨⟨6, 7⟩, .closeParen⟩], []⟩ := by decide +kernel
  have failed : compile {} "a|b(|c)" =
      .error ⟨"a|b(|c)", .illFormed ⟨⟨1, 2⟩, .missingOperand '|'⟩⟩ := by decide +kernel
  have spelled := Tokens.ofPattern_eq_ok_iff.mp read
  have roomy : ∀ e, compile {} "a|b(|c)" = .error e → e.cause.isLimit = false := by
    intro e failed'
    cases failed.symm.trans failed'
    rfl
  obtain ⟨accepts, -⟩ := compiles_iff_derives spelled roomy
  refine ⟨_, _, _, spelled, failed, rfl, .lacking [_, _, _] [_, _] rfl rfl, fun admitted => ?_⟩
  obtain ⟨p, compiled⟩ := accepts.mpr admitted
  cases failed.symm.trans compiled

end Program

end CursorRegex
