import CursorRegex.Proofs.Pattern.Bracketed
import CursorRegex.Proofs.Pattern.Precedence

/-! # The references of a term lead somewhere

A term names classes by their place in the class table, and groups by the number they are recorded
under.  The k-th bracket expression names the k-th class, and one that is negated a class with the newline
(`Tokens.refers_of_spells`), so what the table takes there is what the syntax says
(`ClassTable.accepts_of_refers`).  A group is numbered after it was counted, so its number is at least 1;
one past those recorded has none (`Refer.openGroup`).  What a pattern yields refers to nothing else
(`refers_of_yields`). -/
set_option autoImplicit false

namespace CursorRegex

def Recorded (number : Option Nat) : Prop := ∀ group ∈ number, 0 < group ∧ group ≤ 9

/-- The atom names an entry of the class table, if it names any, and one with the newline if it wants the
characters outside. -/
def Atom.Refers (classes : ClassTable) : Atom → Prop
  | .set id negated => ∃ cls, classes.classes[id]? = some cls ∧ (negated = true → .char '\n' ∈ cls.items)
  | _ => True

def Term.Refers (classes : ClassTable) : Term → Prop
  | .atom a => a.Refers classes
  | .group _ number body => Recorded number ∧ body.Refers classes
  | .repeated _ body => body.Refers classes
  | .sequence fst snd => fst.Refers classes ∧ snd.Refers classes
  | .alternate fst snd => fst.Refers classes ∧ snd.Refers classes

theorem ClassTable.accepts_of_refers {classes : ClassTable} {id : Nat} {negated : Bool}
    (refers : (Atom.set id negated).Refers classes) (c : Char) :
    ∃ taken, classes.accepts id negated c = .ok taken ∧
      (taken = true ↔ classes.Accepts id negated c) := by
  obtain ⟨cls, entry, newline⟩ := refers
  refine ⟨cls.accepts negated c, by rw [accepts, entry], ?_⟩
  have taken : cls.accepts negated c = true ↔
      if negated then c ≠ '\n' ∧ ¬ Covers cls.items c else Covers cls.items c := by
    cases negated with
    | false => exact CharClass.accepts_false_iff
    | true =>
      have listed : ¬ Covers cls.items c → c ≠ '\n' := by
        intro outside same
        exact outside (Or.inl (same ▸ newline rfl))
      exact CharClass.accepts_true_iff.trans ⟨fun outside => ⟨listed outside, outside⟩, And.right⟩
  rw [taken]
  constructor
  · intro holds
    exact ⟨cls, entry, holds⟩
  · rintro ⟨cls', entry', holds⟩
    cases entry.symm.trans entry'
    exact holds

/-! ## Tokens -/

namespace Tokens

def Refer (classes : ClassTable) (ts : List Token) : Prop :=
  ∀ t ∈ ts, ∀ a, t.kind = .atom a → a.Refers classes

theorem refer_cons {classes : ClassTable} {t : Token} {ts : List Token} :
    Refer classes (t :: ts) ↔ (∀ a, t.kind = .atom a → a.Refers classes) ∧ Refer classes ts :=
  List.forall_mem_cons

/-- The classes of some tokens stand in the table behind those of the tokens in front. -/
theorem refers_of_spells {offset id : Nat} {cs : List Char} {ts : List Token} {classes : List CharClass}
    (h : Spells offset id cs ts classes) (front : List CharClass) (length : front.length = id) :
    Refer (.ofList (front ++ classes)) ts := by
  induction h generalizing front with
  | nil => exact fun t member => absurd member List.not_mem_nil
  | plain means more ih =>
    refine refer_cons.mpr ⟨fun a is => ?_, ih front length⟩
    cases means <;> cases is <;> trivial
  | escaped means more ih =>
    refine refer_cons.mpr ⟨fun a is => ?_, ih front length⟩
    cases is
    trivial
  | dangling =>
    refine refer_cons.mpr ⟨fun a is => ?_, fun t member => absurd member List.not_mem_nil⟩
    cases is
    trivial
  | @bracket offset id negated inside cs items ts classes spelled more ih =>
    have behind := ih (front ++ [⟨if negated then .char '\n' :: items else items⟩]) (by simp [length])
    rw [List.append_assoc] at behind
    refine refer_cons.mpr ⟨fun a is => ?_, behind⟩
    cases is
    refine ⟨⟨if negated then .char '\n' :: items else items⟩, ?_, fun outside => ?_⟩
    · simp [ClassTable.ofList, ← length]
    · rw [if_pos outside]
      exact List.mem_cons_self

theorem refers_ofPattern {pattern : String} {tokens : Tokens} (read : ofPattern pattern = .ok tokens) :
    Refer (.ofList tokens.classes) tokens.list :=
  refers_of_spells (ofPattern_eq_ok_iff.mp read) [] rfl

end Tokens

/-! ## Operators -/

def Pending.Numbered (p : Pending) : Prop := p.op = .group → Recorded p.group

def Term.AllRefer (classes : ClassTable) (ts : List Term) : Prop := ∀ e ∈ ts, e.Refers classes

theorem Term.allRefer_cons {classes : ClassTable} {e : Term} {ts : List Term} :
    AllRefer classes (e :: ts) ↔ e.Refers classes ∧ AllRefer classes ts := List.forall_mem_cons

theorem Pending.refers_eval {classes : ClassTable} {p : Pending} {ts us : List Term}
    (numbered : p.Numbered) (refer : Term.AllRefer classes ts) (h : p.eval ts = some us) :
    Term.AllRefer classes us := by
  obtain ⟨op, span, number⟩ := p
  match op, ts, h with
  | .group, body :: rest, h =>
    cases h
    obtain ⟨body_refers, rest_refer⟩ := Term.allRefer_cons.mp refer
    exact Term.allRefer_cons.mpr ⟨⟨numbered rfl, body_refers⟩, rest_refer⟩
  | .quantify q, body :: rest, h =>
    cases h
    obtain ⟨body_refers, rest_refer⟩ := Term.allRefer_cons.mp refer
    exact Term.allRefer_cons.mpr ⟨body_refers, rest_refer⟩
  | .alternate, snd :: fst :: rest, h | .concat, snd :: fst :: rest, h =>
    cases h
    obtain ⟨snd_refers, refer⟩ := Term.allRefer_cons.mp refer
    obtain ⟨fst_refers, rest_refer⟩ := Term.allRefer_cons.mp refer
    exact Term.allRefer_cons.mpr ⟨⟨fst_refers, snd_refers⟩, rest_refer⟩

theorem Step.refers_evalAll_apply {classes : ClassTable} {ps : List Pending} {ts us : List Term}
    (numbered : ∀ p ∈ ps, p.Numbered) (refer : Term.AllRefer classes ts)
    (h : evalAll ts (ps.map .apply) = some us) : Term.AllRefer classes us := by
  induction ps generalizing ts with
  | nil =>
    cases h
    exact refer
  | cons p ps ih =>
    rw [evalAll_apply_cons, Option.bind_eq_some_iff] at h
    obtain ⟨vs, first, rest⟩ := h
    obtain ⟨head, tail⟩ := List.forall_mem_cons.mp numbered
    exact ih tail (p.refers_eval head refer first) rest

/-! ## Reading -/

namespace Reader

variable {limit : Nat} {classes : ClassTable} {span : Span} {r r' : Reader} {ts us : List Term}

structure Refer (classes : ClassTable) (r : Reader) (ts : List Term) : Prop where
  numbered : ∀ p ∈ r.pending, p.Numbered
  terms : Term.AllRefer classes ts

/-- The waiting operators are settled in part, and one other than a group may follow. -/
theorem Refer.settle {keep : Pending → Bool} {p : Pending} (h : Refer classes r ts)
    (ne : p.op ≠ .group) (pending : r'.pending = p :: r.pending.dropWhile keep)
    (eval : Step.evalAll ts ((r.pending.takeWhile keep).map .apply) = some us) :
    Refer classes r' us := by
  refine ⟨?_, Step.refers_evalAll_apply ?_ h.terms eval⟩
  · rw [pending]
    refine List.forall_mem_cons.mpr ⟨fun is => absurd is ne, fun p member => ?_⟩
    exact h.numbered p (List.dropWhile_subset _ member)
  · exact fun p member => h.numbered p (List.takeWhile_subset _ member)

theorem Refer.joined (h : Refer classes r ts) (step : (r.joined limit span).Settles ts r' us) :
    Refer classes r' us ∧ r'.groups = r.groups := by
  rcases settles_joined step with ⟨-, between⟩ | ⟨-, rfl, rfl⟩
  · obtain ⟨rfl, eval⟩ := settles_between between
    exact ⟨h.settle (by simp) rfl eval, rfl⟩
  · exact ⟨h, rfl⟩

theorem recorded_number (opened : 0 < r.groups) : Recorded r.number := by
  intro group member
  unfold number at member
  split at member
  · cases member
    omega
  · cases member

theorem Refer.openGroup (h : Refer classes r ts)
    (step : (r.openGroup limit span).Settles ts r' us) : Refer classes r' us := by
  obtain ⟨r₁, joins, rfl⟩ := settles_openGroup step
  have counted : Refer classes { r with groups := r.groups + 1, opened := span :: r.opened } ts :=
    ⟨h.numbered, h.terms⟩
  obtain ⟨joined, groups⟩ := counted.joined joins
  have number : Recorded r₁.number := recorded_number (groups ▸ Nat.succ_pos r.groups)
  exact ⟨List.forall_mem_cons.mpr ⟨fun _ => number, joined.numbered⟩, joined.terms⟩

theorem Refer.closeGroup (h : Refer classes r ts) (step : (r.closeGroup span).Settles ts r' us) :
    Refer classes r' us := by
  obtain ⟨opening, opened, group, outside, -, drops, rfl, eval⟩ := settles_closeGroup step
  have dropped : ∀ p ∈ group :: outside, p ∈ r.pending := fun p member =>
    List.dropWhile_subset _ (drops ▸ member)
  refine ⟨fun p member => h.numbered p (dropped p (List.mem_cons_of_mem _ member)), ?_⟩
  refine Step.refers_evalAll_apply (fun p member => ?_) h.terms eval
  rcases List.mem_append.mp member with inside | last
  · exact h.numbered p (List.takeWhile_subset _ inside)
  · rw [List.mem_singleton.mp last]
    exact h.numbered group (dropped group List.mem_cons_self)

theorem Refer.token {t : Token} (h : Refer classes r ts)
    (refers : ∀ a, t.kind = .atom a → a.Refers classes)
    (step : (r.token limit t).Settles ts r' us) : Refer classes r' us := by
  obtain ⟨span, kind⟩ := t
  cases kind with
  | atom a =>
    obtain ⟨r₁, us₁, joins, rfl, rfl⟩ := settles_atom step
    obtain ⟨joined, -⟩ := h.joined joins
    exact ⟨joined.numbered, Term.allRefer_cons.mpr ⟨refers a rfl, joined.terms⟩⟩
  | quantifier q =>
    obtain ⟨rfl, eval⟩ := settles_quantify step
    exact h.settle (by simp) rfl eval
  | bar =>
    obtain ⟨rfl, eval⟩ := settles_between step
    exact h.settle (by simp) rfl eval
  | openParen => exact h.openGroup step
  | closeParen => exact h.closeGroup step

theorem Refer.tokens {toks : List Token} (h : Refer classes r ts)
    (refer : Tokens.Refer classes toks) (run : (r.tokens limit toks).Settles ts r' us) :
    Refer classes r' us := by
  induction toks generalizing r ts with
  | nil =>
    obtain ⟨rfl, rfl⟩ := Polish.settles_pure.mp run
    exact h
  | cons t toks ih =>
    obtain ⟨r₁, us₁, first, rest⟩ := Polish.settles_andThen.mp run
    obtain ⟨head, tail⟩ := List.forall_mem_cons.mp refer
    exact ih (h.token head first) tail rest

end Reader

theorem refers_of_yields {limit length : Nat} {classes : ClassTable} {toks : List Token} {e : Term}
    (refer : Tokens.Refer classes toks) (h : (Polish.ofTokens limit length toks).Yields (some e)) :
    e.Refers classes := by
  cases h with | term is settles =>
  obtain ⟨r, ts, run, ends⟩ := Polish.settles_andThen.mp settles
  obtain ⟨-, eval, -⟩ := Reader.settles_finish ends
  have begins : Reader.Refer classes .start [] := ⟨nofun, nofun⟩
  have read := begins.tokens refer run
  have all := Step.refers_evalAll_apply read.numbered read.terms eval
  exact all e List.mem_cons_self

end CursorRegex
