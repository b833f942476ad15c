import CursorRegex.Proofs.Pattern.Tiers

/-! # Where operators and errors come from

Every operator that waits carries the span of the token that brought it in (`Arises`), and the spans of the
groups that are open are those of the parentheses not closed so far, the innermost first (`Unclosed`).  One
lemma for each operation of the reader shows that it keeps both (`Reader.tells_token`).  So whatever is
applied stems from a token, a parenthesis that is refused closes nothing, and a group that is refused at
the end is the last of those never closed (`Polish.tells_ofTokens`). -/
set_option autoImplicit false

namespace CursorRegex

/-- Among the tokens is the one that the operator stands for, or an operand that is joined to what is in
front of it. -/
def Arises (toks : List Token) (p : Pending) : Prop :=
  ∃ t ∈ toks, p.span = t.span ∧
    (t.kind.operator? = some p.op ∨ p.op = .concat ∧ (t.kind = .openParen ∨ ∃ a, t.kind = .atom a))

theorem Arises.mono {toks more : List Token} {p : Pending} (h : Arises toks p) :
    Arises (toks ++ more) p := by
  obtain ⟨t, member, from_token⟩ := h
  exact ⟨t, List.mem_append_left more member, from_token⟩

/-! ## Parentheses that are not closed -/

/-- The parentheses of the tokens that are not closed have these spans, the innermost first. -/
inductive Unclosed : List Token → List Span → Prop where
  | nil {toks : List Token} (closed : Balanced toks) : Unclosed toks []
  | cons {outer inner : List Token} {span : Span} {opened : List Span} (rest : Unclosed outer opened)
      (closed : Balanced inner) : Unclosed (outer ++ ⟨span, .openParen⟩ :: inner) (span :: opened)

namespace Balanced

variable {toks more : List Token} {t : Token}

theorem nil : Balanced [] := by
  refine ⟨fun front back split => ?_, rfl⟩
  rw [(List.append_eq_nil_iff.mp split.symm).1]
  exact Nat.le_refl 0

theorem of_prefixes (opened : ∀ front back, toks = front ++ back →
      front.countP (·.kind = .closeParen) ≤ front.countP (·.kind = .openParen))
    (closed : toks.countP (·.kind = .openParen) ≤ toks.countP (·.kind = .closeParen)) :
    Balanced toks :=
  ⟨opened, Nat.le_antisymm (opened toks [] (List.append_nil toks).symm) closed⟩

theorem append (h : Balanced toks) (next : Balanced more) : Balanced (toks ++ more) := by
  refine ⟨fun front back split => ?_, ?_⟩
  · rcases List.append_eq_append_iff.mp split with ⟨mid, rfl, rest⟩ | ⟨mid, rfl, -⟩
    · have inner := next.opened mid back rest
      have outer := h.closed
      simp only [List.countP_append]
      omega
    · exact h.opened front mid rfl
  · rw [List.countP_append, List.countP_append, h.closed, next.closed]

theorem single (not_open : t.kind ≠ .openParen) (not_close : t.kind ≠ .closeParen) : Balanced [t] := by
  refine of_prefixes (fun front back split => ?_) ?_
  · cases front with
    | nil => exact Nat.le_refl 0
    | cons u front =>
      obtain ⟨rfl, rest⟩ := List.cons.inj split
      rw [(List.append_eq_nil_iff.mp rest.symm).1]
      simp [not_close]
  · simp [not_open]

theorem enclosed {opening closing : Token} (h : Balanced toks) (opens : opening.kind = .openParen)
    (closes : closing.kind = .closeParen) : Balanced (opening :: toks ++ [closing]) := by
  have closed := h.closed
  refine of_prefixes (fun front back split => ?_) ?_
  · cases front with
    | nil => exact Nat.le_refl 0
    | cons u front =>
      obtain ⟨rfl, rest⟩ := List.cons.inj split
      rcases List.append_eq_append_iff.mp rest with ⟨mid, rfl, single⟩ | ⟨mid, rfl, -⟩
      · have few : mid.countP (·.kind = .closeParen) ≤ 1 := by
          have length := congrArg List.length single
          have bound := List.countP_le_length (p := (·.kind = .closeParen)) (l := mid)
          rw [List.length_append, List.length_singleton] at length
          omega
        simp only [List.countP_cons, List.countP_append, opens, decide_true, if_true, reduceCtorEq,
          decide_false, Bool.false_eq_true, if_false]
        omega
      · have inside := h.opened front mid rfl
        simp only [List.countP_cons, opens, decide_true, if_true, reduceCtorEq, decide_false,
          Bool.false_eq_true, if_false]
        omega
  · simp only [List.cons_append, List.countP_cons, List.countP_append, List.countP_nil, opens, closes,
      decide_true, if_true, reduceCtorEq, decide_false, Bool.false_eq_true, if_false]
    omega

end Balanced

namespace Unclosed

variable {toks more : List Token} {opened : List Span} {span : Span} {t : Token}

theorem append (h : Unclosed toks opened) (closed : Balanced more) : Unclosed (toks ++ more) opened := by
  cases h with
  | nil before => exact .nil (before.append closed)
  | cons rest before =>
    rw [List.append_assoc, List.cons_append]
    exact .cons rest (before.append closed)

theorem opening (h : Unclosed toks opened) (is : t.kind = .openParen) :
    Unclosed (toks ++ [t]) (t.span :: opened) := by
  obtain ⟨span, kind⟩ := t
  cases is
  exact .cons h .nil

theorem closing (h : Unclosed toks (span :: opened)) (is : t.kind = .closeParen) :
    Unclosed (toks ++ [t]) opened := by
  cases h with
  | @cons outer inner _ _ rest closed =>
    have group : Balanced (⟨span, .openParen⟩ :: inner ++ [t]) := closed.enclosed rfl is
    rw [List.append_assoc]
    exact rest.append group

end Unclosed

def Closes (toks : List Token) : Prop :=
  ∃ inside t rest, toks = inside ++ t :: rest ∧ t.kind = .closeParen ∧ Balanced inside

theorem closes_of_countP_lt {toks : List Token}
    (more : toks.countP (·.kind = .openParen) < toks.countP (·.kind = .closeParen)) : Closes toks := by
  have first : ∀ toks : List Token, Closes toks ∨ ∀ front back, toks = front ++ back →
      front.countP (·.kind = .closeParen) ≤ front.countP (·.kind = .openParen) := by
    intro toks
    induction toks using List.reverseRecOn with
    | nil => exact Or.inr Balanced.nil.opened
    | append_singleton toks t ih =>
      rcases ih with ⟨inside, u, rest, rfl, is, closed⟩ | opened
      · exact Or.inl ⟨inside, u, rest ++ [t], by rw [List.append_assoc, List.cons_append], is, closed⟩
      by_cases surplus : (toks ++ [t]).countP (·.kind = .openParen) <
          (toks ++ [t]).countP (·.kind = .closeParen)
      · left
        have before := opened toks [] (List.append_nil toks).symm
        by_cases is : t.kind = .closeParen
        · refine ⟨toks, t, [], rfl, is, .of_prefixes opened ?_⟩
          simp only [List.countP_append, List.countP_singleton, is, reduceCtorEq, decide_false,
            decide_true, Bool.false_eq_true, if_true, if_false] at surplus
          omega
        · simp only [List.countP_append, List.countP_singleton, is, decide_false, Bool.false_eq_true,
            if_false] at surplus
          omega
      · right
        intro front back split
        rcases List.eq_nil_or_concat back with rfl | ⟨back, u, rfl⟩
        · rw [List.append_nil] at split
          rw [← split]
          exact Nat.not_lt.mp surplus
        · rw [List.concat_eq_append, ← List.append_assoc] at split
          exact opened front back (List.append_inj_left' split rfl)
  rcases first toks with closes | opened
  · exact closes
  · exact absurd (opened toks [] (List.append_nil toks).symm) (Nat.not_le.mpr more)

namespace Balanced

variable {toks : List Token}

/-- Nothing that is balanced closes a parenthesis in front of it. -/
theorem not_closes (h : Balanced toks) : ¬ Closes toks := by
  rintro ⟨inside, t, rest, rfl, is, closed⟩
  have opened := h.opened (inside ++ [t]) rest (by rw [List.append_assoc]; rfl)
  have even := closed.closed
  simp only [List.countP_append, List.countP_singleton, is, reduceCtorEq, decide_false, decide_true,
    Bool.false_eq_true, if_true, if_false] at opened
  omega

theorem closes {front back : List Token} {t : Token} (h : Balanced (front ++ t :: back))
    (is : t.kind = .openParen) : Closes back := by
  have opened := h.opened front (t :: back) rfl
  have closed := h.closed
  refine closes_of_countP_lt ?_
  simp only [List.countP_append, List.countP_cons, is, reduceCtorEq, decide_false, decide_true,
    Bool.false_eq_true, if_true, if_false] at closed
  omega

end Balanced

/-! ## What a reading tells -/

namespace Polish

variable {α β : Type} {x : Polish α} {f : α → Polish β} {source : Pending → Prop}
  {refused : SyntaxError → Prop} {mid : α → Prop} {post : β → Prop}

/-- What is applied has a source, what is told of the pattern is admitted, and the result has `post`. -/
structure Tells (source : Pending → Prop) (refused : SyntaxError → Prop) (post : α → Prop)
    (x : Polish α) : Prop where
  applied : ∀ p, .apply p ∈ x.steps → source p
  result : Concludes (fun cause => ∀ e, cause = .illFormed e → refused e) post x.result

theorem Tells.andThen (h : x.Tells source refused mid)
    (next : ∀ a, mid a → (f a).Tells source refused post) :
    (x.andThen f).Tells source refused post := by
  obtain ⟨steps, result⟩ := x
  obtain ⟨applied, ends⟩ := h
  cases result with
  | error cause => exact ⟨applied, ends⟩
  | ok a =>
    obtain ⟨applied', ends'⟩ := next a ends
    refine ⟨fun p member => ?_, ends'⟩
    rcases List.mem_append.mp member with first | second
    · exact applied p first
    · exact applied' p second

theorem Tells.mono {source' : Pending → Prop} {refused' : SyntaxError → Prop} {post : α → Prop}
    (h : x.Tells source refused mid) (sources : ∀ p, source p → source' p)
    (refuses : ∀ e, refused e → refused' e) (weaken : ∀ a, mid a → post a) :
    x.Tells source' refused' post :=
  ⟨fun p member => sources p (h.applied p member),
    h.result.mono (fun _ told e same => refuses e (told e same)) weaken⟩

end Polish

/-! ## The operations of the reader -/

namespace Reader

variable {r : Reader} {limit : Nat} {op : Operator} {span : Span} {source : Pending → Prop}
  {refused : SyntaxError → Prop} {done : List Token} {t : Token}

def Has (source : Pending → Prop) (opened : List Span) (r : Reader) : Prop :=
  (∀ p ∈ r.pending, source p) ∧ r.opened = opened

theorem tells_push {opened : List Span} (h : r.Has source opened)
    (here : ∀ number, source ⟨op, span, number⟩) :
    (r.push limit op span).Tells source refused (Has source opened) := by
  unfold push
  split
  · exact ⟨by simp [Polish.fail], nofun⟩
  · refine ⟨by simp [Polish.pure], fun p member => ?_, h.2⟩
    rcases List.mem_cons.mp member with rfl | below
    · exact here _
    · exact h.1 p below

theorem tells_release (op : Operator) {opened : List Span} (h : r.Has source opened) :
    (r.release op).Tells source refused (Has source opened) := by
  have split := List.takeWhile_append_dropWhile (p := (op.rank ≤ ·.op.rank)) (l := r.pending)
  refine ⟨fun p member => ?_, fun p member => ?_, h.2⟩
  · obtain ⟨q, taken, same⟩ := List.mem_map.mp member
    cases same
    exact h.1 p (split ▸ List.mem_append_left _ taken)
  · exact h.1 p (split ▸ List.mem_append_right _ member)

theorem tells_between {opened : List Span} (h : r.Has source opened)
    (here : ∀ number, source ⟨op, span, number⟩) :
    (r.between limit op span).Tells source refused (Has source opened) :=
  (tells_release op h).andThen fun _ kept => tells_push kept here

theorem tells_quantify {q : Quantifier} {opened : List Span} (h : r.Has source opened)
    (here : ∀ number, source ⟨.quantify q, span, number⟩) :
    (r.quantify limit q span).Tells source refused (Has source opened) :=
  (tells_release (.quantify q) h).andThen fun _ kept => tells_push kept here

theorem tells_joined {opened : List Span} (h : r.Has source opened)
    (here : ∀ number, source ⟨.concat, span, number⟩) :
    (r.joined limit span).Tells source refused (Has source opened) := by
  unfold joined
  split
  · exact tells_between h here
  · exact ⟨by simp [Polish.pure], h⟩

theorem tells_joined_last (none_waits : r.pending = []) (limit : Nat) (span : Span) :
    (r.joined limit span).Tells source refused (fun _ => True) := by
  have released : (r.release .concat).Tells source refused (fun _ => True) :=
    ⟨by simp [release, none_waits], trivial⟩
  have pushed : ∀ r' : Reader, (r'.push limit .concat span).Tells source refused (fun _ => True) := by
    intro r'
    unfold push
    split
    · refine ⟨by simp [Polish.fail], fun e same => ?_⟩
      cases same
    · exact ⟨by simp [Polish.pure], trivial⟩
  unfold joined
  split
  · exact released.andThen fun r' _ => pushed _
  · exact ⟨by simp [Polish.pure], trivial⟩

theorem tells_atom {a : Atom} {opened : List Span} (h : r.Has source opened)
    (here : ∀ number, source ⟨.concat, span, number⟩) :
    (r.atom limit a span).Tells source refused (Has source opened) :=
  (tells_joined h here).andThen fun _ kept => ⟨by simp, kept⟩

theorem tells_openGroup {opened : List Span} (h : r.Has source opened)
    (joint : ∀ number, source ⟨.concat, span, number⟩)
    (here : ∀ number, source ⟨.group, span, number⟩) :
    (r.openGroup limit span).Tells source refused (Has source (span :: opened)) := by
  have opening : Has source (span :: opened)
      { r with groups := r.groups + 1, opened := span :: r.opened } :=
    ⟨h.1, congrArg (span :: ·) h.2⟩
  exact (tells_joined opening joint).andThen fun _ kept => tells_push kept here

/-- A parenthesis closes the group opened last, and is refused if none is open. -/
theorem tells_closeGroup {opened : List Span} (h : r.Has source opened) :
    (r.closeGroup span).Tells source (fun e => opened = [] ∧ e = ⟨span, .unmatchedClose⟩)
      (fun r' => ∃ innermost rest, opened = innermost :: rest ∧ r'.Has source rest) := by
  obtain ⟨sources, open_now⟩ := h
  have split := List.takeWhile_append_dropWhile (p := (·.op ≠ .group)) (l := r.pending)
  unfold closeGroup
  cases opens : r.opened with
  | nil =>
    refine ⟨by simp [Polish.fail], fun e same => ?_⟩
    cases same
    exact ⟨open_now.symm.trans opens, rfl⟩
  | cons innermost rest =>
    dsimp only
    have inside : ∀ p, p ∈ r.pending.takeWhile (·.op ≠ .group) → source p := fun p member =>
      sources p (split ▸ List.mem_append_left _ member)
    cases below : r.pending.dropWhile (·.op ≠ .group) with
    | nil =>
      refine ⟨fun p member => ?_, fun e same => ?_⟩
      · obtain ⟨q, taken, same⟩ := List.mem_map.mp member
        cases same
        exact inside p taken
      · cases same
    | cons group outside =>
      rw [below] at split
      refine ⟨fun p member => ?_, innermost, rest, open_now.symm.trans opens, fun p member => ?_, rfl⟩
      · obtain ⟨q, taken, same⟩ := List.mem_map.mp member
        cases same
        rcases List.mem_append.mp taken with above | last
        · exact inside p above
        · rw [List.mem_singleton.mp last]
          exact sources group (split ▸ List.mem_append_right _ List.mem_cons_self)
      · exact sources p (split ▸ List.mem_append_right _ (List.mem_cons_of_mem _ member))

def Recalls (done : List Token) (r : Reader) : Prop :=
  ∃ opened, Unclosed done opened ∧ r.Has (Arises done) opened

def Surplus (done : List Token) (t : Token) (e : SyntaxError) : Prop :=
  t.kind = .closeParen ∧ Balanced done ∧ e = ⟨t.span, .unmatchedClose⟩

theorem tells_token (h : r.Recalls done) (limit : Nat) (t : Token) :
    (r.token limit t).Tells (Arises (done ++ [t])) (Surplus done t) (Recalls (done ++ [t])) := by
  obtain ⟨opened, unclosed, has⟩ := h
  have earlier : r.Has (Arises (done ++ [t])) opened := ⟨fun p waits => (has.1 p waits).mono, has.2⟩
  have here : ∀ op number, (t.kind.operator? = some op ∨
      op = .concat ∧ (t.kind = .openParen ∨ ∃ a, t.kind = .atom a)) →
        Arises (done ++ [t]) ⟨op, t.span, number⟩ := fun op number stands =>
    ⟨t, by simp, rfl, stands⟩
  have read : t.kind ≠ .openParen → t.kind ≠ .closeParen → ∀ r' : Reader,
      r'.Has (Arises (done ++ [t])) opened → r'.Recalls (done ++ [t]) :=
    fun not_open not_close r' kept => ⟨opened, unclosed.append (.single not_open not_close), kept⟩
  unfold token
  cases kind : t.kind with
  | atom a =>
    rw [kind] at read here
    refine (tells_atom earlier fun number => here _ number (Or.inr ⟨rfl, Or.inr ⟨a, rfl⟩⟩)).mono
      (fun _ => id) (fun _ => id) (read nofun nofun)
  | quantifier q =>
    rw [kind] at read here
    exact (tells_quantify earlier fun number => here _ number (Or.inl rfl)).mono
      (fun _ => id) (fun _ => id) (read nofun nofun)
  | bar =>
    rw [kind] at read here
    exact (tells_between earlier fun number => here _ number (Or.inl rfl)).mono
      (fun _ => id) (fun _ => id) (read nofun nofun)
  | openParen =>
    rw [kind] at here
    exact (tells_openGroup earlier (fun number => here _ number (Or.inr ⟨rfl, Or.inl rfl⟩))
      fun number => here _ number (Or.inl rfl)).mono (fun _ => id) (fun _ => id)
      fun r' kept => ⟨_, unclosed.opening kind, kept⟩
  | closeParen =>
    refine (tells_closeGroup earlier).mono (fun _ => id) ?_ ?_
    · rintro e ⟨rfl, told⟩
      cases unclosed with
      | nil closed => exact ⟨kind, closed, told⟩
    · rintro r' ⟨innermost, rest, rfl, kept⟩
      exact ⟨rest, unclosed.closing kind, kept⟩

theorem tells_tokens (h : r.Recalls done) (limit : Nat) (toks : List Token) :
    (r.tokens limit toks).Tells (Arises (done ++ toks))
      (fun e => ∃ front t back, toks = front ++ t :: back ∧ Surplus (done ++ front) t e)
      (Recalls (done ++ toks)) := by
  induction toks generalizing done r with
  | nil =>
    rw [List.append_nil]
    exact ⟨by simp [tokens, Polish.pure], h⟩
  | cons t toks ih =>
    rw [List.append_cons]
    refine Polish.Tells.andThen ((tells_token h limit t).mono (fun p => Arises.mono) ?_ fun _ => id) ?_
    · intro e surplus
      exact ⟨[], t, toks, rfl, (List.append_nil done).symm ▸ surplus⟩
    · intro r' kept
      refine (ih kept).mono (fun _ => id) ?_ fun _ => id
      rintro e ⟨front, u, back, rfl, surplus⟩
      exact ⟨t :: front, u, back, rfl, List.append_cons done t front ▸ surplus⟩

end Reader

/-- What is told of a parenthesis of the pattern: it closes nothing, or it is the last that is never
closed. -/
inductive Odd (toks : List Token) : SyntaxError → Prop where
  | closing {front back : List Token} {t : Token} (here : toks = front ++ t :: back)
      (is : t.kind = .closeParen) (closed : Balanced front) : Odd toks ⟨t.span, .unmatchedClose⟩
  | opening {front back : List Token} {t : Token} (here : toks = front ++ t :: back)
      (is : t.kind = .openParen) (closed : Balanced back) : Odd toks ⟨t.span, .unmatchedOpen⟩

/-- All operators that are applied stem from tokens, and nothing is told but of a parenthesis. -/
theorem Polish.tells_ofTokens (limit length : Nat) (toks : List Token) :
    (ofTokens limit length toks).Tells (fun p => Arises toks p) (Odd toks) (fun _ => True) := by
  have start : Reader.start.Recalls [] := ⟨[], .nil .nil, List.forall_mem_nil _, rfl⟩
  refine Tells.andThen ((Reader.tells_tokens start limit toks).mono (fun _ => id) ?_ fun _ => id) ?_
  · rintro e ⟨front, t, back, here, is, closed, rfl⟩
    exact .closing here is closed
  · rintro ⟨pending, after, groups, opened⟩ ⟨_, unclosed, sources, rfl⟩
    dsimp only at unclosed sources
    unfold Reader.finish
    cases unclosed with
    | nil closed =>
      have settled : Tells (Arises toks) (Odd toks) (fun r' : Reader => r'.pending = [])
          ⟨pending.map .apply, .ok ⟨[], after, groups, []⟩⟩ := by
        refine ⟨fun p member => ?_, rfl⟩
        obtain ⟨q, waits, same⟩ := List.mem_map.mp member
        cases same
        exact sources p waits
      refine settled.andThen fun r' none_waits => ?_
      exact (Reader.tells_joined_last none_waits limit _).andThen fun _ _ =>
        ⟨by simp [Polish.pure], trivial⟩
    | cons rest closed =>
      refine ⟨by simp [Polish.fail], fun e same => ?_⟩
      cases same
      exact .opening rfl rfl closed

end CursorRegex
