import CursorRegex.Proofs.Pattern.Mirror
import CursorRegex.Proofs.Program.Encoding

/-! # Programs of mirrored terms

A term that is built to read backward and its mirror that is built to read forward are the same program,
but for the places where the instructions lie.  The places can be paired one to one, the entries with each
other, so that paired instructions do the same and lead to paired ones (`Term.Mirrors.exists_twins`,
`Arena.Programs.exists_twins`). -/
set_option autoImplicit false

namespace CursorRegex

variable {atoms : Atom → Atom → Prop} {pairs R S : Nat → Nat → Prop} {a a' : Arena}

/-! ## Pairing places -/

structure Pairing (lo hi lo' hi' : Nat) (R : Nat → Nat → Prop) : Prop where
  within : ∀ {i i'}, R i i' → (lo ≤ i ∧ i < hi) ∧ lo' ≤ i' ∧ i' < hi'
  unique : ∀ {i i' j j'}, R i i' → R j j' → (i = j ↔ i' = j')

namespace Pairing

variable {low high low' high' front back front' back' : Nat}

theorem single (i i' : Nat) : Pairing i (i + 1) i' (i' + 1) (fun j j' => j = i ∧ j' = i') := by
  refine ⟨?_, ?_⟩
  · rintro _ _ ⟨rfl, rfl⟩
    omega
  · rintro _ _ _ _ ⟨rfl, rfl⟩ ⟨rfl, rfl⟩
    exact ⟨fun _ => rfl, fun _ => rfl⟩

theorem join (lo hi lo' hi' : Nat) (h : Pairing low high low' high' R)
    (h' : Pairing front back front' back' S) (apart : high ≤ front) (apart' : high' ≤ front' ∨ back' ≤ low')
    (inside : lo ≤ low ∧ lo ≤ front ∧ high ≤ hi ∧ back ≤ hi)
    (inside' : lo' ≤ low' ∧ lo' ≤ front' ∧ high' ≤ hi' ∧ back' ≤ hi') :
    Pairing lo hi lo' hi' (fun i i' => R i i' ∨ S i i') := by
  refine ⟨?_, ?_⟩
  · rintro i i' (paired | paired)
    · have := h.within paired
      omega
    · have := h'.within paired
      omega
  · rintro i i' j j' (paired | paired) (other | other)
    · exact h.unique paired other
    · have := h.within paired
      have := h'.within other
      omega
    · have := h'.within paired
      have := h.within other
      omega
    · exact h'.unique paired other

end Pairing

/-! ## Instructions that do the same -/

/-- The instructions at `i` and `i'` do the same, and lead to where `links` pairs. -/
inductive Arena.Corresponds (atoms : Atom → Atom → Prop) (pairs : Nat → Nat → Prop) (a a' : Arena)
    (links : Nat → Nat → Prop) (i i' : Nat) : Prop where
  | atom {x x' : Atom} {j j' : Nat} (here : a.get? i = some ⟨.atom x, some j⟩)
      (here' : a'.get? i' = some ⟨.atom x', some j'⟩) (same : atoms x x') (link : links j j') :
      Corresponds atoms pairs a a' links i i'
  | openGroup {k k' j j' : Nat} (here : a.get? i = some ⟨.openGroup (some k), some j⟩)
      (here' : a'.get? i' = some ⟨.openGroup (some k'), some j'⟩) (paired : pairs k k')
      (link : links j j') : Corresponds atoms pairs a a' links i i'
  | closeGroup {k k' j j' : Nat} (here : a.get? i = some ⟨.closeGroup (some k), some j⟩)
      (here' : a'.get? i' = some ⟨.closeGroup (some k'), some j'⟩) (paired : pairs k k')
      (link : links j j') : Corresponds atoms pairs a a' links i i'
  | fork {right right' j j' : Nat} (here : a.get? i = some ⟨.fork right, some j⟩)
      (here' : a'.get? i' = some ⟨.fork right', some j'⟩) (later : links right right')
      (link : links j j') : Corresponds atoms pairs a a' links i i'
  | accept (here : a.get? i = some ⟨.accept, none⟩) (here' : a'.get? i' = some ⟨.accept, none⟩) :
      Corresponds atoms pairs a a' links i i'

namespace Arena

theorem Corresponds.mono {links links' : Nat → Nat → Prop} {i i' : Nat}
    (h : Corresponds atoms pairs a a' links i i') (weaken : ∀ j j', links j j' → links' j j') :
    Corresponds atoms pairs a a' links' i i' := by
  cases h with
  | atom here here' same link => exact .atom here here' same (weaken _ _ link)
  | openGroup here here' paired link => exact .openGroup here here' paired (weaken _ _ link)
  | closeGroup here here' paired link => exact .closeGroup here here' paired (weaken _ _ link)
  | fork here here' later link => exact .fork here here' (weaken _ _ later) (weaken _ _ link)
  | accept here here' => exact .accept here here'

/-- The places of two blocks are paired, so that paired instructions do the same and lead to paired ones
or, from both blocks, to the exit. -/
structure Twins (atoms : Atom → Atom → Prop) (pairs : Nat → Nat → Prop) (a a' : Arena)
    (lo hi entry exit lo' hi' entry' exit' : Nat) (R : Nat → Nat → Prop) : Prop where
  pairing : Pairing lo hi lo' hi' R
  entry : R entry entry'
  does : ∀ {i i'}, R i i' →
    a.Corresponds atoms pairs a' (fun j j' => R j j' ∨ j = exit ∧ j' = exit') i i'

namespace Twins

variable {lo mid hi entry back exit lo' mid' hi' entry' back' exit' : Nat}

theorem group {k k' : Nat} (h : Twins atoms pairs a a' lo mid entry mid lo' mid' entry' mid' R)
    (paired : pairs k k') (close : a.get? mid = some ⟨.closeGroup (some k), some exit⟩)
    (close' : a'.get? mid' = some ⟨.closeGroup (some k'), some exit'⟩)
    (opened : a.get? (mid + 1) = some ⟨.openGroup (some k), some entry⟩)
    (opened' : a'.get? (mid' + 1) = some ⟨.openGroup (some k'), some entry'⟩) :
    ∃ S, Twins atoms pairs a a' lo (mid + 2) (mid + 1) exit lo' (mid' + 2) (mid' + 1) exit' S := by
  have inside := h.pairing.within h.entry
  have closed := h.pairing.join lo (mid + 1) lo' (mid' + 1) (.single mid mid') (by omega) (by omega)
    (by omega) (by omega)
  have whole := closed.join lo (mid + 2) lo' (mid' + 2) (.single (mid + 1) (mid' + 1)) (by omega)
    (by omega) (by omega) (by omega)
  refine ⟨_, whole, Or.inr ⟨rfl, rfl⟩, ?_⟩
  rintro _ _ ((paired' | ⟨rfl, rfl⟩) | ⟨rfl, rfl⟩)
  · refine (h.does paired').mono fun j j' link => ?_
    exact Or.inl (Or.inl link)
  · exact .closeGroup close close' paired (Or.inr ⟨rfl, rfl⟩)
  · exact .openGroup opened opened' paired (Or.inl (Or.inl (Or.inl h.entry)))

/-- A fork behind a block that leads to the fork or on to its exit. -/
theorem fork (h : Twins atoms pairs a a' lo mid entry back lo' mid' entry' back' R) (below : mid < hi)
    (below' : mid' < hi') (here : a.get? mid = some ⟨.fork entry, some exit⟩)
    (here' : a'.get? mid' = some ⟨.fork entry', some exit'⟩)
    (leads : back = mid ∧ back' = mid' ∨ back = exit ∧ back' = exit') :
    ∃ S, S entry entry' ∧ Twins atoms pairs a a' lo hi mid exit lo' hi' mid' exit' S := by
  have inside := h.pairing.within h.entry
  have pairing := h.pairing.join lo hi lo' hi' (.single mid mid') (by omega) (by omega) (by omega)
    (by omega)
  refine ⟨_, Or.inl h.entry, pairing, Or.inr ⟨rfl, rfl⟩, ?_⟩
  rintro _ _ (paired | ⟨rfl, rfl⟩)
  · refine (h.does paired).mono fun j j' link => ?_
    rcases link with link | ⟨rfl, rfl⟩
    · exact Or.inl (Or.inl link)
    · exact leads.imp_left Or.inr
  · exact .fork here here' (Or.inl (Or.inl h.entry)) (Or.inr ⟨rfl, rfl⟩)

variable {first first' : Nat}

/-- Two blocks of which the second is entered first.  In the other arena they lie the other way round. -/
theorem chain (late : Twins atoms pairs a a' lo mid entry exit mid' hi' entry' exit' R)
    (early : Twins atoms pairs a a' mid hi first entry lo' mid' first' entry' S) :
    ∃ T, Twins atoms pairs a a' lo hi first exit lo' hi' first' exit' T := by
  have inside := late.pairing.within late.entry
  have inside' := early.pairing.within early.entry
  have whole := late.pairing.join lo hi lo' hi' early.pairing (by omega) (by omega) (by omega) (by omega)
  refine ⟨_, whole, Or.inr early.entry, ?_⟩
  rintro i i' (paired | paired)
  · refine (late.does paired).mono fun j j' link => ?_
    exact link.imp_left Or.inl
  · refine (early.does paired).mono fun j j' link => ?_
    rcases link with link | ⟨rfl, rfl⟩
    · exact Or.inl (Or.inr link)
    · exact Or.inl (Or.inl late.entry)

/-- Two blocks with a fork that leads to either. -/
theorem branch (left : Twins atoms pairs a a' lo mid entry exit lo' mid' entry' exit' R)
    (right : Twins atoms pairs a a' mid hi first exit mid' hi' first' exit' S)
    (here : a.get? (hi + 1) = some ⟨.fork entry, some first⟩)
    (here' : a'.get? (hi' + 1) = some ⟨.fork entry', some first'⟩) :
    ∃ T, Twins atoms pairs a a' lo (hi + 2) (hi + 1) exit lo' (hi' + 2) (hi' + 1) exit' T := by
  have inside := left.pairing.within left.entry
  have inside' := right.pairing.within right.entry
  have both := left.pairing.join lo hi lo' hi' right.pairing (by omega) (by omega) (by omega) (by omega)
  have whole := both.join lo (hi + 2) lo' (hi' + 2) (.single (hi + 1) (hi' + 1)) (by omega) (by omega)
    (by omega) (by omega)
  refine ⟨_, whole, Or.inr ⟨rfl, rfl⟩, ?_⟩
  rintro _ _ ((paired | paired) | ⟨rfl, rfl⟩)
  · refine (left.does paired).mono fun j j' link => ?_
    exact link.imp_left (Or.inl ∘ Or.inl)
  · refine (right.does paired).mono fun j j' link => ?_
    exact link.imp_left (Or.inl ∘ Or.inr)
  · exact .fork here here' (Or.inl (Or.inl (Or.inl left.entry))) (Or.inl (Or.inl (Or.inr right.entry)))

end Twins

end Arena

/-! ## Blocks and programs -/

namespace Term

theorem Joins.coded {front back joined : Term} {lo k : Nat} (h : Joins front back joined)
    (coded : joined.Coded a .forward lo k) :
    joined.size = front.size + back.size ∧ joined.first .forward lo = front.first .forward lo ∧
      front.Coded a .forward lo (back.first .forward (lo + front.size)) ∧
      back.Coded a .forward (lo + front.size) k := by
  induction h generalizing k with
  | piece piece => exact ⟨rfl, rfl, coded.1, coded.2⟩
  | @sequence fst joined snd joins ih =>
    obtain ⟨size, first, coded_front, coded_fst⟩ := ih coded.1
    have coded_snd := coded.2
    rw [size, ← Nat.add_assoc] at coded_fst coded_snd
    refine ⟨?_, first, coded_front, coded_fst, coded_snd⟩
    rw [Term.size, size, Term.size, Nat.add_assoc]

theorem Mirrors.exists_twins {e e' : Term} {lo k lo' k' : Nat} (h : Mirrors atoms pairs e e')
    (coded : e.Coded a .backward lo k) (coded' : e'.Coded a' .forward lo' k') :
    ∃ R, Arena.Twins atoms pairs a a' lo (lo + e.size) (e.first .backward lo) k lo' (lo' + e'.size)
      (e'.first .forward lo') k' R := by
  induction h generalizing lo k lo' k' with
  | atom same =>
    refine ⟨_, .single lo lo', ⟨rfl, rfl⟩, ?_⟩
    rintro _ _ ⟨rfl, rfl⟩
    exact .atom coded coded' same (Or.inr ⟨rfl, rfl⟩)
  | group opening opening' paired inner ih =>
    obtain ⟨inside, close, opened⟩ := coded
    obtain ⟨inside', close', opened'⟩ := coded'
    obtain ⟨R, twins⟩ := ih inside inside'
    exact twins.group paired close close' opened opened'
  | @repeated body body' q inner ih =>
    have below : lo + body.size < lo + (Term.repeated q body).size := by
      cases q <;> simp only [size, Quantifier.size] <;> omega
    have below' : lo' + body'.size < lo' + (Term.repeated q body').size := by
      cases q <;> simp only [size, Quantifier.size] <;> omega
    cases q with
    | star =>
      obtain ⟨R, twins⟩ := ih coded.1 coded'.1
      obtain ⟨S, -, looped⟩ := twins.fork below below' coded.2 coded'.2 (Or.inl ⟨rfl, rfl⟩)
      exact ⟨S, looped⟩
    | plus =>
      obtain ⟨R, twins⟩ := ih coded.1 coded'.1
      obtain ⟨S, entry, looped⟩ := twins.fork below below' coded.2 coded'.2 (Or.inl ⟨rfl, rfl⟩)
      exact ⟨S, { looped with entry := entry }⟩
    | quest =>
      obtain ⟨R, twins⟩ := ih coded.1 coded'.1
      obtain ⟨S, -, skipped⟩ := twins.fork below below' coded.2 coded'.2 (Or.inr ⟨rfl, rfl⟩)
      exact ⟨S, skipped⟩
  | sequence late early joins ih ih' =>
    obtain ⟨size, first, coded_front, coded_back⟩ := joins.coded coded'
    obtain ⟨R, late⟩ := ih coded.1 coded_back
    obtain ⟨S, early⟩ := ih' coded.2 coded_front
    rw [size, first, Term.size, ← Nat.add_assoc, ← Nat.add_assoc]
    exact late.chain early
  | alternate left right ih ih' =>
    obtain ⟨inside, inside_snd, fork⟩ := coded
    obtain ⟨inside', inside_snd', fork'⟩ := coded'
    obtain ⟨R, left⟩ := ih inside inside'
    obtain ⟨S, right⟩ := ih' inside_snd inside_snd'
    rw [size, size, ← Nat.add_assoc, ← Nat.add_assoc, ← Nat.add_assoc, ← Nat.add_assoc]
    exact left.branch right fork fork'

end Term

/-- Two programs for terms that mirror each other, or for none, are the same but for their places. -/
theorem Arena.Programs.exists_twins {o o' : Option Term} {lo lo' : Nat}
    (mirrors : Option.Rel (Term.Mirrors atoms pairs) o o') (programs : a.Programs .backward lo o)
    (programs' : a'.Programs .forward lo' o') :
    ∃ R : Nat → Nat → Prop, (∀ {i i' j j'}, R i i' → R j j' → (i = j ↔ i' = j')) ∧
      R (programEntry .backward lo o) (programEntry .forward lo' o') ∧
      ∀ {i i'}, R i i' → a.Corresponds atoms pairs a' R i i' := by
  cases mirrors with
  | none =>
    refine ⟨_, (Pairing.single lo lo').unique, ⟨rfl, rfl⟩, ?_⟩
    rintro _ _ ⟨rfl, rfl⟩
    exact .accept programs programs'
  | @some e e' mirrors =>
    obtain ⟨R, pairing, entry, does⟩ := mirrors.exists_twins programs.1 programs'.1
    have whole := pairing.join lo (lo + e.size + 1) lo' (lo' + e'.size + 1)
      (.single (lo + e.size) (lo' + e'.size)) (by omega) (by omega) (by omega) (by omega)
    refine ⟨_, whole.unique, Or.inl entry, ?_⟩
    rintro _ _ (paired | ⟨rfl, rfl⟩)
    · exact does paired
    · exact .accept programs.2 programs'.2

end CursorRegex
