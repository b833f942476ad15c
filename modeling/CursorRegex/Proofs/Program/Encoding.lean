import CursorRegex.Program.Basic
import CursorRegex.Proofs.Program.Assembled
import CursorRegex.Proofs.Program.Links

/-! # What a compiled program looks like

`Term.Coded` says how the instructions of a term are linked in a finished program: as in the block
that was assembled, but with every way through empty instructions cut short.  `coded_of_code` finds a
term coded wherever its block was shortened.

Both halves of a compiled program code the term that the operators yield, and the whole arena is
closed (`compile_eq_ok`). -/
set_option autoImplicit false

namespace CursorRegex

namespace Term

/-- The block of a term at `lo`, whose ways out all lead to `k`. -/
def Coded (a : Arena) (dir : Direction) : Term → Nat → Nat → Prop
  | .atom x, lo, k => a.get? lo = some ⟨.atom x, some k⟩
  | .group _ number body, lo, k =>
    body.Coded a dir lo (lo + body.size) ∧
      a.get? (lo + body.size) = some ⟨.closeGroup number, some k⟩ ∧
      a.get? (lo + body.size + 1) = some ⟨.openGroup number, some (body.first dir lo)⟩
  | .repeated .quest body, lo, k =>
    body.Coded a dir lo k ∧ a.get? (lo + body.size) = some ⟨.fork (body.first dir lo), some k⟩
  | .repeated _ body, lo, k =>
    body.Coded a dir lo (lo + body.size) ∧
      a.get? (lo + body.size) = some ⟨.fork (body.first dir lo), some k⟩
  | .sequence fst snd, lo, k =>
    match dir with
    | .forward =>
      fst.Coded a dir lo (snd.first dir (lo + fst.size)) ∧ snd.Coded a dir (lo + fst.size) k
    | .backward => fst.Coded a dir lo k ∧ snd.Coded a dir (lo + fst.size) (fst.first dir lo)
  | .alternate fst snd, lo, k =>
    fst.Coded a dir lo k ∧ snd.Coded a dir (lo + fst.size) k ∧
      a.get? (lo + fst.size + snd.size + 1) =
        some ⟨.fork (fst.first dir lo), some (snd.first dir (lo + fst.size))⟩

variable {a a' : Arena} {dir : Direction}

theorem Coded.mono {e : Term} {lo k : Nat}
    (keeps : ∀ i inst, a.get? i = some inst → a'.get? i = some inst) (h : e.Coded a dir lo k) :
    e.Coded a' dir lo k := by
  induction e generalizing lo k with
  | atom x => exact keeps _ _ h
  | group opening number body ih => exact ⟨ih h.1, keeps _ _ h.2.1, keeps _ _ h.2.2⟩
  | repeated q body ih => cases q <;> exact ⟨ih h.1, keeps _ _ h.2⟩
  | sequence fst snd ih ih' => cases dir <;> exact ⟨ih h.1, ih' h.2⟩
  | alternate fst snd ih ih' => exact ⟨ih h.1, ih' h.2.1, keeps _ _ h.2.2⟩

/-! ## Shortened blocks -/

/-- Blocks are never entered at an empty instruction. -/
theorem resolves_first {e : Term} {lo n : Nat} (has : a.Has lo (e.code dir lo (some n))) :
    a.Resolves (e.first dir lo) (e.first dir lo) := by
  induction e generalizing lo n with
  | atom x =>
    simp only [code, Arena.has_cons] at has
    exact .stop has.1 (Or.inl (by simp))
  | group opening number body ih =>
    simp only [code, Arena.has_append, Arena.has_cons, length_code] at has
    exact .stop has.2.2.1 (Or.inl (by simp))
  | repeated q body ih =>
    cases q with
    | star | quest =>
      simp only [code, Arena.has_append, Arena.has_cons, length_code] at has
      exact .stop has.2.1 (Or.inl (by simp))
    | plus =>
      simp only [code, Arena.has_append] at has
      exact ih has.1
  | sequence fst snd ih ih' =>
    cases dir with
    | forward =>
      simp only [code, Arena.has_append] at has
      exact ih has.1
    | backward =>
      simp only [code, Arena.has_append, length_code] at has
      exact ih' has.2
  | alternate fst snd ih ih' =>
    simp only [code, Arena.has_append, Arena.has_cons, length_code] at has
    exact .stop has.2.2.2.1 (Or.inl (by simp))

theorem coded_of_code {e : Term} {lo n k : Nat} (has : a.Has lo (e.code dir lo (some n)))
    (leads : a.Resolves n k)
    (short : ∀ i kind target r, lo ≤ i → a.get? i = some ⟨kind, some target⟩ →
      a.Resolves target r → a'.get? i = some ⟨kind, some r⟩) : e.Coded a' dir lo k := by
  induction e generalizing lo n k with
  | atom x =>
    simp only [code, Arena.has_cons] at has
    exact short _ _ _ _ (Nat.le_refl _) has.1 leads
  | group opening number body ih =>
    simp only [code, Arena.has_append, Arena.has_cons, length_code] at has
    obtain ⟨inside, close, opened, -⟩ := has
    refine ⟨ih inside (.stop close (Or.inl (by simp))) short, ?_, ?_⟩
    · exact short _ _ _ _ (by omega) close leads
    · exact short _ _ _ _ (by omega) opened (resolves_first inside)
  | repeated q body ih =>
    cases q with
    | star | plus =>
      simp only [code, Arena.has_append, Arena.has_cons, length_code] at has
      obtain ⟨inside, fork, -⟩ := has
      refine ⟨ih inside (.stop fork (Or.inl (by simp))) short, ?_⟩
      exact short _ _ _ _ (by omega) fork leads
    | quest =>
      simp only [code, Arena.has_append, Arena.has_cons, length_code] at has
      obtain ⟨inside, fork, exit, -⟩ := has
      have through : a.Resolves (lo + body.size + 1) k := leads.skip exit
      exact ⟨ih inside through short, short _ _ _ _ (by omega) fork through⟩
  | sequence fst snd ih ih' =>
    have behind : ∀ i kind target r, lo + fst.size ≤ i → a.get? i = some ⟨kind, some target⟩ →
        a.Resolves target r → a'.get? i = some ⟨kind, some r⟩ :=
      fun i kind target r low => short i kind target r (by omega)
    cases dir with
    | forward =>
      simp only [code, Arena.has_append, length_code] at has
      exact ⟨ih has.1 (resolves_first has.2) short, ih' has.2 leads behind⟩
    | backward =>
      simp only [code, Arena.has_append, length_code] at has
      exact ⟨ih has.1 leads short, ih' has.2 (resolves_first has.1) behind⟩
  | alternate fst snd ih ih' =>
    simp only [code, Arena.has_append, Arena.has_cons, length_code] at has
    obtain ⟨inside_fst, inside_snd, exit, fork, -⟩ := has
    have through : a.Resolves (lo + fst.size + snd.size) k := leads.skip exit
    refine ⟨ih inside_fst through short, ih' inside_snd through ?_, ?_⟩
    · exact fun i kind target r low => short i kind target r (by omega)
    · exact short _ _ _ _ (by omega) fork (resolves_first inside_snd)

end Term

/-! ## One half of a program -/

def Arena.Programs (a : Arena) (dir : Direction) (lo : Nat) : Option Term → Prop
  | none => a.get? lo = some ⟨.accept, none⟩
  | some e => e.Coded a dir lo (lo + e.size) ∧ a.get? (lo + e.size) = some ⟨.accept, none⟩

namespace Arena

variable {a a' : Arena} {dir : Direction} {classes : ClassTable} {o : Option Term}

theorem Programs.mono {lo : Nat}
    (keeps : ∀ i inst, a.get? i = some inst → a'.get? i = some inst)
    (h : a.Programs dir lo o) : a'.Programs dir lo o := by
  cases o with
  | none => exact keeps _ _ h
  | some e => exact ⟨h.1.mono keeps, keeps _ _ h.2⟩

theorem Ends.mono {i : Nat} (keeps : ∀ i inst, a.get? i = some inst → a'.get? i = some inst)
    (size : a.size ≤ a'.size) (h : a.Ends i) : a'.Ends i := by
  obtain ⟨r, within, l, trail⟩ := h
  refine ⟨r, Nat.lt_of_lt_of_le within size, l, trail.congr fun j member => ?_⟩
  obtain ⟨inst, here⟩ := exists_get? (lt_size_of_trail within trail j member)
  rw [nextOf, nextOf, here, keeps j inst here]

theorem Closed.extend (closed : a.Closed classes) (refers : ∀ e ∈ o, e.Refers classes)
    (insts : a'.insts.toList = a.insts.toList ++ programCode dir a.size o) : a'.Closed classes := by
  have keeps : ∀ i inst, a.get? i = some inst → a'.get? i = some inst := by
    intro i inst here
    have bound := lt_size_of_get? here
    rw [get?, ← Array.getElem?_toList] at here ⊢
    rwa [insts, List.getElem?_append_left bound]
  have has : a'.Has a.size (programCode dir a.size o) := has_of_toList insts
  have size : a'.size = a.size + (programCode dir a.size o).length := by
    rw [Arena.size, ← Array.length_toList, insts, List.length_append]
    rfl
  have old_or_new : ∀ i inst, a'.get? i = some inst →
      a.get? i = some inst ∨ inst ∈ programCode dir a.size o := by
    intro i inst here
    rw [get?, ← Array.getElem?_toList, insts] at here
    by_cases old : i < a.size
    · rw [List.getElem?_append_left old] at here
      exact Or.inl (by rw [get?, ← Array.getElem?_toList, here])
    · rw [List.getElem?_append_right (Nat.le_of_not_lt old)] at here
      exact Or.inr (List.mem_of_getElem? here)
  have new_refers : ∀ inst ∈ programCode dir a.size o, inst.kind.Refers classes _ ∧ _ :=
    refers_programCode refers a.size
  rw [← size] at new_refers
  refine ⟨fun i inst here => ?_, fun i kind here => ?_, fun i bound => ?_⟩
  · rcases old_or_new i inst here with old | new
    · exact (closed.refers i inst old).mono (by omega)
    · exact (new_refers inst new).1
  · rcases old_or_new i _ here with old | new
    · exact closed.accepts i kind old
    · exact (new_refers _ new).2 rfl
  · by_cases old : i < a.size
    · exact (closed.ends i old).mono keeps (by omega)
    · exact ends_programCode has i (Nat.le_of_not_lt old) (size ▸ bound)

/-! ## Shortened links -/

/-- In `a'` the links from `start` on lead straight to where they lead in `a`, and nothing else has
changed. -/
structure Shortens (start : Nat) (a a' : Arena) : Prop where
  size : a'.size = a.size
  outside : ∀ i, i < start ∨ a.size ≤ i → a'.get? i = a.get? i
  linked : ∀ i kind target r, start ≤ i → a.get? i = some ⟨kind, some target⟩ →
    a.Resolves target r → a'.get? i = some ⟨kind, some r⟩
  unlinked : ∀ i kind, a.get? i = some ⟨kind, none⟩ → a'.get? i = some ⟨kind, none⟩

theorem Closed.resolves (closed : a.Closed classes) {i target : Nat} {kind : Kind}
    (here : a.get? i = some ⟨kind, some target⟩) : ∃ r, a.Resolves target r :=
  ((closed.ends i (lt_size_of_get? here)).next here).resolves

/-- Shortening the links of a closed arena does not fail. -/
theorem Closed.exists_shortens {start : Nat} (closed : a.Closed classes) (within : start ≤ a.size) :
    ∃ a', a.shorten start a.size = (a', none) ∧ a.Shortens start a' := by
  have leads : ∀ i kind target, start ≤ i → a.get? i = some ⟨kind, some target⟩ →
      ∃ r, a.Resolves target r := fun _ _ _ _ here => closed.resolves here
  obtain ⟨a', run, outside, inside⟩ := shorten_eq within (Nat.le_refl _) leads
  have same := a.size_shorten start a.size
  rw [run] at same
  refine ⟨a', run, same, outside, ?_, ?_⟩
  · intro i kind target r low here resolved
    obtain ⟨inst', here', short⟩ := inside i _ low (lt_size_of_get? here) here
    cases short with
    | unlinked last => cases last
    | linked link leads' =>
      cases link
      rw [here', resolved.unique leads']
  · intro i kind here
    by_cases low : i < start
    · rw [outside i (Or.inl low), here]
    · obtain ⟨inst', here', short⟩ :=
        inside i _ (Nat.le_of_not_lt low) (lt_size_of_get? here) here
      cases short with
      | unlinked last => exact here'
      | linked link leads' => cases link

namespace Shortens

variable {start : Nat}

theorem same_kind (h : a.Shortens start a') (closed : a.Closed classes) {i : Nat} {kind : Kind}
    {next' : Option Nat} (here' : a'.get? i = some ⟨kind, next'⟩) :
    ∃ next, a.get? i = some ⟨kind, next⟩ ∧ (next' = none → next = none) := by
  obtain ⟨⟨kind', next⟩, here⟩ := exists_get? (h.size ▸ lt_size_of_get? here' : i < a.size)
  by_cases low : i < start
  · rw [h.outside i (Or.inl low)] at here'
    exact ⟨next', here', id⟩
  · cases next with
    | none =>
      cases here'.symm.trans (h.unlinked i kind' here)
      exact ⟨none, here, id⟩
    | some target =>
      obtain ⟨r, resolved⟩ := closed.resolves here
      cases here'.symm.trans (h.linked i kind' target r (Nat.le_of_not_lt low) here resolved)
      exact ⟨some target, here, nofun⟩

/-- The way from a place goes on as before, or skips some empty instructions. -/
theorem nextOf_cases (h : a.Shortens start a') (closed : a.Closed classes) (j : Nat) :
    a'.nextOf j = a.nextOf j ∨
      ∃ target r, a.nextOf j = some target ∧ a.Resolves target r ∧ a'.nextOf j = some r := by
  by_cases outside : j < start ∨ a.size ≤ j
  · exact Or.inl (by rw [nextOf, nextOf, h.outside j outside])
  · rw [not_or, Nat.not_lt, Nat.not_le] at outside
    obtain ⟨low, high⟩ := outside
    obtain ⟨⟨kind, next⟩, here⟩ := exists_get? high
    cases next with
    | none => exact Or.inl (by rw [nextOf, nextOf, h.unlinked j kind here, here])
    | some target =>
      obtain ⟨r, resolved⟩ := closed.resolves here
      have written := h.linked j kind target r low here resolved
      exact Or.inr ⟨target, r, by rw [nextOf, here]; rfl, resolved, by rw [nextOf, written]; rfl⟩

theorem closed (h : a.Shortens start a') (closed : a.Closed classes) : a'.Closed classes := by
  refine ⟨?_, ?_, ?_⟩
  · rintro i ⟨kind, next'⟩ here'
    obtain ⟨next, here, -⟩ := h.same_kind closed here'
    exact h.size ▸ closed.refers i ⟨kind, next⟩ here
  · intro i kind here'
    obtain ⟨next, here, unlinked⟩ := h.same_kind closed here'
    exact closed.accepts i kind (unlinked rfl ▸ here)
  · intro i bound
    exact Ends.shortened h.size (h.nextOf_cases closed) (closed.ends i (h.size ▸ bound))

end Shortens

end Arena

/-! ## Both halves -/

theorem Polish.Yields.unique {x : Polish (Option Pending)} {o o' : Option Term} (h : x.Yields o)
    (h' : x.Yields o') : o = o' := by
  cases h with
  | nothing settles =>
    cases h' with
    | nothing => rfl
    | term _ settles' => cases settles.1.symm.trans settles'.1
  | term _ settles =>
    cases h' with
    | nothing settles' => cases settles.1.symm.trans settles'.1
    | term _ settles' =>
      cases settles.2.symm.trans settles'.2
      rfl

namespace Program

variable {limits : Limits}

/-- A program is built by putting the block of its term behind what is there, and shortening its
links. -/
theorem exists_shortens_of_build {dir : Direction} {length entry : Nat} {classes : ClassTable}
    {toks : List Token} {a a' : Arena} (closed : a.Closed classes) (refer : Tokens.Refer classes toks)
    (h : build limits dir (Polish.ofTokens limits.stack length toks) a = .ok (entry, a')) :
    ∃ o, ∃ raw : Arena, (Polish.ofTokens limits.stack length toks).Yields o ∧
      entry = programEntry dir a.size o ∧
      raw.insts.toList = a.insts.toList ++ programCode dir a.size o ∧ raw.Closed classes ∧
      raw.Shortens a.size a' := by
  obtain ⟨⟨entry', raw⟩, assembled, h⟩ := bind_eq_ok.mp h
  obtain ⟨o, yields, insts, rfl⟩ := Assembly.run_eq_ok assembled
  have refers : ∀ e ∈ o, e.Refers classes := fun e is => refers_of_yields refer (is ▸ yields)
  have raw_closed := closed.extend refers insts
  have raw_size : raw.size = a.size + (programCode dir a.size o).length := by
    rw [Arena.size, ← Array.length_toList, insts, List.length_append]
    rfl
  obtain ⟨short, run, shortens⟩ := raw_closed.exists_shortens (show a.size ≤ raw.size by omega)
  simp only [run] at h
  cases h
  exact ⟨o, raw, yields, rfl, insts, raw_closed, shortens⟩

theorem build_eq_ok {dir : Direction} {length entry : Nat} {classes : ClassTable} {toks : List Token}
    {a a' : Arena} (closed : a.Closed classes) (refer : Tokens.Refer classes toks)
    (h : build limits dir (Polish.ofTokens limits.stack length toks) a = .ok (entry, a')) :
    ∃ o, (Polish.ofTokens limits.stack length toks).Yields o ∧
      entry = programEntry dir a.size o ∧ a'.Programs dir a.size o ∧ a'.Closed classes ∧
      ∀ i inst, a.get? i = some inst → a'.get? i = some inst := by
  obtain ⟨o, raw, yields, rfl, insts, raw_closed, shortens⟩ :=
    exists_shortens_of_build closed refer h
  refine ⟨o, yields, rfl, ?_, shortens.closed raw_closed, fun i inst here => ?_⟩
  · have has : raw.Has a.size (programCode dir a.size o) := Arena.has_of_toList insts
    cases o with
    | none => exact shortens.unlinked _ _ (Arena.has_cons.mp has).1
    | some e =>
      obtain ⟨inside, last⟩ := Arena.has_append.mp has
      rw [Term.length_code] at last
      have accept := (Arena.has_cons.mp last).1
      exact ⟨Term.coded_of_code inside (.stop accept (Or.inl (by simp))) shortens.linked,
        shortens.unlinked _ _ accept⟩
  · have low := Arena.lt_size_of_get? here
    rw [shortens.outside i (Or.inl low), Arena.get?, ← Array.getElem?_toList, insts,
      List.getElem?_append_left low, Array.getElem?_toList]
    exact here

/-- Both halves of the program code the same term, and the arena is closed. -/
structure Encodes (p : Program) (o : Option Term) : Prop where
  closed : p.arena.Closed p.classes
  halves : ∀ dir, ∃ lo, p.entry dir = programEntry dir lo o ∧ p.arena.Programs dir lo o

theorem ofTokens_eq_ok {length : Nat} {tokens : Tokens} {p : Program}
    (refer : Tokens.Refer (.ofList tokens.classes) tokens.list)
    (h : ofTokens limits length tokens = .ok p) :
    ∃ o, (Polish.ofTokens limits.stack length tokens.list).Yields o ∧ p.Encodes o ∧
      p.classes = .ofList tokens.classes := by
  obtain ⟨⟨forward, a⟩, built, h⟩ := bind_eq_ok.mp h
  obtain ⟨⟨backward, a'⟩, built', h⟩ := bind_eq_ok.mp h
  cases h
  obtain ⟨o, yields, rfl, fst, closed, -⟩ := build_eq_ok (Arena.closed_nil _) refer built
  obtain ⟨o', yields', rfl, snd, closed', keeps⟩ := build_eq_ok closed refer built'
  cases yields.unique yields'
  refine ⟨o, yields, ⟨closed', fun dir => ?_⟩, rfl⟩
  cases dir with
  | forward => exact ⟨_, rfl, fst.mono keeps⟩
  | backward => exact ⟨_, rfl, snd⟩

theorem exists_tree_of_compile {pattern : String} {p : Program} (h : compile limits pattern = .ok p) :
    ∃ tokens t, Tokens.ofPattern pattern = .ok tokens ∧ p.classes = .ofList tokens.classes ∧
      p.Encodes (t.map (·.term 0)) ∧ Parses tokens.list t := by
  obtain ⟨tokens, read, h⟩ := bind_eq_ok.mp (mapError_eq_ok.mp h)
  have read := mapError_eq_ok.mp read
  have refer := Tokens.refers_ofPattern read
  obtain ⟨o, yields, encodes, classes⟩ := ofTokens_eq_ok refer h
  obtain ⟨t, found, rfl⟩ := read_of_yields yields
  exact ⟨tokens, t, read, classes, encodes, TreeReader.parses_of_read found⟩

theorem rel_rearranged_term (t : Option Tree) :
    Option.Rel (fun e t => Tree.Rearranged (Term.tree e) t) (t.map (·.term 0)) t := by
  cases t with
  | none => exact .none
  | some t => exact .some (t.rearranged_term 0)

theorem compile_eq_ok {pattern : String} {p : Program} (h : compile limits pattern = .ok p) :
    ∃ tokens o t, Tokens.ofPattern pattern = .ok tokens ∧ p.classes = .ofList tokens.classes ∧
      p.Encodes o ∧ Parses tokens.list t ∧
      Option.Rel (fun e t => Tree.Rearranged (Term.tree e) t) o t := by
  obtain ⟨tokens, t, read, classes, encodes, parses⟩ := exists_tree_of_compile h
  exact ⟨tokens, _, t, read, classes, encodes, parses, rel_rearranged_term t⟩

end Program

end CursorRegex
