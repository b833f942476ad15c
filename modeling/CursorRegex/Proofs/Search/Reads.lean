import CursorRegex.Proofs.Search.Sessions

/-! # What a search reads

A search reads a text at positions below its extent only.  To say so, the rest of the text is made
unreadable: reading there is a fault (`Text.restrict`).  Whether it is or not makes no difference to what a
position leads to (`Scan.ahead_withText`) and to what atoms make of it (`Cursor.verdict_withText`), so it
makes none to a step, a run of threads, a visit, a lap and a search (`Matcher.answer_of_agreesBelow`).

No fault is raised by other references either, whatever the matcher was used for before, so each search
ends (`Matcher.answer_reads_below`). -/
set_option autoImplicit false

namespace CursorRegex

namespace Text

/-- The text, as long as before, of which no characters but the first `n` can be read. -/
def restrict (n : Nat) (text : Text) : Text :=
  ⟨text.length, fun pos => if pos < n then text.charAt? pos else none⟩

structure AgreesBelow (n : Nat) (text text' : Text) : Prop where
  length : text'.length = text.length
  charAt? : ∀ pos, pos < n → text'.charAt? pos = text.charAt? pos

variable {n pos : Nat} {text text' : Text}

theorem agreesBelow_restrict (n : Nat) (text : Text) : text.AgreesBelow n (text.restrict n) :=
  ⟨rfl, fun _ low => if_pos low⟩

theorem charAt_restrict (high : n ≤ pos) :
    (text.restrict n).charAt pos = .error (.noCharacter pos) := by
  simp [charAt, restrict, Nat.not_lt.mpr high]

theorem AgreesBelow.charAt (agree : text.AgreesBelow n text') (low : pos < n) :
    text'.charAt pos = text.charAt pos := by
  rw [Text.charAt, Text.charAt, agree.charAt? pos low]

end Text

variable {n limit ran left : Nat} {text' : Text}

/-! ## At one position -/

def Cursor.withText (text : Text) (c : Cursor) : Cursor := { c with text := text }

structure Cursor.Shares (text' : Text) (n : Nat) (c : Cursor) : Prop where
  agree : c.text.AgreesBelow n text'
  pos_le : c.pos ≤ n
  whole : c.dir = .backward → c.text.length ≤ n

theorem Cursor.verdict_withText {c : Cursor} (shares : c.Shares text' n) (classes : ClassTable) (x : Atom) :
    (c.withText text').verdict classes x = c.verdict classes x := by
  have before : c.pos ≠ 0 → (c.withText text').before = c.before := by
    intro ne
    have low : c.pos - 1 < n := Nat.lt_of_lt_of_le (Nat.pred_lt ne) shares.pos_le
    unfold Cursor.before
    cases dir : c.dir with
    | forward => simp [withText, dir, shares.agree.charAt low]
    | backward => simp [withText, dir]
  have after : (c.withText text').after = c.after := by
    unfold Cursor.after
    cases dir : c.dir with
    | forward => simp [withText, dir]
    | backward =>
      by_cases inside : c.pos < c.text.length
      · have low : c.pos < n := Nat.lt_of_lt_of_le inside (shares.whole dir)
        simp [withText, dir, shares.agree.length, shares.agree.charAt low]
      · simp [withText, dir, shares.agree.length, inside]
  cases x with
  | lineStart =>
    simp only [verdict, atLineStart]
    by_cases start : c.pos = 0
    · simp [withText, start]
    · rw [before start]
      rfl
  | lineEnd =>
    simp only [verdict, atLineEnd]
    rw [after]
  | char | any | set => rfl

namespace Board

variable {p : Program} {c : Cursor}

theorem hop_withText (shares : c.Shares text' n) (t : Thread) (b : Board limit) :
    b.hop p (c.withText text') ran t = b.hop p c ran t := by
  unfold hop
  simp only [Cursor.verdict_withText shares]
  rfl

theorem drive_withText (shares : c.Shares text' n) (fuel : Nat) (t : Thread) (b : Board limit) :
    b.drive p (c.withText text') ran fuel t = b.drive p c ran fuel t := by
  induction fuel generalizing t b with
  | zero => rfl
  | succ fuel ih =>
    rw [drive, drive, hop_withText shares]
    simp only [ih]

theorem runFrom_withText (shares : c.Shares text' n) (i : Nat) (b : Board limit) :
    b.runFrom p (c.withText text') i = b.runFrom p c i := by
  induction hn : limit - i using Nat.strongRecOn generalizing b i with
  | ind n ih =>
    subst hn
    rw [runFrom, runFrom]
    by_cases more : i < b.current.threads.size
    · have room := b.current.size_le
      rw [dif_pos more, dif_pos more, drive_withText shares]
      cases b.drive p c (i + 1) p.arena.size b.current.threads[i] with
      | error halt => rfl
      | ok after => exact ih (limit - (i + 1)) (by omega) (i + 1) after rfl
    · rw [dif_neg more, dif_neg more]

end Board

/-! ## A whole search -/

namespace Scan

variable {s : Scan} {admits : Nat → Bool}

def withText (text : Text) (s : Scan) : Scan := { s with text := text }

structure Shares (text' : Text) (s : Scan) : Prop where
  agree : s.text.AgreesBelow s.extent text'
  whole : s.dir = .backward → s.text.length ≤ s.extent

theorem ahead_withText (shares : s.Shares text') (bound : left ≤ s.extent) :
    (s.withText text').ahead left = s.ahead left := by
  obtain ⟨program, text, dir, extent, entry, first⟩ := s
  cases left with
  | zero => rfl
  | succ left =>
    cases dir with
    | forward =>
      have low : extent - (left + 1) < extent := Nat.sub_lt_self (Nat.succ_pos left) bound
      exact congrArg (·.map some) (shares.agree.charAt low)
    | backward => exact congrArg (·.map some) (shares.agree.charAt bound)

theorem visit_withText (shares : s.Shares text') (bound : left ≤ s.extent) (b : Board limit) :
    (s.withText text').visit admits left b = s.visit admits left b := by
  have position : s.pos left ≤ s.extent := by
    unfold pos
    split <;> omega
  have runs : ∀ (ahead : Option Char) (b : Board limit),
      b.runFrom s.program ⟨text', s.dir, s.pos left, ahead⟩ 0 =
        b.runFrom s.program ⟨s.text, s.dir, s.pos left, ahead⟩ 0 := by
    intro ahead b
    have here : (Cursor.mk s.text s.dir (s.pos left) ahead).Shares text' s.extent :=
      ⟨shares.agree, position, shares.whole⟩
    exact Board.runFrom_withText here 0 b
  unfold visit
  rw [ahead_withText shares bound]
  simp only [← runs]
  rfl

theorem lap_withText (shares : s.Shares text') (bound : left ≤ s.extent) (b : Board limit) :
    (s.withText text').lap admits left b = s.lap admits left b := by
  induction left generalizing b with
  | zero => exact visit_withText shares bound b
  | succ left ih =>
    rw [lap, lap, visit_withText shares bound]
    simp only [ih (Nat.le_of_succ_le bound)]
    rfl

theorem run_withText {start : Nat} (shares : s.Shares text') (within : s.leftAt start ≤ s.extent)
    (bounded : Bool) (b : Board limit) :
    (s.withText text').run start bounded b = s.run start bounded b := by
  have first : (s.withText text').lap (fun _ => true) ((s.withText text').leftAt start) b =
      s.lap (fun _ => true) (s.leftAt start) b := lap_withText shares within b
  have second : ∀ b : Board limit, (s.withText text').lap ((s.withText text').dir.prefers · start)
      (s.withText text').extent b = s.lap (s.dir.prefers · start) s.extent b :=
    fun b => lap_withText shares (Nat.le_refl _) b
  rw [run, run, first]
  simp only [second]
  rfl

end Scan

namespace Matcher

variable {r : Regex} {text : Text} {query : Query} {limits : Limits} {pattern : String}

/-- The characters of a text beyond the extent of a search make no difference to it. -/
theorem answer_of_agreesBelow (m : Matcher r) (agree : text.AgreesBelow (query.extent text) text') :
    m.answer text' query = m.answer text query := by
  have extent : query.extent text' = query.extent text := by
    cases query with
    | forward start stop => cases stop <;> simp [Query.extent, agree.length]
    | backward start => exact agree.length
  have start : query.start text' = query.start text := by
    cases query with
    | forward start stop => simp only [Query.start, extent]
    | backward start => simp only [Query.start, agree.length]
  obtain ⟨current, next⟩ := m
  rw [answer_eq, answer_eq, extent, start, search, search]
  refine bind_congr fun first => ?_
  have shares : (Scan.mk r.program text query.dir (query.extent text) (r.program.entry query.dir)
      first).Shares text' :=
    ⟨agree, fun is => Nat.le_of_eq (query.extent_of_backward text is).symm⟩
  have within := Scan.leftAt_le (s := Scan.mk r.program text query.dir (query.extent text)
    (r.program.entry query.dir) first) (query.start_le text)
  exact congrArg (· >>= _) (Scan.run_withText shares within _ _)

/-- Whatever a matcher was used for, a search with it ends without a fault, and reads no character from its
extent on: it ends the same where reading one is a fault. -/
theorem answer_reads_below (compiled : Regex.compileWith limits pattern = .ok r)
    (earlier : List (Text × Query)) (full : ∀ s ∈ (text, query) :: earlier, s.1.Full) :
    ∃ reports m report m', (Matcher.new r).answerAll earlier = .ok (reports, m) ∧
      m.answer text query = .ok (report, m') ∧
      query.extent text ≤ text.length ∧
      (∀ pos, query.extent text ≤ pos →
        (text.restrict (query.extent text)).charAt pos = .error (.noCharacter pos)) ∧
      m.answer (text.restrict (query.extent text)) query = .ok (report, m') := by
  obtain ⟨classes, tree, -, -, realizes⟩ := Regex.compileWith_eq_ok compiled
  have full_text : text.Full := full (text, query) List.mem_cons_self
  have full_earlier : ∀ s ∈ earlier, s.1.Full := fun s member => full s (List.mem_cons_of_mem _ member)
  obtain ⟨reports, m, session, sound, -⟩ := sound_new.exists_answerAll realizes full_earlier
  obtain ⟨report, m', answered, -⟩ := sound.exists_answer realizes full_text query
  refine ⟨reports, m, report, m', session, answered, query.extent_le text, ?_, ?_⟩
  · exact fun pos high => Text.charAt_restrict high
  · rw [m.answer_of_agreesBelow (text.agreesBelow_restrict _), answered]

/-- A search whose extent ends before a newline does not find that a line ends there, and the one before it
was abandoned at a full list. -/
theorem answer_reads_below_newline : ∃ r m m', ∃ text text' : Text,
    text = .ofArray #['x', '\n'] ∧ text' = .ofArray #['a', 'b', 'c'] ∧
    Regex.compileWith { threads := 4 } "x$|(a|ab)c" = .ok r ∧
    (∀ s ∈ [(text, Query.forward 0 (some 1)), (text', .forward 0 none)], s.1.Full) ∧
    (Matcher.new r).answerAll [(text', .forward 0 none)] = .ok ([⟨none, [.listOverflow]⟩], m) ∧
    m.answer text (.forward 0 (some 1)) = .ok (⟨none, []⟩, m') ∧
    (text.restrict 1).charAt 1 = .error (.noCharacter 1) ∧
    m.answer (text.restrict 1) (.forward 0 (some 1)) = .ok (⟨none, []⟩, m') := by
  have ran : (Regex.compileWith { threads := 4 } "x$|(a|ab)c").map (fun r =>
      (r.answer (.ofArray #['a', 'b', 'c']) (.forward 0 none),
        r.answer (.ofArray #['x', '\n']) (.forward 0 (some 1)))) =
      .ok (.ok ⟨none, [.listOverflow]⟩, .ok ⟨none, []⟩) := by
    decide +kernel
  obtain ⟨r, compiled, ran⟩ := map_eq_ok.mp ran
  simp only [Prod.mk.injEq] at ran
  have full : ∀ s ∈ [(Text.ofArray #['x', '\n'], Query.forward 0 (some 1)),
      (.ofArray #['a', 'b', 'c'], .forward 0 none)], s.1.Full := by
    simp [Text.full_ofArray]
  obtain ⟨reports, m, report, m', session, answered, -, faults, restricted⟩ :=
    answer_reads_below compiled [(Text.ofArray #['a', 'b', 'c'], .forward 0 none)] full
  have told : reports = [⟨none, [.listOverflow]⟩] ∧ report = ⟨none, []⟩ := by
    obtain ⟨classes, tree, -, -, realizes⟩ := Regex.compileWith_eq_ok compiled
    have full_earlier : ∀ s ∈ [(Text.ofArray #['a', 'b', 'c'], Query.forward 0 none)], s.1.Full :=
      fun s member => full s (List.mem_cons_of_mem _ member)
    obtain ⟨_, _, session', sound, alone⟩ := sound_new.exists_answerAll realizes full_earlier
    rw [session] at session'
    cases session'
    simp only [List.forall₂_cons_left_iff, List.forall₂_nil_left_iff, ran.1, Except.ok.injEq] at alone
    obtain ⟨_, _, rfl, rfl, rfl⟩ := alone
    have later := ran.2
    rw [sound.answer_eq] at answered
    rw [Regex.answer, answered] at later
    cases later
    exact ⟨rfl, rfl⟩
  obtain ⟨rfl, rfl⟩ := told
  have extent : (Query.forward 0 (some 1)).extent (.ofArray #['x', '\n']) = 1 := rfl
  rw [extent] at faults restricted
  exact ⟨r, m, m', _, _, rfl, rfl, compiled, full, session, answered, faults 1 (Nat.le_refl 1), restricted⟩

end Matcher

end CursorRegex
