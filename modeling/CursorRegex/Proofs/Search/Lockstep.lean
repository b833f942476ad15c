import Mathlib.Data.List.Forall2
import CursorRegex.Proofs.Search.Roster

/-! # Two runs side by side

A link relates the threads of two runs: what it relates takes the same decisions about places in the
lists.  Related rosters stay related when related acts are done to them (`Link.Rosters.perform`), so two
boards stay in step while their threads run (`Link.agree_drive`, `Link.agree_runFrom`).  Each side may have
threads of its own besides, at instructions that idle; only what is left of a roster without them has to be
related.

A side that has no such threads, and no less room than the other, has room whenever the other has. -/
set_option autoImplicit false

namespace CursorRegex

/-- If both computations end, what they end with is related, and where one ends, the other finds its list
full only if it has less room. -/
def Agree {σ τ α β : Type} (roomy roomy' : Prop) (related : α → β → Prop) :
    Except (Halt σ) α → Except (Halt τ) β → Prop
  | .ok a, .ok b => related a b
  | .ok _, .error (.overflow _) => ¬ roomy'
  | .error (.overflow _), .ok _ => ¬ roomy
  | _, _ => True

namespace Agree

variable {σ τ α β α' β' : Type} {roomy roomy' : Prop} {related : α → β → Prop}
  {related' : α' → β' → Prop} {x : Except (Halt σ) α} {y : Except (Halt τ) β}

theorem fault_left (cause : Fault) (y : Except (Halt τ) β) :
    Agree roomy roomy' related (.error (.fault cause) : Except (Halt σ) α) y := by
  cases y <;> trivial

theorem fault_right (x : Except (Halt σ) α) (cause : Fault) :
    Agree roomy roomy' related x (.error (.fault cause) : Except (Halt τ) β) := by
  match x with
  | .ok _ => trivial
  | .error (.overflow _) => trivial
  | .error (.fault _) => trivial

theorem overflow_left (cramped : ¬ roomy) (left : σ) (y : Except (Halt τ) β) :
    Agree roomy roomy' related (.error (.overflow left) : Except (Halt σ) α) y := by
  match y with
  | .ok _ => exact cramped
  | .error _ => trivial

theorem overflow_right (cramped : ¬ roomy') (x : Except (Halt σ) α) (left : τ) :
    Agree roomy roomy' related x (.error (.overflow left) : Except (Halt τ) β) := by
  match x with
  | .ok _ => exact cramped
  | .error (.overflow _) => trivial
  | .error (.fault _) => trivial

theorem bind {f : α → Except (Halt σ) α'} {g : β → Except (Halt τ) β'}
    (h : Agree roomy roomy' related x y)
    (next : ∀ a b, related a b → Agree roomy roomy' related' (f a) (g b)) :
    Agree roomy roomy' related' (x >>= f) (y >>= g) := by
  match x, y, h with
  | .ok a, .ok b, h => exact next a b h
  | .ok a, .error (.overflow left), h => exact overflow_right h (f a) left
  | .ok a, .error (.fault cause), _ => exact fault_right (f a) cause
  | .error (.overflow left), .ok b, h => exact overflow_left h left (g b)
  | .error (.overflow _), .error _, _ => trivial
  | .error (.fault cause), y, _ => exact fault_left cause (y >>= g)

theorem map {f : α → α'} {g : β → β'} (h : Agree roomy roomy' related x y)
    (next : ∀ a b, related a b → related' (f a) (g b)) :
    Agree roomy roomy' related' (x.map f) (y.map g) := by
  match x, y, h with
  | .ok a, .ok b, h => exact next a b h
  | .ok _, .error (.overflow _), h => exact h
  | .ok _, .error (.fault _), _ => trivial
  | .error (.overflow _), .ok _, h => exact h
  | .error (.overflow _), .error _, _ => trivial
  | .error (.fault _), .ok _, _ | .error (.fault _), .error _, _ => trivial

theorem bind_left {f : α → Except (Halt σ) α'} {y : Except (Halt τ) β'} (cramped : ¬ roomy)
    (next : ∀ a, x = .ok a → Agree roomy roomy' related' (f a) y) :
    Agree roomy roomy' related' (x >>= f) y := by
  match x, next with
  | .ok a, next => exact next a rfl
  | .error (.overflow left), _ => exact overflow_left cramped left y
  | .error (.fault cause), _ => exact fault_left cause y

theorem bind_right {x : Except (Halt σ) α'} {g : β → Except (Halt τ) β'} (cramped : ¬ roomy')
    (next : ∀ b, y = .ok b → Agree roomy roomy' related' x (g b)) :
    Agree roomy roomy' related' x (y >>= g) := by
  match y, next with
  | .ok b, next => exact next b rfl
  | .error (.overflow left), _ => exact overflow_right cramped x left
  | .error (.fault cause), _ => exact fault_right x cause

theorem ok_ok {a : α} {b : β} (h : Agree roomy roomy' related x y) (hx : x = .ok a) (hy : y = .ok b) :
    related a b := by
  subst hx hy
  exact h

end Agree

/-! ## Links -/

/-- Which instructions, places of origin, marks and matches correspond in searches for two directions.
Two threads for one instruction correspond to two for one, and preference is the same. -/
structure Link (dir dir' : Direction) where
  inst : Nat → Nat → Prop
  seed : Nat → Nat → Prop
  marks : Marks → Marks → Prop
  captures : Captures → Captures → Prop
  inst_iff : ∀ {i i' j j'}, inst i i' → inst j j' → (i = j ↔ i' = j')
  prefers_eq : ∀ {a a' b b'}, seed a a' → seed b b' → dir.prefers a b = dir'.prefers a' b'
  better_eq : ∀ {m m' n n'}, captures m m' → captures n n' → m.better dir n = m'.better dir' n'

namespace Link

variable {dir dir' : Direction} (link : Link dir dir')

def refl (dir : Direction) : Link dir dir where
  inst := Eq
  seed := Eq
  marks := Eq
  captures := Eq
  inst_iff := by rintro _ _ _ _ rfl rfl; exact Iff.rfl
  prefers_eq := by rintro _ _ _ _ rfl rfl; rfl
  better_eq := by rintro _ _ _ _ rfl rfl; rfl

structure Threads (t t' : Thread) : Prop where
  inst : link.inst t.inst t'.inst
  seed : link.seed t.seed t'.seed
  marks : link.marks t.marks t'.marks

inductive Acts : Act → Act → Prop where
  | stop : Acts .stop .stop
  | move {t t' : Thread} (threads : link.Threads t t') : Acts (.move t) (.move t')
  | take {t t' : Thread} (threads : link.Threads t t') : Acts (.take t) (.take t')
  | fork {later later' t t' : Thread} (branch : link.Threads later later')
      (threads : link.Threads t t') : Acts (.fork later t) (.fork later' t')
  | win {m m' : Captures} (captures : link.captures m m') : Acts (.win m) (.win m')

structure Rosters (r r' : Roster) : Prop where
  done : List.Forall₂ link.Threads r.done r'.done
  todo : List.Forall₂ link.Threads r.todo r'.todo
  next : List.Forall₂ link.Threads r.next r'.next
  best : Option.Rel link.captures r.best r'.best

variable {link}

/-! ## Adding to related lists -/

section Lists

variable {t t' : Thread} {ts ts' done done' todo todo' : List Thread}

theorem rel_getLast? (h : List.Forall₂ link.Threads ts ts') :
    Option.Rel link.Threads ts.getLast? ts'.getLast? := by
  have reversed := List.rel_reverse h
  rw [← List.head?_reverse, ← List.head?_reverse]
  generalize ts.reverse = us at reversed ⊢
  generalize ts'.reverse = us' at reversed ⊢
  cases reversed with
  | nil => exact .none
  | cons head _ => exact .some head

theorem forall₂_filter {p q : Thread → Bool} (h : List.Forall₂ link.Threads ts ts')
    (same : ∀ t t', link.Threads t t' → p t = q t') :
    List.Forall₂ link.Threads (ts.filter p) (ts'.filter q) :=
  List.rel_filter (fun t t' threads => Bool.eq_iff_iff.mp (same t t' threads)) h

theorem rel_latest {i i' : Nat} (h : List.Forall₂ link.Threads ts ts') (inst : link.inst i i') :
    Option.Rel link.Threads (Thread.latest i ts) (Thread.latest i' ts') := by
  refine rel_getLast? (forall₂_filter h fun t t' threads => ?_)
  rw [decide_eq_decide]
  exact link.inst_iff threads.inst inst

theorem forall₂_supplant (threads : link.Threads t t') (h : List.Forall₂ link.Threads todo todo') :
    List.Forall₂ link.Threads (todo.map t.supplant) (todo'.map t'.supplant) := by
  rw [List.forall₂_map_left_iff, List.forall₂_map_right_iff]
  refine h.imp fun u u' threads' => ?_
  unfold Thread.supplant
  by_cases here : u.inst = t.inst
  · rw [if_pos here, if_pos ((link.inst_iff threads'.inst threads.inst).mp here)]
    exact threads
  · rw [if_neg here, if_neg (mt (link.inst_iff threads'.inst threads.inst).mpr here)]
    exact threads'

theorem exists_mem_iff (threads : link.Threads t t') (h : List.Forall₂ link.Threads todo todo') :
    (∃ u ∈ todo, u.inst = t.inst) ↔ ∃ u ∈ todo', u.inst = t'.inst := by
  induction h with
  | nil => simp
  | cons head _ ih => simp only [List.exists_mem_cons_iff, ih, link.inst_iff head.inst threads.inst]

theorem forall₂_enqueue (threads : link.Threads t t') (ran : List.Forall₂ link.Threads done done')
    (waits : List.Forall₂ link.Threads todo todo') :
    List.Forall₂ link.Threads (t.enqueue dir done todo) (t'.enqueue dir' done' todo') := by
  have at_end : List.Forall₂ link.Threads (todo ++ [t]) (todo' ++ [t']) :=
    List.rel_append waits (.cons threads .nil)
  have latest := rel_latest (List.rel_append ran waits) threads.inst
  unfold Thread.enqueue
  generalize Thread.latest t.inst (done ++ todo) = o at latest
  generalize Thread.latest t'.inst (done' ++ todo') = o' at latest
  cases latest with
  | none => exact at_end
  | some old =>
    simp only [link.prefers_eq threads.seed old.seed, exists_mem_iff threads waits]
    split
    · split
      · exact forall₂_supplant threads waits
      · exact at_end
    · exact waits

end Lists

/-! ## Related rosters -/

section Rosters

variable {r r' : Roster} {a a' : Act} {k k' : Sieve} {limit limit' : Nat}

theorem rel_offer {m m' : Captures} {o o' : Option Captures} (captures : link.captures m m')
    (best : Option.Rel link.captures o o') :
    Option.Rel link.captures (Roster.offer dir m o) (Roster.offer dir' m' o') := by
  cases best with
  | none => exact .some captures
  | some old =>
    simp only [Roster.offer, Option.all_some, link.better_eq captures old]
    split
    · exact .some captures
    · exact .some old

theorem Rosters.perform (h : link.Rosters r r') (acts : link.Acts a a') :
    link.Rosters (r.perform dir a) (r'.perform dir' a') := by
  cases acts with
  | stop | move => exact h
  | take threads => exact { h with next := forall₂_enqueue threads .nil h.next }
  | fork branch _ => exact { h with todo := forall₂_enqueue branch h.done h.todo }
  | win captures => exact { h with best := rel_offer captures h.best }

/-- One side leaves nothing out, and has no less room than the other. -/
def Roomy (limit : Nat) (k : Sieve) (other : Nat) : Prop := other ≤ limit ∧ k = .all

theorem fits_of_roomy (roomy : Roomy limit' k' limit) (fits : r.Fits limit)
    (done : (r.only k).done.length = (r'.only k').done.length)
    (todo : (r.only k).todo.length = (r'.only k').todo.length)
    (next : (r.only k).next.length = (r'.only k').next.length) : r'.Fits limit' := by
  obtain ⟨le, rfl⟩ := roomy
  obtain ⟨room, room_next⟩ := fits
  have done_le : (r.only k).done.length ≤ r.done.length := List.length_filter_le _ _
  have todo_le : (r.only k).todo.length ≤ r.todo.length := List.length_filter_le _ _
  have next_le : (r.only k).next.length ≤ r.next.length := List.length_filter_le _ _
  rw [Roster.only_all] at done todo next
  constructor <;> omega

theorem Rosters.fits_right (h : link.Rosters (r.only k) (r'.only k')) (roomy : Roomy limit' k' limit)
    (fits : r.Fits limit) : r'.Fits limit' :=
  fits_of_roomy roomy fits h.done.length_eq h.todo.length_eq h.next.length_eq

theorem Rosters.fits_left (h : link.Rosters (r.only k) (r'.only k')) (roomy : Roomy limit k limit')
    (fits : r'.Fits limit') : r.Fits limit :=
  fits_of_roomy roomy fits h.done.length_eq.symm h.todo.length_eq.symm h.next.length_eq.symm

end Rosters

/-! ## Running side by side -/

/-- Two boards whose threads that count are related. -/
structure Boards {limit limit' : Nat} (link : Link dir dir') (k k' : Sieve)
    (size size' ran ran' : Nat) (b : Board limit) (b' : Board limit') : Prop where
  exact : b.Exact size ran
  exact' : b'.Exact size' ran'
  rosters : link.Rosters ((b.roster ran).only k) ((b'.roster ran').only k')

section Running

variable {limit limit' : Nat} {p p' : Program} {c c' : Cursor} {link : Link c.dir c'.dir}
  {k k' : Sieve} {t t' : Thread} {a a' : Act} {ran ran' : Nat}
  {b : Board limit} {b' : Board limit'} {roomy : Prop}

variable (c c' link) in
/-- Two positions at which related threads that count do related acts. -/
structure Aligns (p p' : Program) (k k' : Sieve) : Prop where
  left : Separates p c k
  right : Separates p' c' k'
  here_eq : ∀ {i i'}, link.inst i i' → k.here i = k'.here i'
  ahead_eq : ∀ {i i'}, link.inst i i' → k.ahead i = k'.ahead i'
  acts : ∀ {t t' : Thread} {a a' : Act}, link.Threads t t' → k.here t.inst = true →
    t.Does p c a → t'.Does p' c' a' → link.Acts a a'

theorem Aligns.skim (aligns : link.Aligns c c' p p' k k') (acts : link.Acts a a') :
    link.Acts (Roster.skim k a) (Roster.skim k' a') := by
  cases acts with
  | stop => exact .stop
  | move threads => exact .move threads
  | win captures => exact .win captures
  | take threads =>
    simp only [Roster.skim, aligns.ahead_eq threads.inst]
    split
    · exact .take threads
    · exact .stop
  | fork branch threads =>
    simp only [Roster.skim, aligns.here_eq branch.inst]
    split
    · exact .fork branch threads
    · exact .move threads

theorem Acts.thread {link : Link c.dir c'.dir} (acts : link.Acts a a') :
    Option.Rel link.Threads a.thread a'.thread := by
  cases acts with
  | stop | take | win => exact .none
  | move threads | fork _ threads => exact .some threads

theorem Aligns.agree_perform (aligns : link.Aligns c c' p p' k k')
    (boards : link.Boards k k' p.arena.size p'.arena.size ran ran' b b')
    (acts : link.Acts a a') (within : a.Within p.arena.size) (within' : a'.Within p'.arena.size) :
    Agree (Roomy limit k limit') (Roomy limit' k' limit)
      (fun x x' => x.1 = a.thread ∧ x'.1 = a'.thread ∧
        link.Boards k k' p.arena.size p'.arena.size ran ran' x.2 x'.2)
      (a.perform c.dir ran b) (a'.perform c'.dir ran' b') := by
  have performed := Board.performed c.dir boards.exact within
  have performed' := Board.performed c'.dir boards.exact' within'
  have rosters := boards.rosters.perform (aligns.skim acts)
  rw [← Roster.only_perform, ← Roster.only_perform] at rosters
  generalize a.perform c.dir ran b = x at performed
  generalize a'.perform c'.dir ran' b' = x' at performed'
  cases performed with
  | full full =>
    cases performed' with
    | @room b₁' exact' roster' =>
      rw [← roster'] at rosters
      exact fun roomy => full (rosters.fits_left roomy (Board.fits_roster ran' b₁'))
    | full => trivial
  | @room b₁ exact roster =>
    rw [← roster] at rosters
    cases performed' with
    | room exact' roster' => exact ⟨rfl, rfl, exact, exact', roster' ▸ rosters⟩
    | full full => exact fun roomy => full (rosters.fits_right roomy (Board.fits_roster ran b₁))

theorem not_roomy {i other : Nat} (left_out : k.here i = false) : ¬ Roomy limit k other := by
  rintro ⟨-, rfl⟩
  cases left_out

theorem Aligns.agree_idle {fuel fuel' : Nat} (aligns : link.Aligns c c' p p' k k')
    (boards : link.Boards k k' p.arena.size p'.arena.size ran ran' b b')
    (within : t.inst < p.arena.size) (within' : t'.inst < p'.arena.size)
    (left_out : k.here t.inst = false) (left_out' : k'.here t'.inst = false) :
    Agree (Roomy limit k limit') (Roomy limit' k' limit)
      (link.Boards k k' p.arena.size p'.arena.size ran ran')
      (b.drive p c ran fuel t) (b'.drive p' c' ran' fuel' t') := by
  match driven : b.drive p c ran fuel t, driven' : b'.drive p' c' ran' fuel' t' with
  | .ok b₁, .ok b₁' =>
    obtain ⟨exact, same⟩ := aligns.left.only_drive boards.exact within left_out driven
    obtain ⟨exact', same'⟩ := aligns.right.only_drive boards.exact' within' left_out' driven'
    exact ⟨exact, exact', same ▸ same' ▸ boards.rosters⟩
  | x, .error (.overflow left) => exact .overflow_right (not_roomy left_out') x left
  | .error (.overflow left), x' => exact .overflow_left (not_roomy left_out) left x'
  | x, .error (.fault cause) => exact .fault_right x cause
  | .error (.fault cause), x' => exact .fault_left cause x'

theorem Aligns.agree_drive {fuel fuel' : Nat} (aligns : link.Aligns c c' p p' k k')
    (boards : link.Boards k k' p.arena.size p'.arena.size ran ran' b b')
    (threads : link.Threads t t') (counts : k.here t.inst = true) (within : t.inst < p.arena.size)
    (within' : t'.inst < p'.arena.size) :
    Agree (Roomy limit k limit') (Roomy limit' k' limit)
      (link.Boards k k' p.arena.size p'.arena.size ran ran')
      (b.drive p c ran fuel t) (b'.drive p' c' ran' fuel' t') := by
  induction fuel generalizing fuel' t t' b b' with
  | zero => exact .fault_left _ _
  | succ fuel ih =>
    cases fuel' with
    | zero => exact .fault_right _ _
    | succ fuel' =>
      obtain ⟨a, does⟩ := Thread.exists_does aligns.left.closed aligns.left.judges within
      obtain ⟨a', does'⟩ := Thread.exists_does aligns.right.closed aligns.right.judges within'
      have acts := aligns.acts threads counts does does'
      have bounds := does.within aligns.left.closed
      have bounds' := does'.within aligns.right.closed
      rw [Board.drive, Board.drive, does.hop_eq, does'.hop_eq]
      refine (aligns.agree_perform boards acts bounds bounds').bind ?_
      rintro ⟨o, b₁⟩ ⟨o', b₁'⟩ ⟨rfl, rfl, boards₁⟩
      have goes := acts.thread
      have inside := fun t₁ => bounds.thread (t := t₁)
      have inside' := fun t₁ => bounds'.thread (t := t₁)
      generalize a.thread = o at goes inside
      generalize a'.thread = o' at goes inside'
      cases goes with
      | none => exact boards₁
      | @some t₁ t₁' threads₁ =>
        cases counts₁ : k.here t₁.inst with
        | true => exact ih boards₁ threads₁ counts₁ (inside t₁ rfl) (inside' t₁' rfl)
        | false =>
          have counts₁' := aligns.here_eq threads₁.inst ▸ counts₁
          exact aligns.agree_idle boards₁ (inside t₁ rfl) (inside' t₁' rfl) counts₁ counts₁'

/-- The first threads that are still to run have run next, and are related if they count. -/
theorem Boards.run_first {rest rest' : List Thread}
    (boards : link.Boards k k' p.arena.size p'.arena.size ran ran' b b')
    (first : b.current.todo ran = t :: rest) (first' : b'.current.todo ran' = t' :: rest')
    (counts : k.here t.inst = true) (counts' : k'.here t'.inst = true) :
    link.Threads t t' ∧
      link.Boards k k' p.arena.size p'.arena.size (ran + 1) (ran' + 1) b b' := by
  obtain ⟨exact, roster⟩ := boards.exact.run_first first
  obtain ⟨exact', roster'⟩ := boards.exact'.run_first first'
  have todo := boards.rosters.todo
  simp only [Roster.only, Board.roster, first, first', Thread.kept, List.filter_cons, counts, counts',
    if_true] at todo
  obtain ⟨threads, todo⟩ := List.forall₂_cons.mp todo
  refine ⟨threads, exact, exact', ?_⟩
  rw [roster, roster']
  refine { boards.rosters with done := ?_, todo := todo }
  simp only [Roster.only, Thread.kept_append, Thread.kept_singleton, counts, counts', if_true]
  exact List.rel_append boards.rosters.done (.cons threads .nil)

theorem Aligns.agree_runFrom {i i' : Nat} (aligns : link.Aligns c c' p p' k k')
    (boards : link.Boards k k' p.arena.size p'.arena.size i i' b b') :
    Agree (Roomy limit k limit') (Roomy limit' k' limit)
      (fun b b' => ∃ j j', link.Boards k k' p.arena.size p'.arena.size j j' b b')
      (b.runFrom p c i) (b'.runFrom p' c' i') := by
  induction hn : (limit - i) + (limit' - i') using Nat.strongRecOn generalizing i i' b b' with
  | ind n ih =>
    subst hn
    have right_alone : ∀ {t' rest'}, b'.current.todo i' = t' :: rest' → k'.here t'.inst = false →
        Agree (Roomy limit k limit') (Roomy limit' k' limit) (fun b b' => ∃ j j',
          link.Boards k k' p.arena.size p'.arena.size j j' b b')
          (b.runFrom p c i) (b'.runFrom p' c' i') := by
      intro t' rest' first' left_out'
      obtain ⟨within', room'⟩ := boards.exact'.first_within first'
      obtain ⟨exact', -⟩ := boards.exact'.run_first first'
      rw [Board.runFrom_of_cons first']
      refine .bind_right (not_roomy left_out') fun b₁' driven' => ?_
      obtain ⟨exact₁', same'⟩ := aligns.right.only_drive exact' within' left_out' driven'
      rw [Board.only_run_first boards.exact' first' left_out'] at same'
      exact ih _ (by omega) ⟨boards.exact, exact₁', same' ▸ boards.rosters⟩ rfl
    have todo := boards.rosters.todo
    simp only [Roster.only, Board.roster, Thread.kept] at todo
    cases first : b.current.todo i with
    | cons t rest =>
      obtain ⟨within, room⟩ := boards.exact.first_within first
      cases counts : k.here t.inst with
      | false =>
        obtain ⟨exact, -⟩ := boards.exact.run_first first
        rw [Board.runFrom_of_cons first]
        refine .bind_left (not_roomy counts) fun b₁ driven => ?_
        obtain ⟨exact₁, same⟩ := aligns.left.only_drive exact within counts driven
        rw [Board.only_run_first boards.exact first counts] at same
        exact ih _ (by omega) ⟨exact₁, boards.exact', same ▸ boards.rosters⟩ rfl
      | true =>
        cases first' : b'.current.todo i' with
        | nil =>
          simp only [first, first', List.filter_cons, counts, if_true, List.filter_nil] at todo
          cases todo
        | cons t' rest' =>
          cases counts' : k'.here t'.inst with
          | false => exact right_alone first' counts'
          | true =>
            obtain ⟨within', room'⟩ := boards.exact'.first_within first'
            obtain ⟨threads, boards₁⟩ := boards.run_first first first' counts counts'
            rw [Board.runFrom_of_cons first, Board.runFrom_of_cons first']
            refine (aligns.agree_drive boards₁ threads counts within within').bind ?_
            exact fun b₁ b₁' boards₂ => ih _ (by omega) boards₂ rfl
    | nil =>
      cases first' : b'.current.todo i' with
      | nil =>
        rw [Board.runFrom_of_nil first, Board.runFrom_of_nil first']
        exact ⟨i, i', boards⟩
      | cons t' rest' =>
        cases counts' : k'.here t'.inst with
        | false => exact right_alone first' counts'
        | true =>
          simp only [first, first', List.filter_cons, counts', if_true, List.filter_nil] at todo
          cases todo

end Running

end Link

end CursorRegex
