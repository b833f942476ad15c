import CursorRegex.Proofs.Search.Answer

/-! # From queries to scans

A query is answered by one run of a scan: in its direction, over the part of the text up to its extent,
from a start inside that part (`Regex.exists_run`). -/
set_option autoImplicit false

namespace CursorRegex

namespace Query

def dir : Query → Direction
  | .forward _ _ => .forward
  | .backward _ => .backward

def extent (text : Text) : Query → Nat
  | .forward _ none => text.length
  | .forward _ (some stop) => min stop text.length
  | .backward _ => text.length

def start (text : Text) : Query → Nat
  | .forward start stop => min start ((forward start stop).extent text)
  | .backward start => min start text.length

def bounded : Query → Bool
  | .forward _ stop => stop.isSome
  | .backward _ => false

variable (text : Text) (query : Query)

theorem extent_le : query.extent text ≤ text.length := by
  unfold extent
  split
  · exact Nat.le_refl _
  · exact Nat.min_le_right _ _
  · exact Nat.le_refl _

theorem start_le : query.start text ≤ query.extent text := by
  cases query with
  | forward start stop => exact Nat.min_le_right _ _
  | backward start => exact Nat.min_le_right _ _

theorem extent_of_backward (is : query.dir = .backward) : query.extent text = text.length := by
  cases query with
  | forward start stop => cases is
  | backward start => rfl

end Query

variable {r : Regex} {text : Text} {query : Query}

theorem Matcher.answer_eq (m : Matcher r) (text : Text) (query : Query) :
    m.answer text query =
      m.search query.dir text (query.extent text) (query.start text) query.bounded := by
  match query with
  | .forward start none => rfl
  | .forward start (some stop) => rfl
  | .backward start => rfl

namespace Regex

theorem exists_tree {limits : Limits} {pattern : String}
    (compiled : compileWith limits pattern = .ok r) :
    ∃ tokens tree, Tokens.ofPattern pattern = .ok tokens ∧ Parses tokens.list tree ∧
      r.program.classes = .ofList tokens.classes ∧ r.program.Encodes (tree.map (·.term 0)) := by
  obtain ⟨program, built, rfl⟩ := map_eq_ok.mp compiled
  obtain ⟨tokens, tree, read, table, encodes, parses⟩ := Program.exists_tree_of_compile built
  exact ⟨tokens, tree, read, parses, table, encodes⟩

def board (r : Regex) : Board r.limits.threads :=
  ⟨.empty r.program.arena.size, .empty r.program.arena.size, none⟩

theorem sound_board (r : Regex) : r.board.Sound r.program.arena.size :=
  ⟨ThreadList.sound_empty _, ThreadList.sound_empty _⟩

theorem not_mem_current_board (r : Regex) (t : Thread) : t ∉ r.board.current.threads :=
  Array.not_mem_empty t

theorem not_mem_next_board (r : Regex) (t : Thread) : t ∉ r.board.next.threads :=
  Array.not_mem_empty t

def scanOf (r : Regex) (text : Text) (query : Query) (first : Option Char) : Scan :=
  r.scan query.dir text (query.extent text) first

theorem exists_run {o : Option Term} {report : Report} (encodes : r.program.Encodes o)
    (full : text.Full) (searched : r.answer text query = .ok report) :
    ∃ first b, r.program.arena.firstChar (r.program.entry query.dir) = .ok first ∧
      (r.scanOf text query first).Ready ∧
      (r.scanOf text query first).run (query.start text) query.bounded r.board = .ok (report, b) := by
  obtain ⟨⟨report', m⟩, answered, rfl⟩ := map_eq_ok.mp searched
  rw [Matcher.answer_eq] at answered
  obtain ⟨first, begins, answered⟩ := bind_eq_ok.mp answered
  obtain ⟨⟨report', b⟩, run, answered⟩ := bind_eq_ok.mp answered
  cases answered
  obtain ⟨first', begins', isFirst⟩ := Arena.exists_firstChar (encodes.entry_lt query.dir)
  cases begins.symm.trans begins'
  refine ⟨first, b, begins, ?_, ?_⟩
  · exact ready_scan encodes full (query.extent_le text) (query.extent_of_backward text) isFirst
  · rw [ThreadList.clear_eq (ThreadList.sound_empty _)] at run
    exact run

theorem Realizes.exists_report {tree : Option Tree} (realizes : r.Realizes tree) (full : text.Full)
    (query : Query) : ∃ report, r.answer text query = .ok report := by
  obtain ⟨report, m, searched, -, -⟩ := Matcher.sound_new.exists_search query.dir realizes full
    (query.extent_le text) (query.extent_of_backward text) (query.start_le text) query.bounded
  rw [← Matcher.answer_eq] at searched
  exact ⟨report, map_eq_ok.mpr ⟨(report, m), searched, rfl⟩⟩

end Regex

end CursorRegex
