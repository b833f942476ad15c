import CursorRegex.Span

/-! A pattern cut into glyphs. A backslash and the character behind it form one glyph, and any other
character is a glyph by itself, so the cut is the same inside and outside brackets. -/
set_option autoImplicit false

namespace CursorRegex

inductive Shape where
  | plain (c : Char)
  | escaped (c : Char)
  /-- A backslash that ends the pattern. -/
  | dangling
deriving DecidableEq

namespace Shape

def spell : Shape → List Char
  | .plain c => [c]
  | .escaped c => ['\\', c]
  | .dangling => ['\\']

/-- The character meant where the glyph stands for itself. -/
def value : Shape → Char
  | .plain c => c
  | .escaped c => if c = 'n' then '\n' else c
  | .dangling => '\\'

end Shape

structure Glyph where
  span : Span
  shape : Shape
deriving DecidableEq

namespace Glyph

/-- The glyphs of a text that begins `offset` bytes into the pattern. -/
def readAll (offset : Nat) : List Char → List Glyph
  | [] => []
  | [c] => [⟨⟨offset, offset + c.utf8Size⟩, if c = '\\' then .dangling else .plain c⟩]
  | c :: d :: rest =>
    if c = '\\' then
      ⟨⟨offset, offset + c.utf8Size + d.utf8Size⟩, .escaped d⟩ ::
        readAll (offset + c.utf8Size + d.utf8Size) rest
    else
      ⟨⟨offset, offset + c.utf8Size⟩, .plain c⟩ :: readAll (offset + c.utf8Size) (d :: rest)

/-- Cutting loses nothing: the glyphs spell the text they were cut from. -/
theorem flatMap_spell_readAll (offset : Nat) (cs : List Char) :
    (readAll offset cs).flatMap (·.shape.spell) = cs := by
  fun_induction readAll offset cs with
  | case1 => rfl
  | case2 offset c =>
    by_cases h : c = '\\'
    · simp [h, Shape.spell]
    · simp [h, Shape.spell]
  | case3 offset d rest ih => rw [List.flatMap_cons, ih]; rfl
  | case4 offset c d rest _ ih => rw [List.flatMap_cons, ih]; rfl

end Glyph

end CursorRegex
