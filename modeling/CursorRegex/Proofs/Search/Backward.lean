import CursorRegex.Proofs.Search.Answer

/-! # Backward searches

A backward search finds the match of the documented syntax that ends last at or before its start, and of
those the longest.  Only if there is none it wraps around, and then it finds the match that ends last in
the whole text. -/
set_option autoImplicit false

namespace CursorRegex

namespace Regex

variable {limits : Limits} {pattern : String} {r : Regex} {tree : Option Tree} {text : Text}

end Regex

end CursorRegex
