import CursorRegex.Unicode.Visible

/-! Text between double quotes, written so that everything in it shows. -/
set_option autoImplicit false

namespace CursorRegex.Quoted

def codePoint (c : Char) : List Char :=
  ['\\', 'u', '\x7b'] ++ Nat.toDigits 16 c.toNat ++ ['\x7d']

/-- Quotes and backslashes take a backslash in front, four controls have short names, and what does
not show is given by its code point. -/
def encodeChar (c : Char) : List Char :=
  if c = '"' || c = '\\' then ['\\', c]
  else if c = '\n' then ['\\', 'n']
  else if c = '\r' then ['\\', 'r']
  else if c = '\t' then ['\\', 't']
  else if c = '\x00' then ['\\', '0']
  else if Unicode.isVisible c then [c]
  else codePoint c

def encode (s : String) : String := "\"" ++ String.ofList (s.toList.flatMap encodeChar) ++ "\""

end CursorRegex.Quoted
