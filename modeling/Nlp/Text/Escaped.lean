import Nlp.Text.Printable

/-!
# Quoted texts

A text between quotation marks, on one line and with everything in it visible.
-/

namespace Nlp

/-- A character inside quotation marks: a backslash stands before a quotation mark or a
backslash, four control characters have letters, and every other character that is not printable
is written as its code point. -/
def escapeChar (c : Char) : List Char :=
  if c = '"' ∨ c = '\\' then ['\\', c]
  else if c = '\n' then ['\\', 'n']
  else if c = '\r' then ['\\', 'r']
  else if c = '\t' then ['\\', 't']
  else if c.toNat = 0 then ['\\', '0']
  else if isPrintable c then [c]
  else ['\\', 'u', '\x7b'] ++ Nat.toDigits 16 c.toNat ++ ['\x7d']

/-- A text in quotation marks. -/
def quoteText (s : String) : String :=
  String.ofList ('"' :: s.toList.flatMap escapeChar ++ ['"'])

end Nlp
