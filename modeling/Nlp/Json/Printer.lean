import Nlp.Decimal.Style
import Nlp.Json.Basic
import Nlp.Text.Hex

/-!
# Writing JSON

Two layouts: compact, without blanks, and pretty, with one item to a line and two blanks to a
level.
-/

namespace Nlp.Json

/-- A character inside a text: quotes, backslashes and control characters are escaped. -/
def escape (c : Char) : List Char :=
  match c with
  | '"' => ['\\', '"']
  | '\\' => ['\\', '\\']
  | '\n' => ['\\', 'n']
  | '\r' => ['\\', 'r']
  | '\t' => ['\\', 't']
  | '\x08' => ['\\', 'b']
  | '\x0c' => ['\\', 'f']
  | c =>
    if c.toNat < 0x20 then ['\\', 'u', '0', '0', Hex.digit (c.toNat / 16), Hex.digit (c.toNat % 16)]
    else [c]

/-- A text in quotes. -/
def quote (s : String) : String :=
  "\"" ++ String.ofList (s.toList.flatMap escape) ++ "\""

/-- The text of a value that holds no others. -/
def scalarText : Json → String
  | .bool b => if b then "true" else "false"
  | .int i => toString i
  | .real d => if d.isFinite then d.text .json else "null"
  | .text s => quote s
  | _ => "null"

mutual

/-- The value without blanks. -/
def compact : Json → String
  | .array items => "[" ++ ",".intercalate (compactItems items) ++ "]"
  | .object fields => "\x7b" ++ ",".intercalate (compactFields fields) ++ "\x7d"
  | j => scalarText j

/-- The texts of some values. -/
def compactItems : List Json → List String
  | [] => []
  | item :: items => compact item :: compactItems items

/-- The texts of some fields. -/
def compactFields : List (String × Json) → List String
  | [] => []
  | (name, value) :: fields => (quote name ++ ":" ++ compact value) :: compactFields fields

end

/-- A line break and the blanks of a level. -/
def newline (level : Nat) : String :=
  "\n" ++ String.ofList (List.replicate (2 * level) ' ')

mutual

/-- The value at a level, one item or field to a line. -/
def prettyAt (level : Nat) : Json → String
  | .array [] => "[]"
  | .array items =>
    "[" ++ newline (level + 1) ++
      ("," ++ newline (level + 1)).intercalate (prettyItems (level + 1) items) ++
      newline level ++ "]"
  | .object [] => "\x7b\x7d"
  | .object fields =>
    "\x7b" ++ newline (level + 1) ++
      ("," ++ newline (level + 1)).intercalate (prettyFields (level + 1) fields) ++
      newline level ++ "\x7d"
  | j => scalarText j

/-- The texts of some values at a level. -/
def prettyItems (level : Nat) : List Json → List String
  | [] => []
  | item :: items => prettyAt level item :: prettyItems level items

/-- The texts of some fields at a level. -/
def prettyFields (level : Nat) : List (String × Json) → List String
  | [] => []
  | (name, value) :: fields =>
    (quote name ++ ": " ++ prettyAt level value) :: prettyFields level fields

end

/-- The value over several lines. -/
def pretty (j : Json) : String := prettyAt 0 j

end Nlp.Json
