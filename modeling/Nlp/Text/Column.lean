/-!
# Columns of a report

Texts filled up with blanks to a width counted in characters.  A longer text is never cut.
-/

namespace Nlp

/-- A text of `count` blanks. -/
def blanks (count : Nat) : String :=
  String.ofList (List.replicate count ' ')

/-- The text at the right end of a column. -/
def alignRight (width : Nat) (text : String) : String :=
  blanks (width - text.length) ++ text

/-- The text at the left end of a column. -/
def alignLeft (width : Nat) (text : String) : String :=
  text ++ blanks (width - text.length)

end Nlp
