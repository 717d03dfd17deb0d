/-!
# Lower case

Names are compared without regard to the case of the letters `A` to `Z`; every other character
stands for itself.
-/

namespace Nlp

/-- A text with the letters `A` to `Z` in lower case. -/
def lowerAscii (s : String) : String :=
  s.map Char.toLower

end Nlp
