/-!
# Ember — source locations

Every node of a program tree and every diagnostic names the file and the line it belongs to.
-/

namespace Ember

/-- A source file name and a line number. -/
structure Location where
  file : String
  line : Nat
deriving DecidableEq, Inhabited

namespace Location

def text (l : Location) : String :=
  l.file ++ ":" ++ toString l.line

/-- What the handler at a location puts before an exception that it caught. -/
def catchMark (l : Location) : String :=
  "[caught in " ++ l.text ++ "] "

end Location

end Ember
