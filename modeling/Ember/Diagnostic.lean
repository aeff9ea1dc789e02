import Ember.Location
import Ember.Text.Quoted
import Ember.Text.Styled

/-!
# Ember — diagnostics

A diagnostic says why a program is rejected, and where. The first one ends the compilation.

* `Problem.message`    — the wording of each cause.
* `Diagnostic.text`    — one line, `file:line: message`.
* `Diagnostic.report`  — two lines for a terminal.
-/

namespace Ember

open Text (Styled raw styled)

/-- What a name was declared as. -/
inductive DeclarationKind
  | var | function | classDef | member
deriving DecidableEq

def DeclarationKind.word : DeclarationKind → String
  | .var => "variable"
  | .function => "function"
  | .classDef => "class"
  | .member => "member"

/-- The reasons to reject a program. -/
inductive Problem
  | undeclared (name : String)
  | redeclared (name : String) (kind : DeclarationKind)
  | unknownFunction (name : String)
  | arityMismatch (name : String) (expected found : Nat)
  | breakOutsideLoop
  | continueOutsideLoop
  | unsupported (construct : String)
  | missingConstant (text : String)
deriving DecidableEq

/-- The wording of a wrong number of arguments, at compile time and at run time. -/
def arityMessage (name : String) (expected found : Nat) : String :=
  "`" ++ name ++ "` takes " ++ toString expected ++ " argument(s) but " ++ toString found ++
    " were supplied"

def Problem.message : Problem → String
  | .undeclared name => "use of undeclared identifier `" ++ name ++ "`"
  | .redeclared name kind => "redeclaration of " ++ kind.word ++ " `" ++ name ++ "` in the same scope"
  | .unknownFunction name => "call to undefined function `" ++ name ++ "`"
  | .arityMismatch name expected found => arityMessage name expected found
  | .breakOutsideLoop => "`break` outside of a loop"
  | .continueOutsideLoop => "`continue` outside of a loop"
  | .unsupported construct => "unsupported construct: " ++ construct
  | .missingConstant text =>
    "constant " ++ Text.quoted text ++ " was not registered before emission"

/-- A problem and, where one is known, its place. -/
structure Diagnostic where
  problem : Problem
  location : Option Location
deriving DecidableEq

namespace Diagnostic

def of (loc : Location) (problem : Problem) : Diagnostic :=
  ⟨problem, some loc⟩

def text (d : Diagnostic) : String :=
  match d.location with
  | some loc => loc.text ++ ": " ++ d.problem.message
  | none => d.problem.message

/-- The form for a terminal: the problem, then an arrow to its place. -/
def report (d : Diagnostic) : Styled :=
  styled .boldBrightRed "error" ++ styled .bold ":" ++ raw (" " ++ d.problem.message) ++
    match d.location with
    | some loc => raw "\n  " ++ styled .boldBlue "-->" ++ raw (" " ++ loc.text)
    | none => []

end Diagnostic

end Ember
