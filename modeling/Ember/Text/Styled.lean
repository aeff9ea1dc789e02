/-!
# Ember — styled text

Listings and reports are built as runs of text, each with an optional style. A run can be rendered
plainly or with terminal colour codes.

* `Styled.plain`       — the text alone.
* `Styled.coloredWith` — every styled run is painted.
* `Style.paint`        — the painter in use wraps a run as `ESC[code m … ESC[0m`, and selects the style
  again after a reset inside it.
-/

namespace Ember.Text

/-- The styles in use. -/
inductive Style
  | brightRed | green | yellow | blue | magenta | cyan | white | gray
  | bold | boldBrightRed | boldBlue
deriving DecidableEq

/-- The parameters of the terminal sequence that selects a style. -/
def Style.code : Style → String
  | .brightRed => "91"
  | .green => "32"
  | .yellow => "33"
  | .blue => "34"
  | .magenta => "35"
  | .cyan => "36"
  | .white => "37"
  | .gray => "90"
  | .bold => "1"
  | .boldBrightRed => "1;91"
  | .boldBlue => "1;34"

/-- A run of text of one style. -/
structure Span where
  style : Option Style
  text : String
deriving DecidableEq

abbrev Styled := List Span

def raw (s : String) : Styled :=
  [⟨none, s⟩]

def styled (style : Style) (s : String) : Styled :=
  [⟨some style, s⟩]

def Style.select (style : Style) : String :=
  "\x1b[" ++ style.code ++ "m"

def reset : String := "\x1b[0m"

def resume (select : List Char) : List Char → List Char
  | '\x1b' :: '[' :: '0' :: 'm' :: rest =>
    '\x1b' :: '[' :: '0' :: 'm' :: (select ++ resume select rest)
  | c :: rest => c :: resume select rest
  | [] => []

/-- A text with the codes of a style. A reset inside the text does not end the style, which is
selected again. -/
def Style.paint (style : Style) (text : String) : String :=
  style.select ++ String.ofList (resume style.select.toList text.toList) ++ reset

def Span.coloredWith (paint : Style → String → String) (s : Span) : String :=
  match s.style with
  | none => s.text
  | some style => paint style s.text

def Styled.plain (s : Styled) : String :=
  s.foldl (fun out span => out ++ span.text) ""

def Styled.coloredWith (paint : Style → String → String) (s : Styled) : String :=
  s.foldl (fun out span => out ++ span.coloredWith paint) ""

def Styled.colored (s : Styled) : String :=
  s.coloredWith Style.paint

def Styled.render (s : Styled) (color : Bool) : String :=
  if color then s.colored else s.plain

/-- Styled items with a separator between two neighbours. -/
def Styled.join (separator : Styled) : List Styled → Styled
  | [] => []
  | [s] => s
  | s :: rest => s ++ separator ++ Styled.join separator rest

end Ember.Text
