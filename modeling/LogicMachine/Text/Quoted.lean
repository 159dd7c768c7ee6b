/-
The written form of an atom.

An atom is written bare when a reader would take it back for the same
atom: a name that starts with a lowercase ASCII letter and goes on with
ASCII letters, digits and underscores, a run of symbol characters, and
four solo atoms. Any other text stands between single quotes, with a
backslash before a backslash and a quote, and `\n` and `\t` for the line
feed and the tab.
-/
namespace LogicMachine.Text.Quoted

/-- The characters that make up symbol atoms. -/
def symbols : List Char := "+-*/\\^<>=~:.?@#&$".toList

def isSymbol (c : Char) : Bool := symbols.contains c

def isNameChar (c : Char) : Bool := c.isAlphanum || c == '_'

/-- The atoms written bare although they are neither names nor symbols. -/
def solo : List (List Char) := [['[', ']'], ['!'], [';'], ['\x7b', '\x7d']]

/-- Whether a text is written without quotes. -/
def isBare (text : List Char) : Bool :=
  solo.contains text ||
    match text with
    | [] => false
    | c :: rest =>
      if c.isLower then rest.all isNameChar
      else if isSymbol c then rest.all isSymbol
      else false

/-- One character between quotes. -/
def escape : Char → List Char
  | '\\' => ['\\', '\\']
  | '\'' => ['\\', '\'']
  | '\n' => ['\\', 'n']
  | '\t' => ['\\', 't']
  | c => [c]

/-- The written form of a text, as characters. -/
def encode (text : List Char) : List Char :=
  if isBare text then text else '\'' :: text.flatMap escape ++ ['\'']

/-- The written form of an atom. -/
def atom (name : String) : String :=
  String.ofList (encode name.toList)

end LogicMachine.Text.Quoted
