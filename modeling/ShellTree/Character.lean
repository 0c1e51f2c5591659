/-!
This module contains the classes of characters that the shell grammar distinguishes. All of them
are sets of ASCII characters.
-/

namespace ShellTree

/-- Space, tab, carriage return, line tab and form feed: blank also where lines matter. -/
def isBlank (c : Char) : Bool :=
  c == ' ' || c == '\t' || c == '\r' || c == '\x0b' || c == '\x0c'

def isSpace (c : Char) : Bool := isBlank c || c == '\n'

def isNameStart (c : Char) : Bool := c.isAlpha || c == '_'

def isNameChar (c : Char) : Bool := c.isAlphanum || c == '_'

/-- The characters that are a parameter by themselves: `$?`, `$@` and their like. -/
def isSpecialParameter (c : Char) : Bool :=
  c == '*' || c == '@' || c == '?' || c == '-' || c == '$' || c == '!' || c == '#'

/-- The characters that end a word outside quotes and expansions. -/
def isMetacharacter (c : Char) : Bool :=
  c == ';' || c == '&' || c == '|' || c == '(' || c == ')' || c == '<' || c == '>'

/-- The characters open a variable name: a letter or an underscore, then name characters. -/
def isName : List Char → Bool
  | [] => false
  | c :: cs => isNameStart c && cs.all isNameChar

/-- The characters after a `$` that make the two a simple expansion. -/
def opensSimpleExpansion : List Char → Bool
  | [] => false
  | c :: _ => isNameChar c || isSpecialParameter c

def opensDollarForm : List Char → Bool
  | [] => false
  | c :: cs =>
    c == '(' || c == '\x7b' || c == '\'' || c == '"' || opensSimpleExpansion (c :: cs)

/-- The characters after a `$` that give it a meaning inside double quotes and here-documents. -/
def opensQuotedExpansion : List Char → Bool
  | [] => false
  | c :: cs => c == '(' || c == '\x7b' || opensSimpleExpansion (c :: cs)

end ShellTree
