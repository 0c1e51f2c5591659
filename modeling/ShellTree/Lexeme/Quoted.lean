/-!
This module contains the scanners for quoted text. Each takes the characters after the opening
quote; `'...'` knows no escapes, in `$'...'` and `"..."` a backslash hides the next character.
-/

namespace ShellTree
namespace Lexeme

/-- The rest of a single-quoted string with its closing quote, or all characters. -/
def rawBody : List Char → List Char
  | [] => []
  | c :: cs => if c == '\'' then [c] else c :: rawBody cs

/-- The rest of an ANSI-C string with its closing quote, or all characters. -/
def ansiCBody : List Char → List Char
  | [] => []
  | '\\' :: c :: cs => '\\' :: c :: ansiCBody cs
  | c :: cs => if c == '\'' then [c] else c :: ansiCBody cs

inductive Quoting where
  | bare
  | single
  | double
deriving DecidableEq, Repr

/-- The state after one character that nothing hides. -/
def Quoting.next : Quoting → Char → Quoting
  | .bare, c => if c == '\'' then .single else if c == '"' then .double else .bare
  | .single, c => if c == '\'' then .bare else .single
  | .double, c => if c == '"' then .bare else .double

/-- A backslash hides the next character everywhere but in single quotes. -/
def Quoting.escapes : Quoting → Bool
  | .single => false
  | _ => true

end Lexeme
end ShellTree
