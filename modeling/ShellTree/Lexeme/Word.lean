import ShellTree.Token
import ShellTree.Trivia

/-!
This module contains the scanner for bare words.
-/

namespace ShellTree
namespace Lexeme

/-- The characters at which a word ends. Inside an expansion operators are word characters, and a
closing brace or bracket ends a word only where it closes something. -/
def endsBareWord (flags : Flags) (c : Char) : Bool :=
  isSpace c || c == '\'' || c == '"' || c == '\x60' ||
    (!flags.inExpansion && isMetacharacter c) ||
    (flags.stopAtBrace && c == '\x7d') || (flags.stopAtBracket && c == ']')

/-- The longest word. A backslash takes the next character along unless the two continue the line,
and a `$` belongs to the word where it opens nothing. -/
def word (flags : Flags) : List Char → List Char
  | [] => []
  | ['\\'] => ['\\']
  | '\\' :: c :: cs =>
    if (Trivia.continuation? ('\\' :: c :: cs)).isSome then [] else '\\' :: c :: word flags cs
  | c :: cs =>
    if endsBareWord flags c || (c == '$' && opensDollarForm cs) then [] else c :: word flags cs

end Lexeme
end ShellTree
