import ShellTree.Lexeme.DoubleParen
import ShellTree.Token

/-!
This module contains the tokens that a quote or a dollar sign opens. They are the same in all modes.
-/

namespace ShellTree
namespace Lexeme

/-- The token that a quote, a backtick or a dollar sign at the start of the characters opens. A
single-quoted string is one token; of the other forms the opener alone is. -/
def quoteOrDollar? : List Char → Option (TokenKind × List Char)
  | '\'' :: cs => some (.rawString, '\'' :: rawBody cs)
  | '"' :: _ => some (.operator "\"", ['"'])
  | '\x60' :: _ => some (.operator "`", ['\x60'])
  | '$' :: '\'' :: cs => some (.ansiCString, '$' :: '\'' :: ansiCBody cs)
  | '$' :: '(' :: '(' :: cs =>
    if DoubleParen.opensSubshell cs then some (.operator "$(", ['$', '('])
    else some (.operator "$((", ['$', '(', '('])
  | '$' :: '(' :: _ => some (.operator "$(", ['$', '('])
  | '$' :: '\x7b' :: _ => some (.operator "$\x7b", ['$', '\x7b'])
  | '$' :: '"' :: _ => some (.operator "$", ['$'])
  | '$' :: cs => if opensSimpleExpansion cs then some (.operator "$", ['$']) else none
  | _ => none

end Lexeme
end ShellTree
