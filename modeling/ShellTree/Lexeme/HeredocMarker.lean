import ShellTree.Character
import ShellTree.Lexeme.Quoted

/-!
This module contains the scanner for the delimiter after a here-document operator.
-/

namespace ShellTree
namespace Lexeme

/-- The delimiter word as it is written, with its quotes. It ends at an unquoted blank, line feed
or operator; a backslash before a line feed is its last character. -/
def heredocMarker : Quoting → List Char → List Char
  | _, [] => []
  | q, c :: cs =>
    if q.escapes && c == '\\' then
      match cs with
      | [] => [c]
      | d :: cs => if q = .bare && d == '\n' then [c] else c :: d :: heredocMarker q cs
    else if q = .bare && (isSpace c || isMetacharacter c) then []
    else c :: heredocMarker (q.next c) cs

end Lexeme
end ShellTree
