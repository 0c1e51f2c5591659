import ShellTree.Character
import ShellTree.Fault
import ShellTree.Lexeme.Quoted

/-!
This module contains the scanner for patterns that are read as one token: the right side of `=~`
and the pattern of a substituting expansion.
-/

namespace ShellTree
namespace Lexeme

/-- A closer of a test counts only before one of these, or at the end of the text. -/
def atTestBoundary : List Char → Bool
  | [] => true
  | c :: _ => isSpace c || c == ';' || c == '&' || c == '|' || c == ')'

def atDoubleBracketClose : List Char → Bool
  | ']' :: ']' :: cs => atTestBoundary cs
  | _ => false

def endsRegex (inExpansion : Bool) : List Char → Bool
  | [] => true
  | c :: cs =>
    if inExpansion then c == '/' || c == '\x7d' else isSpace c || atDoubleBracketClose (c :: cs)

/-- The pattern at the start of the characters, `depth` brackets deep. In an expansion it ends at a
slash or a closing brace outside brackets. In a test it ends at a blank or the closer outside
brackets, and there every character outside brackets and quotes has to be ASCII. -/
def regex (inExpansion : Bool) : Quoting → Nat → List Char → Except Fault (List Char)
  | _, _, [] => .ok []
  | q, depth, c :: cs =>
    if q = .bare && depth = 0 && endsRegex inExpansion (c :: cs) then
      .ok []
    else if q.escapes && c == '\\' then
      match cs with
      | [] => .ok [c]
      | d :: cs => (regex inExpansion q depth cs).map (c :: d :: ·)
    else if q = .bare && depth = 0 && !inExpansion && c.utf8Size > 1 then
      .error .splitCharacter
    else if q = .bare && (c == '(' || c == '[' || c == '\x7b') then
      (regex inExpansion .bare (depth + 1) cs).map (c :: ·)
    else if q = .bare && (c == ')' || c == ']' || c == '\x7d') then
      (regex inExpansion .bare (depth - 1) cs).map (c :: ·)
    else
      (regex inExpansion (q.next c) depth cs).map (c :: ·)

end Lexeme
end ShellTree
