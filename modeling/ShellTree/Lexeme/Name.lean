import ShellTree.Character
import ShellTree.Lexeme.Quoted

/-!
This module contains the scanners for what may stand before an operator: the name that an
assignment sets and the digits that a redirect takes.
-/

namespace ShellTree
namespace Lexeme

def nameRun (cs : List Char) : List Char := cs.takeWhile isNameChar

/-- The characters after the `]` that balances the open brackets, of which there are `depth`.
Brackets inside quotes do not count; an unquoted line feed ends the search. -/
def afterSubscript? : Quoting → Nat → List Char → Option (List Char)
  | _, _, [] => none
  | q, depth, c :: cs =>
    if q.escapes && c == '\\' then
      match cs with
      | [] => none
      | _ :: cs => afterSubscript? q depth cs
    else
      match q with
      | .bare =>
        if c == ']' then
          if depth ≤ 1 then some cs else afterSubscript? .bare (depth - 1) cs
        else if c == '[' then afterSubscript? .bare (depth + 1) cs
        else if c == '\n' then none
        else afterSubscript? (q.next c) depth cs
      | _ => afterSubscript? (q.next c) depth cs

def opensAssignment : List Char → Bool
  | '=' :: _ => true
  | '+' :: '=' :: _ => true
  | _ => false

/-- The name that an assignment at the start of the characters sets. A subscript may stand between
the name and the operator. -/
def variableName? (cs : List Char) : Option (List Char) :=
  match cs with
  | [] => none
  | c :: _ =>
    if isNameStart c then
      let name := nameRun cs
      match cs.dropWhile isNameChar with
      | '[' :: rest =>
        match afterSubscript? .bare 1 rest with
        | some rest => if opensAssignment rest then some name else none
        | none => none
      | rest => if opensAssignment rest then some name else none
    else
      none

/-- Digits that a redirect operator follows. -/
def fileDescriptor? (cs : List Char) : Option (List Char) :=
  match cs.takeWhile Char.isDigit, cs.dropWhile Char.isDigit with
  | [], _ => none
  | digits, c :: _ => if c == '<' || c == '>' then some digits else none
  | _, [] => none

end Lexeme
end ShellTree
