import ShellTree.Parse.Nested

/-!
This module contains the subscript of a variable.
-/

namespace ShellTree
namespace Grammar

open Parse

def subscriptStep (inner : Nested) (start : Nat) (parts : List Node) :
    Parse (ForInStep (List Node)) := do
  let tok ← peek
  if tok.isOperator "]" then
    return .done (parts ++ [← tokenLeaf tok])
  else if tok.isEof then
    reportUnclosed (.construct .subscript "]") start
    return .done parts
  else if tok.kind = .newline || tok.isOperator "\x7d" then
    report .expectedBracketForSubscript tok.span
    return .done parts
  else
    match ← inner.literal with
    | some literal => return .yield (parts ++ [literal])
    | none => return .yield (parts ++ [← tokenLeaf tok])

def subscript (inner : Nested) (name : Node) : Parse Node := do
  let opener ← takeText "["
  let flags : Flags :=
    { stopAtBracket := true, inExpansion := true, stopAtBrace := (← get).flags.stopAtBrace }
  let parts ← withFlags flags (repeatStep (subscriptStep inner name.span.start) [])
  node .subscript (name :: opener :: parts)

end Grammar
end ShellTree
