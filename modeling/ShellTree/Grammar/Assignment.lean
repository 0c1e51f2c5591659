import ShellTree.Grammar.Literal

/-!
This module contains assignments to variables, elements of arrays and whole arrays.
-/

namespace ShellTree
namespace Grammar

open Parse

def arrayStep (inner : Nested) (start : Nat) (parts : List Node) :
    Parse (ForInStep (List Node)) := do
  let tok ← peek
  if tok.isOperator ")" then
    return .done (parts ++ [← tokenLeaf tok])
  else if tok.isEof then
    reportUnclosed (.construct .array ")") start
    return .done parts
  else
    match ← inner.literal with
    | some element => return .yield (parts ++ [element])
    | none =>
      report (.unexpectedIn tok.text .array) tok.span
      return .yield (parts ++ [← tokenLeaf tok])

/-- The elements of an array, whose `(` comes next. Line breaks between them are trivia. -/
def array (inner : Nested) : Parse Node := do
  let start ← position
  let opener ← takeText "("
  let parts ← withFlags { newlineTrivia := true } (repeatStep (arrayStep inner start) [])
  node .array (opener :: parts)

def assignedValue (inner : Nested) : Parse (List Node) := do
  if (← upcoming).head? == some '(' then
    return [← array inner]
  else
    let tok ← peek
    if tok.adjacent && tok.isLiteralStart then
      return (← inner.literal).toList
    else
      return []

def assignmentOperator? : List Char → Option String
  | '+' :: '=' :: _ => some "+="
  | '=' :: _ => some "="
  | _ => none

def assignment (inner : Nested) : Parse Node := do
  let tok ← peekAssignment
  let name ← leafAt .variableName tok.span
  let target ← if (← upcoming).head? == some '[' then subscript inner name else pure name
  match assignmentOperator? (← upcoming) with
  | some op =>
    let leaf ← takeText op
    let value ← assignedValue inner
    node .variableAssignment (target :: leaf :: value)
  | none =>
    let tok ← peek
    report .expectedEqualsInAssignment tok.span
    node .variableAssignment [target]

end Grammar
end ShellTree
