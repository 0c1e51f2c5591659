import ShellTree.Grammar.ArithmeticBody

/-!
This module contains substitutions: of the output of commands, of a process by a file name, and of
the value of an arithmetic expression.
-/

namespace ShellTree
namespace Grammar

open Parse

/-- The statements of a substitution. After `$(` a redirect stands for the content of its file. -/
def substitutionBody (inner : Nested) (opener : Token) : Parse (List Node) := do
  let tok ← peek
  if opener.isOperator "$(" && tok.isOperator "<" then
    return (← inner.redirect).toList
  else
    inner.statements {}

def parenthesizedSubstitution (inner : Nested) (kind : NodeKind) (construct : Construct) :
    Parse Node := do
  let opener ← peek
  let leaf ← tokenLeaf opener
  let parts ← inMode .command <| withFlags {} do
    let parts ← substitutionBody inner opener
    let close ← expectOperator ")" construct opener.span.start
    return parts ++ close
  node kind (leaf :: parts)

/-- A command substitution in `$( ... )`. -/
def commandSubstitution (inner : Nested) : Parse Node :=
  parenthesizedSubstitution inner .commandSubstitution .commandSubstitution

/-- A process substitution in `<( ... )` or `>( ... )`. -/
def processSubstitution (inner : Nested) : Parse Node :=
  parenthesizedSubstitution inner .processSubstitution .processSubstitution

def closingBacktick (start : Nat) : Parse (List Node) := do
  let tok ← peek
  if tok.kind = .backtickClose then
    return [← tokenLeaf tok]
  else
    reportMissing tok "`" .commandSubstitution start
    return []

def backtickSubstitution (inner : Nested) : Parse Node := do
  let opener ← peek
  let leaf ← tokenLeaf opener
  let parts ← inMode .command <| withFlags {} <| withinBackticks do
    let parts ← inner.statements {}
    let close ← closingBacktick opener.span.start
    return parts ++ close
  node .commandSubstitution (leaf :: parts)

/-- An arithmetic expansion. Its expression may be missing. -/
def arithmeticExpansion (inner : Nested) : Parse Node := do
  let opener ← peek
  let leaf ← tokenLeaf opener
  let parts ← inMode .arithmetic <| withFlags {} <|
    arithmeticBody inner .arithmeticExpansion opener.span.start
  node .arithmeticExpansion (leaf :: parts)

end Grammar
end ShellTree
