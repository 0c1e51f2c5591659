import ShellTree.Parse.Nested

/-!
This module contains the inside of double parentheses: an arithmetic expression and its `))`.
-/

namespace ShellTree
namespace Grammar

open Parse

def atArithmeticClose : Parse Bool := do
  let tok ← peek
  if tok.isOperator ")" then
    return (← charactersAt tok.span.stop).head? == some ')'
  else
    return false

/-- An arithmetic expression; its absence is reported unless a lexical error explains it. -/
def requiredExpression (inner : Nested) : Parse (List Node) := do
  match ← inner.arithmetic 0 with
  | some expression => return [expression]
  | none =>
    let tok ← peek
    if tok.kind ≠ .error then
      report (.expectedOperand (.construct .arithmeticExpression)) tok.span
    return []

/-- Take a token that stands before the `))`. The second part of the result tells whether the
parentheses come next. -/
def arithmeticJunkStep (construct : Construct) (start : Nat) (junk : List Node × Bool) :
    Parse (ForInStep (List Node × Bool)) := do
  if ← atArithmeticClose then
    return .done (junk.1, true)
  else
    let tok ← peek
    if tok.isEof then
      reportUnclosed (.construct construct "))") start
      return .done (junk.1, false)
    else
      if junk.1.isEmpty && tok.kind ≠ .error then
        report (.unexpectedIn tok.text construct) tok.span
      return .yield (junk.1 ++ [← tokenLeaf tok], false)

/-- The `))` that closes the construct. What stands before it becomes an error node. -/
def arithmeticClose (construct : Construct) (start : Nat) : Parse (List Node) := do
  let (junk, closed) ← repeatStep (arithmeticJunkStep construct start) ([], false)
  let errors ← errorAround junk
  if closed then
    let tok ← peek
    let close ← leafAt (.token "))") (.ofWidth tok.span.start 2)
    return errors ++ [close]
  else
    return errors

def arithmeticBody (inner : Nested) (construct : Construct) (start : Nat) : Parse (List Node) := do
  let expression ← if ← atArithmeticClose then pure [] else requiredExpression inner
  let close ← arithmeticClose construct start
  return expression ++ close

end Grammar
end ShellTree
