import ShellTree.Grammar.Arithmetic
import ShellTree.Grammar.ArithmeticBody
import ShellTree.Grammar.LineBreak

/-!
This module contains groups in braces and parentheses, and loops.
-/

namespace ShellTree
namespace Grammar

open Parse

def braceGroup (inner : Nested) : Parse Node := do
  let opener ← peekStatement
  let leaf ← keywordLeaf opener
  let body ← inner.statements {}
  let close ← expectKeyword "\x7d" .commandGroup opener.span.start
  node .compoundStatement (leaf :: body ++ close)

def subshell (inner : Nested) : Parse Node := do
  let opener ← peekStatement
  let leaf ← tokenLeaf opener
  let body ← inner.statements {}
  let close ← expectOperator ")" .subshell opener.span.start
  node .subshell (leaf :: body ++ close)

def doGroup (inner : Nested) (construct : Construct) (start : Nat) : Parse (List Node) := do
  let tok ← peekStatement
  if isKeyword (← source) tok "do" then
    let leaf ← keywordLeaf tok
    let body ← inner.statements {}
    let close ← expectKeyword "done" construct start
    return [← node .doGroup (leaf :: body ++ close)]
  else
    reportMissing tok "do" construct start
    return []

def whileLoop (inner : Nested) : Parse Node := do
  let tok ← peekStatement
  let construct := if tok.text == "until" then Construct.untilLoop else .whileLoop
  let leaf ← keywordLeaf tok
  let condition ← inner.statements {}
  let body ← doGroup inner construct tok.span.start
  node .whileStatement (leaf :: condition ++ body)

/-- The first clause of a loop header as an assignment of a plain value; none when it is not one. -/
def headerAssignment? (inner : Nested) (name : Token) : Parse (Option Node) := do
  let nameLeaf ← leafAt .variableName name.span
  let equals ← peek
  if equals.isOperator "=" then
    let equalsLeaf ← tokenLeaf equals
    match ← inner.arithmetic Operator.conditionalRow with
    | some value =>
      if (← peek).isOperator ";" then
        return some (← node .variableAssignment [nameLeaf, equalsLeaf, value])
      else
        return none
    | none => return none
  else
    return none

def headerClause (inner : Nested) (allowAssignment : Bool) : Parse (List Node) := do
  let tok ← peek
  if tok.isOperator ";" then
    return []
  else if ← atArithmeticClose then
    return []
  else if allowAssignment && tok.kind = .word && isName tok.text.toList then
    match ← attempt (headerAssignment? inner tok) with
    | some assignment => return [assignment]
    | none => requiredExpression inner
  else
    requiredExpression inner

/-- The clauses of a loop header and the semicolons between them. After a missing semicolon no more
clauses are read. -/
def headerClauses (inner : Nested) (start : Nat) : Parse (List Node) := do
  let first ← headerClause inner true
  let semicolon ← expectOperator ";" .forLoopHeader start
  if semicolon.isEmpty then
    return first
  else
    let second ← headerClause inner false
    let nextSemicolon ← expectOperator ";" .forLoopHeader start
    if nextSemicolon.isEmpty then
      return first ++ semicolon ++ second
    else
      let third ← headerClause inner false
      return first ++ semicolon ++ second ++ nextSemicolon ++ third

/-- The body of a loop with an arithmetic header, in braces or between keywords. -/
def headerLoopBody (inner : Nested) (start : Nat) : Parse (List Node) := do
  let tok ← peekStatement
  if isKeyword (← source) tok "\x7b" then
    return [← braceGroup inner]
  else
    doGroup inner .forLoop start

def headerLoop (inner : Nested) (keyword : Node) (start : Nat) : Parse Node := do
  let opener ← peekStatement
  let leaf ← tokenLeaf opener
  let header ← inMode .arithmetic <| withFlags {} do
    let clauses ← headerClauses inner start
    let close ← arithmeticClose .forLoopHeader start
    return clauses ++ close
  let semicolon ← acceptOperator ";"
  let breaks ← lineBreaks inner
  let body ← headerLoopBody inner start
  node .cStyleForStatement (keyword :: leaf :: header ++ semicolon ++ breaks ++ body)

/-- The variable of a loop. What stands in its place is reported and, if it is a literal, taken. -/
def loopVariable (inner : Nested) : Parse (List Node) := do
  let tok ← peek
  if tok.kind = .word && isName tok.text.toList then
    return [← leafAt .variableName tok.span]
  else
    report (.expectedPart .loopVariable tok.text) tok.span
    return (← literal inner).toList

def loopValueStep (inner : Nested) (values : List Node) : Parse (ForInStep (List Node)) := do
  match ← literal inner with
  | some value => return .yield (values ++ [value])
  | none => return .done values

/-- The values that a loop runs through. They may be missing. -/
def loopValues (inner : Nested) : Parse (List Node) := do
  let tok ← peek
  if isKeyword (← source) tok "in" then
    repeatStep (loopValueStep inner) [← keywordLeaf tok]
  else
    return []

def valueLoop (inner : Nested) (keyword : Node) (construct : Construct) (start : Nat) :
    Parse Node := do
  let name ← loopVariable inner
  let values ← loopValues inner
  let semicolon ← acceptOperator ";"
  let breaks ← lineBreaks inner
  let body ← doGroup inner construct start
  node .forStatement (keyword :: name ++ values ++ semicolon ++ breaks ++ body)

def forLoop (inner : Nested) : Parse Node := do
  let tok ← peekStatement
  let keyword ← keywordLeaf tok
  if tok.text == "select" then
    valueLoop inner keyword .selectLoop tok.span.start
  else if (← peekStatement).isOperator "((" then
    headerLoop inner keyword tok.span.start
  else
    valueLoop inner keyword .forLoop tok.span.start

end Grammar
end ShellTree
