import ShellTree.Grammar.Conditional
import ShellTree.Grammar.Loop
import ShellTree.Grammar.Redirect
import ShellTree.Grammar.Test

/-!
This module contains the definitions of functions and the compound commands that may be their
bodies.
-/

namespace ShellTree
namespace Grammar

open Parse

def arithmeticCommand (inner : Nested) : Parse Node := do
  let opener ← peekStatement
  let leaf ← tokenLeaf opener
  let parts ← inMode .arithmetic <| withFlags {} <|
    arithmeticBody inner .arithmeticCommand opener.span.start
  node .testCommand (leaf :: parts)

def compoundOf? (inner : Nested) : String → Option (Parse Node)
  | "\x7b" => some (braceGroup inner)
  | "[" => some (testCommand inner)
  | "[[" => some (testCommand inner)
  | "if" => some (ifStatement inner)
  | "while" => some (whileLoop inner)
  | "until" => some (whileLoop inner)
  | "for" => some (forLoop inner)
  | "select" => some (forLoop inner)
  | "case" => some (caseStatement inner)
  | _ => none

def functionBody (inner : Nested) : Parse (Option Node) := do
  let tok ← peekStatement
  match tok.kind with
  | .operator "(" => return some (← subshell inner)
  | .operator "((" => return some (← arithmeticCommand inner)
  | .word =>
    match if isBareWord (← source) tok then compoundOf? inner tok.text else none with
    | some compound => return some (← compound)
    | none => return none
  | _ => return none

/-- A definition from the end of its head on. -/
def functionFrom (inner : Nested) (head : List Node) : Parse Node := do
  let breaks ← lineBreaks inner
  match ← functionBody inner with
  | some body =>
    let targets ← redirects inner
    node .functionDefinition (head ++ breaks ++ body :: targets)
  | none =>
    let tok ← peekStatement
    report (.expectedPart .functionBody tok.text) tok.span
    node .functionDefinition (head ++ breaks)

def functionName : Parse (List Node) := do
  let tok ← peek
  if tok.kind = .word then
    return [← leafAt .word tok.span]
  else
    report (.expectedPart .functionName tok.text) tok.span
    return []

/-- The parentheses after the name of a function. They may be missing. -/
def functionParentheses : Parse (List Node) := do
  let tok ← peek
  let opener ← acceptOperator "("
  if opener.isEmpty then
    return []
  else
    let close ← expectOperator ")" .functionDefinition tok.span.start
    return opener ++ close

def keywordFunction (inner : Nested) : Parse Node := do
  let keyword ← keywordLeaf (← peekStatement)
  let name ← functionName
  let parentheses ← functionParentheses
  functionFrom inner (keyword :: name ++ parentheses)

/-- The name of a function and the parentheses after it; none when they are missing. -/
def functionHead? : Parse (Option (List Node)) := do
  let name ← leafAt .word (← peekStatement).span
  let opener ← peekPlain
  if opener.isOperator "(" then
    let openerLeaf ← tokenLeaf opener
    let close ← peekPlain
    if close.isOperator ")" then
      return some [name, openerLeaf, ← tokenLeaf close]
    else
      return none
  else
    return none

/-- A definition without a keyword; none when the parentheses are missing. -/
def plainFunction? (inner : Nested) : Parse (Option Node) := do
  match ← attempt functionHead? with
  | some head => return some (← functionFrom inner head)
  | none => return none

end Grammar
end ShellTree
