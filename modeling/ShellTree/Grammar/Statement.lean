import ShellTree.Grammar.Command
import ShellTree.Grammar.Function

/-!
This module contains statements and the operators that join them.
-/

namespace ShellTree

inductive StatementOperator where
  | list
  | pipe
  | redirect
deriving DecidableEq, Repr

namespace StatementOperator

def ofToken? (tok : Token) : Option StatementOperator :=
  if tok.isOneOf Operator.lists then some list
  else if tok.isOneOf Operator.pipes then some pipe
  else if tok.isRedirectStart then some redirect
  else none

end StatementOperator

namespace Tier

/-- Pipes bind tighter than lists. Redirects bind as loosely as lists. -/
def admits : Tier → StatementOperator → Bool
  | list, _ => true
  | pipeline, .pipe => true
  | _, _ => false

end Tier

namespace Grammar

open Parse

def statementAfter (inner : Nested) (op : String) (tier : Tier) : Parse (List Node) := do
  match ← inner.statement tier with
  | some statement => return [statement]
  | none =>
    let tok ← peekStatement
    report (.expectedCommandAfter op) tok.span
    return []

def negation (inner : Nested) : Parse Node := do
  let keyword ← keywordLeaf (← peekStatement)
  let content ← statementAfter inner "!" .pipeline
  node .negatedCommand (keyword :: content)

/-- A statement that begins with a bare word; none when the word closes a list. -/
def wordStatement (inner : Nested) (text : String) : Parse (Option Node) := do
  match compoundOf? inner text with
  | some compound => return some (← compound)
  | none =>
    if text = "function" then return some (← keywordFunction inner)
    else if text = "!" then return some (← negation inner)
    else if Keyword.closing.contains text then return none
    else if Keyword.declarations.contains text then return some (← declaration inner)
    else if Keyword.unsets.contains text then return some (← unset inner)
    else
      match ← plainFunction? inner with
      | some definition => return some definition
      | none => return some (← command inner)

/-- A statement without operators and without the nesting level that it takes; none when no
statement comes next. -/
def primaryBody (inner : Nested) : Parse (Option Node) := do
  let tok ← peekStatement
  match tok.kind with
  | .word =>
    if isBareWord (← source) tok then
      wordStatement inner tok.text
    else
      return some (← command inner)
  | .variableName => return some (← command inner)
  | .operator "(" => return some (← subshell inner)
  | .operator "((" => return some (← arithmeticCommand inner)
  | _ =>
    if tok.isRedirectStart || tok.isLiteralStart then
      return some (← command inner)
    else
      return none

/-- A statement without operators, one nesting level deep. -/
def primaryStatement (inner : Nested) : Parse (Option Node) := nest (primaryBody inner)

/-- The children of a pipeline or a list whose left side is the statement. Pipelines are flat. -/
def leftOperands (op : StatementOperator) (left : Node) : List Node :=
  if op = .pipe && left.kind = .pipeline then left.children else [left]

def joined (inner : Nested) (op : StatementOperator) (tok : Token) (left : Node) : Parse Node := do
  let leaf ← tokenLeaf tok
  let breaks ← lineBreaks inner
  let tier := if op = .pipe then Tier.command else .pipeline
  let right ← statementAfter inner tok.text tier
  let kind := if op = .pipe then NodeKind.pipeline else .list
  node kind (leftOperands op left ++ leaf :: breaks ++ right)

def statementStep (inner : Nested) (tier : Tier) (left : Node) : Parse (ForInStep Node) := do
  let tok ← peekPlain
  match StatementOperator.ofToken? tok with
  | none => return .done left
  | some op =>
    if !tier.admits op then
      return .done left
    else if op = .redirect then
      return .yield (← node .redirectedStatement (left :: (← redirects inner)))
    else
      return .yield (← joined inner op tok left)

/-- A statement with the operators that the tier admits; none when no statement comes next. -/
def statement (inner : Nested) (tier : Tier) : Parse (Option Node) := do
  match ← primaryStatement inner with
  | none => return none
  | some left => return some (← repeatStep (statementStep inner tier) left)

end Grammar
end ShellTree
