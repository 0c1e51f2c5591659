import ShellTree.Grammar.LineBreak
import ShellTree.Grammar.Literal

/-!
This module contains the statements that choose: if statements and case statements.
-/

namespace ShellTree
namespace Grammar

open Parse

def elifClause (inner : Nested) (tok : Token) : Parse Node := do
  let leaf ← keywordLeaf tok
  let condition ← inner.statements {}
  let keyword ← expectKeyword "then" .elifClause tok.span.start
  let body ← inner.statements {}
  node .elifClause (leaf :: condition ++ keyword ++ body)

def elseClause (inner : Nested) (tok : Token) : Parse Node := do
  let leaf ← keywordLeaf tok
  let body ← inner.statements {}
  node .elseClause (leaf :: body)

def alternativeStep (inner : Nested) (clauses : List Node) : Parse (ForInStep (List Node)) := do
  let tok ← peekStatement
  if isKeyword (← source) tok "elif" then
    return .yield (clauses ++ [← elifClause inner tok])
  else if isKeyword (← source) tok "else" then
    return .yield (clauses ++ [← elseClause inner tok])
  else
    return .done clauses

def ifStatement (inner : Nested) : Parse Node := do
  let tok ← peekStatement
  let leaf ← keywordLeaf tok
  let condition ← inner.statements {}
  let keyword ← expectKeyword "then" .ifStatement tok.span.start
  let body ← inner.statements {}
  let clauses ← repeatStep (alternativeStep inner) []
  let close ← expectKeyword "fi" .ifStatement tok.span.start
  node .ifStatement (leaf :: condition ++ keyword ++ body ++ clauses ++ close)

/-- Take a pattern of a case item and the bar after it. Without a bar the patterns are complete. -/
def patternStep (inner : Nested) (patterns : List Node) : Parse (ForInStep (List Node)) := do
  let tok ← peek
  match ← literal inner with
  | some pattern =>
    let bar ← acceptOperator "|"
    let patterns := patterns ++ pattern :: bar
    return if bar.isEmpty then .done patterns else .yield patterns
  | none =>
    report (.expectedPart .casePattern tok.text) tok.span
    return .done patterns

def caseItemBody (inner : Nested) : Parse (List Node) := do
  let body ← inner.statements { inCaseItem := true }
  let tok ← peek
  if tok.isOneOf Operator.caseTerminators then
    return body ++ [← tokenLeaf tok]
  else
    return body

/-- A case item; none when nothing of one is there. -/
def caseItem (inner : Nested) : Parse (Option Node) := do
  let start := (← peek).span.start
  let opener ← acceptOperator "("
  let patterns ← repeatStep (patternStep inner) []
  let head := opener ++ patterns
  if head.isEmpty then
    return none
  else
    let close ← expectOperator ")" .caseItem start
    if close.isEmpty then
      return some (← node .caseItem head)
    else
      let body ← caseItemBody inner
      return some (← node .caseItem (head ++ close ++ body))

/-- Take a case item and the line breaks after it. The items end where nothing can be taken. -/
def caseItemStep (inner : Nested) (items : List Node) : Parse (ForInStep (List Node)) := do
  let tok ← peekStatement
  if tok.isEof || isKeyword (← source) tok "esac" || (← isHalted) then
    return .done items
  else
    let start ← position
    let item ← caseItem inner
    let breaks ← lineBreaks inner
    let items := items ++ item.toList ++ breaks
    return if (← position) = start then .done items else .yield items

def caseSubject (inner : Nested) : Parse (List Node) := do
  let tok ← peek
  match ← literal inner with
  | some subject => return [subject]
  | none =>
    report (.expectedPart .caseSubject tok.text) tok.span
    return []

def caseStatement (inner : Nested) : Parse Node := do
  let tok ← peekStatement
  let leaf ← keywordLeaf tok
  let subject ← caseSubject inner
  let semicolon ← acceptOperator ";"
  let breaks ← lineBreaks inner
  let keyword ← expectKeyword "in" .caseStatement tok.span.start
  let moreBreaks ← lineBreaks inner
  let items ← repeatStep (caseItemStep inner) []
  let close ← expectKeyword "esac" .caseStatement tok.span.start
  node .caseStatement
    (leaf :: subject ++ semicolon ++ breaks ++ keyword ++ moreBreaks ++ items ++ close)

end Grammar
end ShellTree
