import ShellTree.Grammar.Statement

/-!
This module contains lists of statements with their terminators, and the recovery from what is no
statement.
-/

namespace ShellTree
namespace Grammar

open Parse

def endsList (src : Source) (ctx : ListContext) (tok : Token) : Bool :=
  match tok.kind with
  | .operator op => op == ")" || (ctx.inCaseItem && Operator.caseTerminators.contains op)
  | .backtickClose => true
  | .word => isBareWord src tok && Keyword.closing.contains tok.text
  | _ => false

/-- Take what is no statement, up to a terminator or the end of the list. At least one token is
taken. -/
def recoveryStep (inner : Nested) (ctx : ListContext) (junk : List Node) :
    Parse (ForInStep (List Node)) := do
  let tok ← peekPlain
  if tok.isEof || tok.kind = .newline then
    return .done junk
  else if !junk.isEmpty &&
      (tok.isOneOf Operator.terminators || endsList (← source) ctx tok) then
    return .done junk
  else
    let next ←
      if tok.isLiteralStart then literal inner else pure (some (← tokenLeaf tok))
    match next with
    | some node => return if ← isHalted then .done (junk ++ [node]) else .yield (junk ++ [node])
    | none => return .done junk

def recoveryCause (tok : Token) : Cause :=
  if tok.isOneOf Operator.caseTerminators then .outsideCaseItem tok.text else .unexpected tok.text

/-- Report what is no statement and make it an error node. A line break or the end of the input is
left alone. -/
def recover (inner : Nested) (ctx : ListContext) : Parse (List Node) := do
  let first ← peekPlain
  if first.isEof || first.kind = .newline then
    return []
  else
    let junk ← repeatStep (recoveryStep inner ctx) []
    if first.kind ≠ .error then
      let stop := (junk.getLast?.map (·.span.stop)).getD first.span.stop
      report (recoveryCause first) (← spanBetween first.span.start stop)
    if junk.length = 1 && junk.all (fun only => only.isError && only.isLeaf) then
      return junk
    else
      errorAround junk

def strayCloser (tok : Token) : Parse Node := do
  report (.unexpected tok.text) tok.span
  let leaf ← keywordLeaf tok
  node .error [leaf]

/-- What follows a statement in a list: a terminator, a line break with the bodies after it, or
nothing where the list ends. Anything else is recovered from. The result is none at the end of the
input. -/
def terminator? (inner : Nested) (ctx : ListContext) : Parse (Option (List Node)) := do
  let tok ← peekPlain
  if tok.isOneOf Operator.terminators then
    return some [← tokenLeaf tok]
  else if tok.kind = .newline then
    return some ((← lineBreak? inner true).getD [])
  else if tok.isEof then
    return none
  else if endsList (← source) ctx tok then
    return some []
  else
    return some (← recover inner ctx)

/-- Take a token as an error where a statement and its terminator have taken nothing. -/
def forceProgress (nodes : List Node) : Parse (ForInStep (List Node)) := do
  let tok ← peek
  if tok.isEof then
    return .done nodes
  else
    let leaf ← tokenLeaf tok
    return .yield (nodes ++ [← node .error [leaf]])

def listItemStep (inner : Nested) (ctx : ListContext) (nodes : List Node) :
    Parse (ForInStep (List Node)) := do
  let start ← position
  match ← statement inner .list with
  | none => return .yield (nodes ++ (← recover inner ctx))
  | some statement =>
    match ← terminator? inner ctx with
    | none => return .done (nodes ++ [statement])
    | some terminator =>
      let nodes := nodes ++ statement :: terminator
      if (← position) = start && !(← isHalted) then
        forceProgress nodes
      else
        return .yield nodes

/-- Take a part of a list: a statement, an empty line, or a stray closer outside of all
constructs. -/
def listStep (inner : Nested) (ctx : ListContext) (nodes : List Node) :
    Parse (ForInStep (List Node)) := do
  if ← tick then
    let tok ← peekStatement
    if tok.isEof then
      return .done nodes
    else if tok.kind = .newline then
      return .yield (nodes ++ (← lineBreak? inner false).getD [])
    else if endsList (← source) ctx tok then
      if ctx.topLevel then return .yield (nodes ++ [← strayCloser tok]) else return .done nodes
    else
      listItemStep inner ctx nodes
  else
    return .done nodes

def statements (inner : Nested) (ctx : ListContext) : Parse (List Node) :=
  repeatStep (listStep inner ctx) []

end Grammar
end ShellTree
