import ShellTree.Grammar.Assignment
import ShellTree.Grammar.Redirect

/-!
This module contains simple commands and the builtins that declare and remove variables.
-/

namespace ShellTree
namespace Grammar

open Parse

/-- The token begins a redirect that can stand inside a command. Here-documents end a command. -/
def isInnerRedirect (tok : Token) : Parse Bool := do
  if tok.isRedirectStart then return !(← isHeredocStart tok) else return false

def commandHeadStep (inner : Nested) (parts : List Node) : Parse (ForInStep (List Node)) := do
  let tok ← peekAssignment
  if tok.kind = .variableName then
    return .yield (parts ++ [← assignment inner])
  else if ← isInnerRedirect tok then
    match ← redirect inner with
    | some redirect => return .yield (parts ++ [redirect])
    | none => return .done parts
  else
    return .done parts

def redirectBeforeArgument? (inner : Nested) : Parse (Option Node) := do
  match ← redirect inner with
  | some redirect => return if (← peek).isLiteralStart then some redirect else none
  | none => return none

/-- Take an argument of a command. A redirect belongs to the command only if more arguments follow
it. -/
def argumentStep (inner : Nested) (parts : List Node) : Parse (ForInStep (List Node)) := do
  let tok ← peek
  if tok.isLiteralStart then
    match ← literal inner with
    | some argument => return .yield (parts ++ [argument])
    | none => return .done parts
  else if ← isInnerRedirect tok then
    match ← attempt (redirectBeforeArgument? inner) with
    | some redirect => return .yield (parts ++ [redirect])
    | none => return .done parts
  else
    return .done parts

/-- What stands before the name of a command, where no name follows: assignments on their own, or a
command without a name. -/
def namelessCommand (head : List Node) (tok : Token) : Parse Node := do
  if !head.isEmpty && head.all (·.kind == .variableAssignment) then
    match head with
    | [only] => return only
    | _ => node .variableAssignments head
  else
    if head.isEmpty then
      report (.expectedPart .command tok.text) tok.span
    node .command head

/-- A simple command: assignments and redirects, the name, the arguments. -/
def command (inner : Nested) : Parse Node := do
  let head ← repeatStep (commandHeadStep inner) []
  let tok ← peek
  match ← literal inner with
  | some name =>
    let name ← node .commandName [name]
    let parts ← repeatStep (argumentStep inner) (head ++ [name])
    node .command parts
  | none => namelessCommand head tok

def isNameArgument (src : Source) (tok : Token) : Bool :=
  isBareWord src tok && isName tok.text.toList

def declarationStep (inner : Nested) (parts : List Node) : Parse (ForInStep (List Node)) := do
  let tok ← peekAssignment
  if tok.kind = .variableName then
    return .yield (parts ++ [← assignment inner])
  else if isNameArgument (← source) tok then
    return .yield (parts ++ [← leafAt .variableName tok.span])
  else
    match ← literal inner with
    | some argument => return .yield (parts ++ [argument])
    | none => return .done parts

def declaration (inner : Nested) : Parse Node := do
  let keyword ← keywordLeaf (← peekStatement)
  node .declarationCommand (← repeatStep (declarationStep inner) [keyword])

def unsetStep (inner : Nested) (parts : List Node) : Parse (ForInStep (List Node)) := do
  let tok ← peek
  if isNameArgument (← source) tok then
    return .yield (parts ++ [← leafAt .variableName tok.span])
  else
    match ← literal inner with
    | some argument => return .yield (parts ++ [argument])
    | none => return .done parts

def unset (inner : Nested) : Parse Node := do
  let keyword ← keywordLeaf (← peekStatement)
  node .unsetCommand (← repeatStep (unsetStep inner) [keyword])

end Grammar
end ShellTree
