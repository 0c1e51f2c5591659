import ShellTree.Grammar.Subscript

/-!
This module contains parameter expansions: `$name`, and a name with operators in braces.
-/

namespace ShellTree
namespace Grammar

open Parse

/-- The leaf of a parameter's name. `0` and `_` are special parameters. -/
def nameLeaf (name : List Char) : Parse Node := do
  let kind := if name = ['0'] || name = ['_'] then NodeKind.specialVariableName else .variableName
  leafAt kind (.ofWidth (← position) (byteLength name))

/-- The parameter after a dollar sign. A digit is a parameter of its own. -/
def simpleParameter : Parse (List Node) := do
  match ← upcoming with
  | [] => return []
  | c :: cs =>
    if isSpecialParameter c then
      return [← leafAt .specialVariableName (.ofWidth (← position) 1)]
    else if c.isDigit then
      return [← nameLeaf [c]]
    else
      return [← nameLeaf (Lexeme.nameRun (c :: cs))]

def parameterSign : Parse (List Node) := do
  match ← upcoming with
  | c :: d :: _ =>
    if (c == '#' || c == '!') && (isNameChar d || d == '@' || d == '*') then
      return [← takeText (String.ofList [c])]
    else
      return []
  | _ => return []

/-- The parameter with its subscript; nothing when there is no name. -/
def parameter (inner : Nested) : Parse (List Node) := do
  match ← upcoming with
  | [] => return []
  | c :: cs =>
    if isNameChar c then
      subscripted (← nameLeaf (Lexeme.nameRun (c :: cs)))
    else if isSpecialParameter c then
      subscripted (← leafAt .specialVariableName (.ofWidth (← position) 1))
    else
      return []
where
  subscripted (name : Node) : Parse (List Node) := do
    if (← upcoming).head? == some '[' then return [← subscript inner name] else return [name]

def substitutionPattern : Parse (List Node) := do
  let pattern ← (← peekRegex true).toList.mapM tokenLeaf
  if (← upcoming).head? == some '/' then
    return pattern ++ [← takeText "/"]
  else
    return pattern

def expansionOperator : Parse (List Node) := do
  match Operator.matching? Operator.expansion (← upcoming) with
  | some op =>
    let leaf ← takeText op
    if Operator.substitutions.contains op then
      return leaf :: (← substitutionPattern)
    else
      return [leaf]
  | none => return []

def expansionStep (inner : Nested) (start : Nat) (parts : List Node) :
    Parse (ForInStep (List Node)) := do
  let tok ← peek
  if tok.isOperator "\x7d" then
    return .done (parts ++ [← tokenLeaf tok])
  else if tok.isEof then
    reportUnclosed (.construct .parameterExpansion "\x7d") start
    return .done parts
  else
    match ← inner.literal with
    | some literal => return .yield (parts ++ [literal])
    | none => return .yield (parts ++ [← tokenLeaf tok])

def expansionBody (inner : Nested) (start : Nat) : Parse (List Node) := do
  let sign ← parameterSign
  let name ← parameter inner
  let operator ← if name.isEmpty then pure [] else expansionOperator
  repeatStep (expansionStep inner start) (sign ++ name ++ operator)

def expansion (inner : Nested) : Parse Node := do
  let opener ← peek
  let leaf ← tokenLeaf opener
  let flags : Flags := { inExpansion := true, stopAtBrace := true, newlineTrivia := true }
  let parts ← inMode .command (withFlags flags (expansionBody inner opener.span.start))
  node .expansion (leaf :: parts)

end Grammar
end ShellTree
