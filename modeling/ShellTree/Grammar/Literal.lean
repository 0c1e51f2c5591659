import ShellTree.Grammar.Expansion
import ShellTree.Grammar.Substitution
import ShellTree.Grammar.Text

/-!
This module contains literals: fragments with nothing between them. Several fragments make a
concatenation.
-/

namespace ShellTree

def Token.isLiteralStart (tok : Token) : Bool :=
  match tok.kind with
  | .word | .rawString | .ansiCString => true
  | .operator op => Operator.fragmentOpeners.contains op
  | _ => false

/-- A decimal or hexadecimal numeral, with the digits of another base after a `#`. Hexadecimal
letters do not count. -/
def isNumber (text : String) : Bool :=
  match text.toList with
  | '0' :: 'x' :: cs => isNumeral cs
  | cs => isNumeral cs
where
  isNumeral (cs : List Char) : Bool :=
    !(cs.takeWhile Char.isDigit).isEmpty &&
      match cs.dropWhile Char.isDigit with
      | [] => true
      | '#' :: ds => !ds.isEmpty && ds.all fun d => d.isAlphanum || d == '@' || d == '_'
      | _ => false

namespace Grammar

open Parse

/-- A quote ends the single-quoted string and is not the quote that opens it. -/
def isClosedRawString (text : String) : Bool :=
  text.length ≥ 2 && text.toList.getLast? == some '\''

/-- The rest of an ANSI-C string ends with its first quote that no backslash hides. -/
def closesAnsiC : List Char → Bool
  | [] => false
  | '\\' :: _ :: cs => closesAnsiC cs
  | c :: cs => if c == '\'' then cs.isEmpty else closesAnsiC cs

def wordLeaf (tok : Token) : Parse Node :=
  leafAt (if isNumber tok.text then .number else .word) tok.span

def rawString (tok : Token) : Parse Node := do
  if !isClosedRawString tok.text then
    reportUnclosed .singleQuotedString tok.span.start
  tokenLeaf tok

def ansiCString (tok : Token) : Parse Node := do
  if !closesAnsiC (tok.text.toList.drop 2) then
    reportUnclosed .ansiCString tok.span.start
  tokenLeaf tok

def dollar (inner : Nested) (tok : Token) : Parse Node := do
  let leaf ← tokenLeaf tok
  if (← upcoming).head? == some '"' then
    let string ← doubleQuoted inner
    node .stringExpansion [leaf, string]
  else
    let name ← simpleParameter
    node .simpleExpansion (leaf :: name)

def fragmentOf (inner : Nested) (tok : Token) : Parse Node :=
  match tok.kind with
  | .word => wordLeaf tok
  | .rawString => rawString tok
  | .ansiCString => ansiCString tok
  | .operator "\"" => doubleQuoted inner
  | .operator "$" => dollar inner tok
  | .operator "$\x7b" => expansion inner
  | .operator "$(" => commandSubstitution inner
  | .operator "$((" => arithmeticExpansion inner
  | .operator "`" => backtickSubstitution inner
  | _ => processSubstitution inner

/-- A fragment of a literal, one nesting level deep. -/
def fragment (inner : Nested) : Parse (Option Node) := do
  let tok ← peek
  if tok.isLiteralStart then
    nest do return some (← fragmentOf inner tok)
  else
    return none

/-- Take the fragment that is glued to the ones before it. -/
def literalStep (inner : Nested) (parts : List Node) : Parse (ForInStep (List Node)) := do
  let tok ← peek
  if tok.adjacent && tok.isLiteralStart then
    match ← fragment inner with
    | some part => return .yield (parts ++ [part])
    | none => return .done parts
  else
    return .done parts

/-- A fragment and all that are glued to it. -/
def literal (inner : Nested) : Parse (Option Node) := do
  match ← fragment inner with
  | none => return none
  | some first =>
    match ← repeatStep (literalStep inner) [first] with
    | [only] => return some only
    | parts => return some (← node .concatenation parts)

end Grammar
end ShellTree
