import ShellTree.Grammar.Literal

/-!
This module contains arithmetic expressions. Binary operators are climbed from row to row of the
table of operators; conditional expressions have a row of their own and group to the right.
-/

namespace ShellTree
namespace Grammar

open Parse

def reportOperand (op : String) : Parse Unit := do
  let tok ← peek
  report (.expectedOperand (.operator op)) tok.span

def operandAfter (op : String) (operand : Parse (Option Node)) : Parse (List Node) := do
  match ← operand with
  | some node => return [node]
  | none =>
    reportOperand op
    return []

/-- The operator and its row, if the token is an operator of the row or a tighter one. -/
def infixRow? (tok : Token) (minRow : Nat) : Option (Nat × String) :=
  match tok.kind with
  | .operator op =>
    let row := if op = "?" then some Operator.conditionalRow
      else (Operator.row? Operator.arithmeticRows op).map Prod.fst
    match row with
    | some row => if minRow ≤ row then some (row, op) else none
    | none => none
  | _ => none

/-- The loosest row that the right operand of a row's operators may have. -/
def rightRow (row : Nat) : Nat :=
  match Operator.arithmeticRows[row]? with
  | some ⟨_, .right⟩ => row
  | _ => row + 1

def conditional (inner : Nested) (condition : Node) (question : Token) : Parse Node := do
  let questionLeaf ← tokenLeaf question
  let whenTrue ← operandAfter "?" (inner.arithmetic 0)
  let colon ← peek
  if colon.isOperator ":" then
    let colonLeaf ← tokenLeaf colon
    let whenFalse ← operandAfter ":" (inner.arithmetic Operator.conditionalRow)
    node .ternaryArithmeticExpression
      ([condition, questionLeaf] ++ whenTrue ++ colonLeaf :: whenFalse)
  else
    report (.expectedToken ":" .conditionalExpression colon.text) colon.span
    node .ternaryArithmeticExpression ([condition, questionLeaf] ++ whenTrue)

def arithmeticSubscript (inner : Nested) (name : Node) : Parse Node := do
  let opener ← peek
  let leaf ← tokenLeaf opener
  let index ← operandAfter "[" (inner.arithmetic 0)
  let close ← expectOperator "]" .subscript name.span.start
  node .subscript (name :: leaf :: index ++ close)

def parenthesizedArithmetic (inner : Nested) (opener : Token) : Parse Node := do
  let leaf ← tokenLeaf opener
  let content ← operandAfter "(" (inner.arithmetic 0)
  let close ← expectOperator ")" .parenthesizedExpression opener.span.start
  node .parenthesizedArithmeticExpression (leaf :: content ++ close)

def arithmeticWord (inner : Nested) (tok : Token) : Parse Node := do
  if tok.text.toList.head?.any Char.isDigit then
    leafAt .number tok.span
  else if (← charactersAt tok.span.stop).head? == some '[' then
    arithmeticSubscript inner (← leafAt .variableName tok.span)
  else
    leafAt .word tok.span

/-- An operand without operators. A character that begins no token stands for one. -/
def arithmeticPrimary (inner : Nested) : Parse (Option Node) := do
  let tok ← peek
  match tok.kind with
  | .word => return some (← arithmeticWord inner tok)
  | .operator "(" => return some (← parenthesizedArithmetic inner tok)
  | .error => return some (← tokenLeaf tok)
  | _ => fragment inner

def arithmeticPostfix (inner : Nested) : Parse (Option Node) := do
  match ← arithmeticPrimary inner with
  | none => return none
  | some operand =>
    let tok ← peek
    if tok.adjacent && tok.isOneOf Operator.arithmeticPostfixes then
      let op ← tokenLeaf tok
      return some (← node .postfixArithmeticExpression [operand, op])
    else
      return some operand

/-- An operator before its operand, which is one nesting level deeper. -/
def arithmeticUnary (inner : Nested) (tok : Token) : Parse Node := do
  let op ← tokenLeaf tok
  let operand ← operandAfter tok.text (nest inner.arithmeticOperand)
  node .unaryArithmeticExpression (op :: operand)

def arithmeticOperand (inner : Nested) : Parse (Option Node) := do
  let tok ← peek
  if tok.isOneOf Operator.arithmeticPrefixes then
    return some (← arithmeticUnary inner tok)
  else
    arithmeticPostfix inner

/-- Join the expression on the left with what a binary operator of the row or a tighter one
brings. -/
def arithmeticStep (inner : Nested) (minRow : Nat) (left : Node) : Parse (ForInStep Node) := do
  let tok ← peek
  match infixRow? tok minRow with
  | none => return .done left
  | some (row, op) =>
    if row = Operator.conditionalRow then
      return .yield (← conditional inner left tok)
    else
      let leaf ← tokenLeaf tok
      let right ← operandAfter op (inner.arithmetic (rightRow row))
      return .yield (← node .binaryArithmeticExpression (left :: leaf :: right))

def arithmeticClimb (inner : Nested) (minRow : Nat) : Parse (Option Node) := do
  match ← arithmeticOperand inner with
  | none => return none
  | some left => return some (← repeatStep (arithmeticStep inner minRow) left)

/-- An expression whose operators are of the row or a tighter one, one nesting level deep. -/
def arithmetic (inner : Nested) (minRow : Nat) : Parse (Option Node) :=
  nest (arithmeticClimb inner minRow)

end Grammar
end ShellTree
