import ShellTree.Grammar.Literal

/-!
This module contains tests: the expressions in `[ ... ]` and `[[ ... ]]`, which have one grammar,
and the commands that hold them.
-/

namespace ShellTree
namespace Grammar

open Parse

def reportTestOperand (anchor : Anchor) : Parse Unit := do
  let tok ← peek
  report (.expectedOperandInTest anchor tok.text) tok.span

def testOperandAfter (op : String) (operand : Parse (Option Node)) : Parse (List Node) := do
  match ← operand with
  | some node => return [node]
  | none =>
    reportTestOperand (.operator op)
    return []

def rowOperator? (row : Operator.Row) (tok : Token) : Option String :=
  match tok.kind with
  | .operator op => if row.operators.contains op then some op else none
  | .testOperator => if row.operators.contains tok.text then some tok.text else none
  | _ => none

/-- The token ends an operand: a letter option before it is a word. -/
def endsTestOperand (tok : Token) : Bool :=
  match tok.kind with
  | .eof | .newline => true
  | .operator op => ["]", "]]", ")"].contains op || Operator.isBinaryTest op
  | .testOperator => Operator.isBinaryTest tok.text
  | _ => false

/-- A letter option is a word here, since no operand follows it. -/
def isOptionWord (tok : Token) : Parse Bool := do
  let following ← lookAhead do
    setPosition tok.span.stop
    peek
  return endsTestOperand following

def parenthesizedTest (inner : Nested) (opener : Token) : Parse Node := do
  let leaf ← tokenLeaf opener
  let content ← testOperandAfter "(" inner.test
  let close ← expectOperator ")" .parenthesizedTest opener.span.start
  node .parenthesizedExpression (leaf :: content ++ close)

def testPrimary (inner : Nested) : Parse (Option Node) := do
  let tok ← peek
  match tok.kind with
  | .operator "(" => return some (← parenthesizedTest inner tok)
  | .testOperator => return some (← leafAt .word tok.span)
  | _ => literal inner

def testUnary (tok : Token) (operand : Parse (Option Node)) : Parse Node := do
  let op ← tokenLeaf tok
  let operand ← testOperandAfter tok.text operand
  node .unaryExpression (op :: operand)

/-- An operand with the operators before it and without the nesting level that it takes. -/
def testOperandBody (inner : Nested) : Parse (Option Node) := do
  let tok ← peek
  if tok.isOperator "!" then
    return some (← testUnary tok inner.testOperand)
  else if tok.kind = .testOperator then
    if ← isOptionWord tok then
      testPrimary inner
    else
      return some (← testUnary tok (testPrimary inner))
  else
    testPrimary inner

def testOperand (inner : Nested) : Parse (Option Node) := nest (testOperandBody inner)

/-- The right side of `=~`: a pattern, or an operand where a quote or a dollar sign comes next. -/
def regexOperand (inner : Nested) : Parse (Option Node) := do
  match ← peekRegex false with
  | some regex => return some (← tokenLeaf regex)
  | none => testPrimary inner

/-- Join the test on the left with what an operator of the row brings. The right operands are of
the tighter rows. -/
def testStep (inner : Nested) (row : Operator.Row) (tighter : Parse (Option Node)) (left : Node) :
    Parse (ForInStep Node) := do
  let tok ← peek
  match rowOperator? row tok with
  | none => return .done left
  | some op =>
    let leaf ← leafAt (.token op) tok.span
    let right ← testOperandAfter op (if op = "=~" then regexOperand inner else tighter)
    return .yield (← node .binaryExpression (left :: leaf :: right))

def testRows (inner : Nested) : List Operator.Row → Parse (Option Node)
  | [] => testOperand inner
  | row :: rows => do
    match ← testRows inner rows with
    | none => return none
    | some left => return some (← repeatStep (testStep inner row (testRows inner rows)) left)

def test (inner : Nested) : Parse (Option Node) := testRows inner Operator.testRows

/-- Take what stands before the closing bracket. A line break inside `[ ... ]` ends the command. The
second part of the result is the closing bracket. -/
def testJunkStep (inner : Nested) (closer : String) (construct : Construct) (start : Nat)
    (junk : List Node × List Node) : Parse (ForInStep (List Node × List Node)) := do
  let tok ← peek
  if tok.isOperator closer then
    return .done (junk.1, [← tokenLeaf tok])
  else if tok.isEof then
    reportUnclosed (.construct construct closer) start
    return .done junk
  else if tok.kind = .newline then
    report (.expectedBeforeEndOfLine closer) tok.span
    return .done junk
  else
    if junk.1.isEmpty && tok.kind ≠ .error then
      report (.unexpectedIn tok.text construct) tok.span
    match ← literal inner with
    | some literal => return .yield (junk.1 ++ [literal], [])
    | none => return .yield (junk.1 ++ [← tokenLeaf tok], [])

/-- The closing bracket of a test. What stands before it becomes an error node. -/
def testClose (inner : Nested) (closer : String) (construct : Construct) (start : Nat) :
    Parse (List Node) := do
  let (junk, close) ← repeatStep (testJunkStep inner closer construct start) ([], [])
  return (← errorAround junk) ++ close

def testContent (inner : Nested) (closer : String) (construct : Construct) :
    Parse (List Node) := do
  if (← peek).isOperator closer then
    return []
  else
    match ← test inner with
    | some expression => return [expression]
    | none =>
      let tok ← peek
      if tok.kind ≠ .error && !tok.isEof then
        reportTestOperand (.construct construct)
      return []

def testCommand (inner : Nested) : Parse Node := do
  let opener ← peekStatement
  let (mode, closer, construct) :=
    if opener.text == "[[" then (Mode.doubleTest, "]]", Construct.doubleBracketTest)
    else (Mode.test, "]", Construct.bracketTest)
  let leaf ← keywordLeaf opener
  let parts ← inMode mode <| withFlags {} do
    let content ← testContent inner closer construct
    let close ← testClose inner closer construct opener.span.start
    return content ++ close
  node .testCommand (leaf :: parts)

end Grammar
end ShellTree
