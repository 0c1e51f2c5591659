import ShellTree.Parse.Token

/-!
This module contains the points at which the grammar refers back to itself. A construct is a plain
function of the constructs that it may contain, and all of them are tied together in one place.
-/

namespace ShellTree

/-- What ends a list of statements besides the end of the input and closing keywords. -/
structure ListContext where
  /-- There is no enclosing construct, so that its closers are errors. -/
  topLevel : Bool := false
  /-- The operators that end a case item end the list. -/
  inCaseItem : Bool := false
deriving DecidableEq, Repr

inductive Tier where
  /-- All operators. -/
  | list
  /-- Pipes only. -/
  | pipeline
  /-- No operator. -/
  | command
deriving DecidableEq, Repr

/-- The constructs that others contain. They are called only after a part of the enclosing construct
is taken. -/
structure Nested where
  statements : ListContext → Parse (List Node)
  statement : Tier → Parse (Option Node)
  redirect : Parse (Option Node)
  literal : Parse (Option Node)
  fragment : Parse (Option Node)
  arithmetic : Nat → Parse (Option Node)
  arithmeticOperand : Parse (Option Node)
  test : Parse (Option Node)
  testOperand : Parse (Option Node)

def Nested.none : Nested where
  statements _ := throw .outOfFuel
  statement _ := throw .outOfFuel
  redirect := throw .outOfFuel
  literal := throw .outOfFuel
  fragment := throw .outOfFuel
  arithmetic _ := throw .outOfFuel
  arithmeticOperand := throw .outOfFuel
  test := throw .outOfFuel
  testOperand := throw .outOfFuel

end ShellTree
