import ShellTree.Span

/-!
This module contains the tokens of a script and the conditions under which they are read.
-/

namespace ShellTree

inductive TokenKind where
  | eof
  | newline
  | operator (text : String)
  | word
  | fileDescriptor
  /-- A name right before `=` or `+=`, or before a subscript and one of them. -/
  | variableName
  | testOperator
  | rawString
  | ansiCString
  | regex
  | backtickClose
  | error
deriving DecidableEq, Repr

/-- A token with the text that it covers. It is adjacent when no trivia precedes it. -/
structure Token where
  kind : TokenKind
  span : Span
  text : String
  adjacent : Bool
deriving DecidableEq, Repr

namespace Token

/-- The end of the input, or of what is read of it. -/
def endAt (offset : Nat) (adjacent : Bool) : Token := ⟨.eof, .empty offset, "", adjacent⟩

def isOperator (tok : Token) (text : String) : Bool := tok.kind == .operator text

def isOneOf (tok : Token) (operators : List String) : Bool :=
  match tok.kind with
  | .operator text => operators.contains text
  | _ => false

def isEof (tok : Token) : Bool := tok.kind == .eof

end Token

inductive Mode where
  | command
  | test
  | doubleTest
  | arithmetic
  /-- Command mode while here-documents wait for their bodies: line breaks always matter. -/
  | heredocPending
deriving DecidableEq, Repr

structure Flags where
  assignment : Bool := false
  statementStart : Bool := false
  /-- `\x7d` closes the enclosing construct. -/
  stopAtBrace : Bool := false
  stopAtBracket : Bool := false
  stopAtBacktick : Bool := false
  /-- Inside a parameter expansion, where operators are word characters. -/
  inExpansion : Bool := false
  newlineTrivia : Bool := false
deriving DecidableEq, Repr

end ShellTree
