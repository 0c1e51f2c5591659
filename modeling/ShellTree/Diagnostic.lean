import ShellTree.Span

/-!
This module contains what a parse reports beside its tree: the causes of a report, their wording,
and the record that a caller sees.
-/

namespace ShellTree

inductive ErrorKind where
  /-- No token begins here. -/
  | lexFailure
  | syntaxError
  /-- The input ends inside a construct. -/
  | unterminatedConstruct
  | limitExceeded
  | cancelled
deriving DecidableEq, Repr

namespace ErrorKind

def display : ErrorKind → String
  | lexFailure => "lex failure"
  | syntaxError => "syntax error"
  | unterminatedConstruct => "unterminated construct"
  | limitExceeded => "limit exceeded"
  | cancelled => "cancelled"

def key : ErrorKind → String
  | lexFailure => "lex_failure"
  | syntaxError => "syntax_error"
  | unterminatedConstruct => "unterminated_construct"
  | limitExceeded => "limit_exceeded"
  | cancelled => "cancelled"

def ofKey? (key : String) : Option ErrorKind :=
  [lexFailure, syntaxError, unterminatedConstruct, limitExceeded, cancelled].find? (·.key == key)

end ErrorKind

inductive Construct where
  | ifStatement
  | elifClause
  | forLoop
  | selectLoop
  | forLoopHeader
  | whileLoop
  | untilLoop
  | caseStatement
  | caseItem
  | commandGroup
  | subshell
  | functionDefinition
  | bracketTest
  | doubleBracketTest
  | parenthesizedTest
  | arithmeticCommand
  | arithmeticExpansion
  | arithmeticExpression
  | conditionalExpression
  | parenthesizedExpression
  | commandSubstitution
  | processSubstitution
  | parameterExpansion
  | subscript
  | array
deriving DecidableEq, Repr

def Construct.name : Construct → String
  | ifStatement => "if statement"
  | elifClause => "elif clause"
  | forLoop => "for loop"
  | selectLoop => "select loop"
  | forLoopHeader => "for loop header"
  | whileLoop => "while loop"
  | untilLoop => "until loop"
  | caseStatement => "case statement"
  | caseItem => "case item"
  | commandGroup => "command group"
  | subshell => "subshell"
  | functionDefinition => "function definition"
  | bracketTest => "`[` test"
  | doubleBracketTest => "`[[` test"
  | parenthesizedTest => "parenthesized test"
  | arithmeticCommand => "arithmetic command"
  | arithmeticExpansion => "arithmetic expansion"
  | arithmeticExpression => "arithmetic expression"
  | conditionalExpression => "conditional expression"
  | parenthesizedExpression => "parenthesized expression"
  | commandSubstitution => "command substitution"
  | processSubstitution => "process substitution"
  | parameterExpansion => "parameter expansion"
  | subscript => "subscript"
  | array => "array"

def quoted (text : String) : String := "`" ++ text ++ "`"

inductive Unclosed where
  | construct (construct : Construct) (closer : String)
  | singleQuotedString
  | ansiCString
  | doubleQuotedString
  /-- The body of a here-document has no line with its delimiter. -/
  | heredocBody (delimiter : String)
  /-- The input ends before the body of a here-document begins. -/
  | heredocStart (delimiter : String)
deriving DecidableEq, Repr

def Unclosed.describe : Unclosed → String
  | .construct inner closer => inner.name ++ ": expected " ++ quoted closer
  | .singleQuotedString => "single-quoted string"
  | .ansiCString => "ANSI-C string"
  | .doubleQuotedString => "double-quoted string"
  | .heredocBody delimiter => "heredoc: no " ++ quoted delimiter ++ " line"
  | .heredocStart delimiter =>
    "heredoc: no " ++ quoted delimiter ++ " line before end of input"

inductive Part where
  | loopVariable
  | caseSubject
  | casePattern
  | functionName
  | functionBody
  | redirectOperator
  | command
deriving DecidableEq, Repr

def Part.describe : Part → String
  | .loopVariable => "a loop variable"
  | .caseSubject => "a word after `case`"
  | .casePattern => "a case pattern"
  | .functionName => "a function name"
  | .functionBody => "a function body"
  | .redirectOperator => "a redirect operator"
  | .command => "a command"

inductive Anchor where
  | operator (text : String)
  | construct (construct : Construct)
deriving DecidableEq, Repr

def Anchor.describe : Anchor → String
  | .operator text => quoted text
  | .construct inner => inner.name

inductive Cause where
  | unexpectedCharacter (text : String)
  | unexpected (text : String)
  | unexpectedIn (text : String) (construct : Construct)
  | outsideCaseItem (text : String)
  | expectedToken (expected : String) (construct : Construct) (found : String)
  | expectedPart (part : Part) (found : String)
  | expectedCommandAfter (operator : String)
  | expectedDelimiterAfter (operator : String)
  /-- A redirect without a target; nothing is found at the end of the input. -/
  | expectedTargetAfter (operator : String) (found : Option String)
  | expectedOperandInTest (anchor : Anchor) (found : String)
  | expectedOperand (anchor : Anchor)
  | expectedBeforeEndOfLine (closer : String)
  | expectedEqualsInAssignment
  | expectedBracketForSubscript
  | unterminated (what : Unclosed)
  | nestingTooDeep (limit : Nat)
  | tooManyStatements (limit : Nat)
  | parseCancelled
deriving DecidableEq, Repr

namespace Cause

def kind : Cause → ErrorKind
  | unexpectedCharacter _ => .lexFailure
  | unterminated _ => .unterminatedConstruct
  | nestingTooDeep _ => .limitExceeded
  | tooManyStatements _ => .limitExceeded
  | parseCancelled => .cancelled
  | _ => .syntaxError

def message : Cause → String
  | unexpectedCharacter text => "unexpected character " ++ quoted text
  | unexpected text => "unexpected " ++ quoted text
  | unexpectedIn text construct => "unexpected " ++ quoted text ++ " in " ++ construct.name
  | outsideCaseItem text => quoted text ++ " outside a case item"
  | expectedToken expected construct found =>
    "expected " ++ quoted expected ++ " in " ++ construct.name ++ ", found " ++ quoted found
  | expectedPart part found => "expected " ++ part.describe ++ ", found " ++ quoted found
  | expectedCommandAfter operator => "expected a command after " ++ quoted operator
  | expectedDelimiterAfter operator => "expected a heredoc delimiter after " ++ quoted operator
  | expectedTargetAfter operator none => "expected a redirect target after " ++ quoted operator
  | expectedTargetAfter operator (some found) =>
    "expected a redirect target after " ++ quoted operator ++ ", found " ++ quoted found
  | expectedOperandInTest anchor found =>
    "expected an operand after " ++ anchor.describe ++ ", found " ++ quoted found
  | expectedOperand anchor => "expected an operand after " ++ anchor.describe
  | expectedBeforeEndOfLine closer => "expected " ++ quoted closer ++ " before end of line"
  | expectedEqualsInAssignment => "expected `=` in assignment"
  | expectedBracketForSubscript => "expected `]` to close subscript"
  | unterminated what => "unterminated " ++ what.describe
  | nestingTooDeep limit => "nesting deeper than " ++ toString limit ++ " levels"
  | tooManyStatements limit => "more than " ++ toString limit ++ " statement boundaries"
  | parseCancelled => "parse cancelled"

end Cause

structure ErrorRecord where
  kind : ErrorKind
  span : Span
  line : Nat
  column : Nat
  message : String
deriving DecidableEq, Repr

def ErrorRecord.display (error : ErrorRecord) : String :=
  error.kind.display ++ " at " ++ toString error.line ++ ":" ++ toString error.column ++ ": " ++
    error.message

structure Diagnostic where
  cause : Cause
  span : Span
  line : Nat
  column : Nat
deriving DecidableEq, Repr

def Diagnostic.kind (diagnostic : Diagnostic) : ErrorKind := diagnostic.cause.kind

def Diagnostic.record (diagnostic : Diagnostic) : ErrorRecord where
  kind := diagnostic.cause.kind
  span := diagnostic.span
  line := diagnostic.line
  column := diagnostic.column
  message := diagnostic.cause.message

end ShellTree
