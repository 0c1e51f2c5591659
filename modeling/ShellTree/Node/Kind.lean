/-!
This module contains the kinds of tree nodes and their names. A named kind has a fixed name; an
anonymous token is named by its own text.
-/

namespace ShellTree

inductive NodeKind where
  | program
  | pipeline
  | list
  | redirectedStatement
  | subshell
  | compoundStatement
  | forStatement
  | cStyleForStatement
  | whileStatement
  | doGroup
  | ifStatement
  | elifClause
  | elseClause
  | caseStatement
  | caseItem
  | functionDefinition
  | variableAssignment
  | variableAssignments
  | declarationCommand
  | unsetCommand
  | negatedCommand
  | testCommand
  | command
  | commandName
  | fileRedirect
  | fileDescriptor
  | heredocRedirect
  | heredocStart
  | heredocBody
  | heredocEnd
  | herestringRedirect
  | binaryExpression
  | unaryExpression
  | parenthesizedExpression
  | testOperator
  | binaryArithmeticExpression
  | unaryArithmeticExpression
  | postfixArithmeticExpression
  | ternaryArithmeticExpression
  | parenthesizedArithmeticExpression
  | concatenation
  | word
  | string
  | rawString
  | ansiCString
  | number
  | expansion
  | simpleExpansion
  | stringExpansion
  | commandSubstitution
  | processSubstitution
  | arithmeticExpansion
  | array
  | regex
  | variableName
  | specialVariableName
  | subscript
  | comment
  | error
  /-- A keyword, operator or delimiter. -/
  | token (text : String)
  /-- Plain text inside a string or the body of a here-document. -/
  | content
deriving DecidableEq, Repr

namespace NodeKind

def name : NodeKind → String
  | program => "program"
  | pipeline => "pipeline"
  | list => "list"
  | redirectedStatement => "redirected_statement"
  | subshell => "subshell"
  | compoundStatement => "compound_statement"
  | forStatement => "for_statement"
  | cStyleForStatement => "c_style_for_statement"
  | whileStatement => "while_statement"
  | doGroup => "do_group"
  | ifStatement => "if_statement"
  | elifClause => "elif_clause"
  | elseClause => "else_clause"
  | caseStatement => "case_statement"
  | caseItem => "case_item"
  | functionDefinition => "function_definition"
  | variableAssignment => "variable_assignment"
  | variableAssignments => "variable_assignments"
  | declarationCommand => "declaration_command"
  | unsetCommand => "unset_command"
  | negatedCommand => "negated_command"
  | testCommand => "test_command"
  | command => "command"
  | commandName => "command_name"
  | fileRedirect => "file_redirect"
  | fileDescriptor => "file_descriptor"
  | heredocRedirect => "heredoc_redirect"
  | heredocStart => "heredoc_start"
  | heredocBody => "heredoc_body"
  | heredocEnd => "heredoc_end"
  | herestringRedirect => "herestring_redirect"
  | binaryExpression => "binary_expression"
  | unaryExpression => "unary_expression"
  | parenthesizedExpression => "parenthesized_expression"
  | testOperator => "test_operator"
  | binaryArithmeticExpression => "binary_arithmetic_expression"
  | unaryArithmeticExpression => "unary_arithmetic_expression"
  | postfixArithmeticExpression => "postfix_arithmetic_expression"
  | ternaryArithmeticExpression => "ternary_arithmetic_expression"
  | parenthesizedArithmeticExpression => "parenthesized_arithmetic_expression"
  | concatenation => "concatenation"
  | word => "word"
  | string => "string"
  | rawString => "raw_string"
  | ansiCString => "ansii_c_string"
  | number => "number"
  | expansion => "expansion"
  | simpleExpansion => "simple_expansion"
  | stringExpansion => "string_expansion"
  | commandSubstitution => "command_substitution"
  | processSubstitution => "process_substitution"
  | arithmeticExpansion => "arithmetic_expansion"
  | array => "array"
  | regex => "regex"
  | variableName => "variable_name"
  | specialVariableName => "special_variable_name"
  | subscript => "subscript"
  | comment => "comment"
  | error => "ERROR"
  | token text => text
  | content => "content"

def fixed : List NodeKind :=
  [program, pipeline, list, redirectedStatement, subshell, compoundStatement, forStatement,
    cStyleForStatement, whileStatement, doGroup, ifStatement, elifClause, elseClause,
    caseStatement, caseItem, functionDefinition, variableAssignment, variableAssignments,
    declarationCommand, unsetCommand, negatedCommand, testCommand, command, commandName,
    fileRedirect, fileDescriptor, heredocRedirect, heredocStart, heredocBody, heredocEnd,
    herestringRedirect, binaryExpression, unaryExpression, parenthesizedExpression, testOperator,
    binaryArithmeticExpression, unaryArithmeticExpression, postfixArithmeticExpression,
    ternaryArithmeticExpression, parenthesizedArithmeticExpression, concatenation, word, string,
    rawString, ansiCString, number, expansion, simpleExpansion, stringExpansion,
    commandSubstitution, processSubstitution, arithmeticExpansion, array, regex, variableName,
    specialVariableName, subscript, comment, error, content]

def ofName (text : String) : NodeKind := (fixed.find? (·.name == text)).getD (token text)

/-- Named kinds appear in s-expressions, anonymous tokens and plain text do not. -/
def isNamed : NodeKind → Bool
  | token _ => false
  | content => false
  | _ => true

end NodeKind

end ShellTree
