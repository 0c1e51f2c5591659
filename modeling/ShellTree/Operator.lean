/-!
This module contains the operators of the shell's sublanguages: the spellings that the lexer knows,
longest first, the sets that the grammar asks for, and the two tables of binary operators from the
loosest row to the tightest.
-/

namespace ShellTree
namespace Operator

/-- Command operators, longest first. -/
def command : List String :=
  [";;&", "<<<", "<<-", "&>>", ";;", ";&", "&&", "||", "|&", "<<", ">>", "<&", ">&", ">|", "<>",
    "&>", "<(", ">(", "((", ";", "&", "|", "<", ">", "(", ")"]

/-- Test operators, longest first. -/
def test : List String :=
  ["&&", "||", "==", "!=", "=~", "<=", ">=", "<", ">", "=", "!", "(", ")"]

/-- Arithmetic operators, longest first. -/
def arithmetic : List String :=
  ["<<=", ">>=", "**", "++", "--", "+=", "-=", "*=", "/=", "%=", "|=", "^=", "&=", "<<", ">>",
    "<=", ">=", "==", "!=", "&&", "||", "+", "-", "*", "/", "%", "<", ">", "=", "!", "~", "&",
    "|", "^", "?", ":", ",", "(", ")", "[", "]", ";"]

/-- Operators of parameter expansion, longest first. -/
def expansion : List String :=
  [":-", ":=", ":?", ":+", "//", "/#", "/%", "##", "%%", "^^", ",,", "/", "#", "%", "^", ",",
    ":", "-", "=", "?", "+", "@"]

def substitutions : List String := ["/", "//", "/#", "/%"]

def lists : List String := ["&&", "||"]

def pipes : List String := ["|", "|&"]

def redirects : List String :=
  ["<", ">", ">>", "&>", "&>>", "<&", ">&", ">|", "<>", "<<", "<<-", "<<<"]

def heredocs : List String := ["<<", "<<-"]

def terminators : List String := [";", "&"]

def caseTerminators : List String := [";;", ";&", ";;&"]

def fragmentOpeners : List String := ["\"", "`", "$", "$\x7b", "$(", "$((", "<(", ">("]

def arithmeticPrefixes : List String := ["-", "+", "!", "~", "++", "--"]

def arithmeticPostfixes : List String := ["++", "--"]

inductive Associativity where
  | left
  | right
deriving DecidableEq, Repr

structure Row where
  operators : List String
  associativity : Associativity
deriving DecidableEq, Repr

def testRows : List Row :=
  [⟨["||", "-o"], .left⟩,
   ⟨["&&", "-a"], .left⟩,
   ⟨["=", "==", "!=", "=~", "-eq", "-ne"], .left⟩,
   ⟨["<", "<=", ">", ">=", "-lt", "-le", "-gt", "-ge", "-nt", "-ot", "-ef"], .left⟩]

/-- The binary operators of arithmetic. The conditional expression has a row without operators. -/
def arithmeticRows : List Row :=
  [⟨[","], .left⟩,
   ⟨["=", "+=", "-=", "*=", "/=", "%=", "<<=", ">>=", "&=", "^=", "|="], .right⟩,
   ⟨[], .right⟩,
   ⟨["||"], .left⟩,
   ⟨["&&"], .left⟩,
   ⟨["|"], .left⟩,
   ⟨["^"], .left⟩,
   ⟨["&"], .left⟩,
   ⟨["==", "!="], .left⟩,
   ⟨["<", "<=", ">", ">="], .left⟩,
   ⟨["<<", ">>"], .left⟩,
   ⟨["+", "-"], .left⟩,
   ⟨["*", "/", "%"], .left⟩,
   ⟨["**"], .right⟩]

/-- The row of conditional expressions in `arithmeticRows`. -/
def conditionalRow : Nat := 2

def row? (rows : List Row) (text : String) : Option (Nat × Row) :=
  match rows with
  | [] => none
  | row :: rows =>
    if row.operators.contains text then some (0, row)
    else (row? rows text).map fun (level, row) => (level + 1, row)

def isBinaryTest (text : String) : Bool := testRows.any (·.operators.contains text)

/-- The first operator of the table with which the characters begin. -/
def matching? (operators : List String) (cs : List Char) : Option String :=
  operators.find? (·.toList.isPrefixOf cs)

end Operator
end ShellTree
