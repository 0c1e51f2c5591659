import ShellTree.Lexeme.Dollar
import ShellTree.Lexeme.HeredocMarker
import ShellTree.Lexeme.Name
import ShellTree.Lexeme.Regex
import ShellTree.Lexeme.Word
import ShellTree.Operator
import ShellTree.Trivia

/-!
This module contains the lexer. It is positional: a request names an offset, a mode and flags, and
is answered with one token and the comments before it. Nothing is remembered between requests.
-/

namespace ShellTree
namespace Lexer

abbrev Match := TokenKind × List Char

/-- A word, or one character as an error where no word starts. -/
def wordOrError (flags : Flags) (cs : List Char) : Match :=
  match Lexeme.word flags cs with
  | [] => (.error, cs.take 1)
  | w => (.word, w)

def closer? (flags : Flags) : List Char → Option Match
  | '\x7d' :: _ => if flags.stopAtBrace then some (.operator "\x7d", ['\x7d']) else none
  | ']' :: _ => if flags.stopAtBracket then some (.operator "]", [']']) else none
  | '\x60' :: _ => if flags.stopAtBacktick then some (.backtickClose, ['\x60']) else none
  | _ => none

/-- The command operators that can stand here: `((` opens an arithmetic command only. -/
def admitsCommandOperator (flags : Flags) (cs : List Char) (op : String) : Bool :=
  op.toList.isPrefixOf cs &&
    (op != "((" || (flags.statementStart && DoubleParen.opensArithmetic (cs.drop 2)))

def commandOperator? (flags : Flags) (cs : List Char) : Option Match :=
  (Operator.command.find? (admitsCommandOperator flags cs)).map fun op =>
    (.operator op, op.toList)

/-- A redirect's file descriptor or an operator; neither exists inside an expansion. -/
def commandSeparator? (flags : Flags) (cs : List Char) : Option Match :=
  if flags.inExpansion then
    none
  else
    match Lexeme.fileDescriptor? cs with
    | some digits => some (.fileDescriptor, digits)
    | none => commandOperator? flags cs

def assignmentTarget? (flags : Flags) (cs : List Char) : Option Match :=
  if flags.assignment then
    (Lexeme.variableName? cs).map fun name => (.variableName, name)
  else
    none

def command (flags : Flags) (cs : List Char) : Match :=
  closer? flags cs
    <|> Lexeme.quoteOrDollar? cs
    <|> commandSeparator? flags cs
    <|> assignmentTarget? flags cs
    |>.getD (wordOrError flags cs)

/-- The closing bracket of a test, before a blank or an operator. -/
def testCloser? (closer : String) (cs : List Char) : Option Match :=
  if closer.toList.isPrefixOf cs && Lexeme.atTestBoundary (cs.drop closer.length) then
    some (.operator closer, closer.toList)
  else
    none

/-- The test operators that can stand here: equality signs and negation need a boundary. -/
def admitsTestOperator (cs : List Char) (op : String) : Bool :=
  op.toList.isPrefixOf cs &&
    (!(cs.head? == some '=' || cs.head? == some '!') || Lexeme.atTestBoundary (cs.drop op.length))

def testOperator? (cs : List Char) : Option Match :=
  (Operator.test.find? (admitsTestOperator cs)).map fun op => (.operator op, op.toList)

def letterOperator? : List Char → Option Match
  | '-' :: cs =>
    let letters := cs.takeWhile Char.isAlpha
    if !letters.isEmpty && Lexeme.atTestBoundary (cs.dropWhile Char.isAlpha) then
      some (.testOperator, '-' :: letters)
    else
      none
  | _ => none

def test (closer : String) (flags : Flags) (cs : List Char) : Match :=
  testCloser? closer cs
    <|> closer? { stopAtBacktick := flags.stopAtBacktick } cs
    <|> Lexeme.quoteOrDollar? cs
    <|> testOperator? cs
    <|> letterOperator? cs
    |>.getD (wordOrError flags cs)

def isNumeralChar (c : Char) : Bool := c.isAlphanum || c == '_' || c == '#' || c == '@'

def operand? : List Char → Option Match
  | [] => none
  | c :: cs =>
    if isNameStart c then some (.word, c :: cs.takeWhile isNameChar)
    else if c.isDigit then some (.word, c :: cs.takeWhile isNumeralChar)
    else none

def arithmeticOperator? (cs : List Char) : Option Match :=
  (Operator.matching? Operator.arithmetic cs).map fun op => (.operator op, op.toList)

def arithmetic (cs : List Char) : Match :=
  operand? cs
    <|> Lexeme.quoteOrDollar? cs
    <|> arithmeticOperator? cs
    |>.getD (.error, cs.take 1)

def tokenOf (mode : Mode) (flags : Flags) : List Char → Match
  | [] => (.eof, [])
  | '\n' :: _ => (.newline, ['\n'])
  | cs =>
    match mode with
    | .command | .heredocPending => command flags cs
    | .test => test "]" flags cs
    | .doubleTest => test "]]" flags cs
    | .arithmetic => arithmetic cs

def triviaRules (mode : Mode) (flags : Flags) : Trivia.Rules where
  newlines :=
    match mode with
    | .heredocPending => false
    | .doubleTest | .arithmetic => true
    | .command | .test => flags.newlineTrivia
  comments := mode != .arithmetic

/-- The offset of the token at or after `offset`, and the comments before it. -/
def skipTrivia (src : Source) (offset : Nat) (mode : Mode) (flags : Flags) : Nat × List Span :=
  Trivia.skip src offset (triviaRules mode flags)

/-- The token at or after `offset`, and the comments before it. Past the end of the text there is
only the end. -/
def next (src : Source) (offset : Nat) (mode : Mode) (flags : Flags) :
    Except Fault (Token × List Span) :=
  let (start, comments) := skipTrivia src offset mode flags
  match src.tail? start with
  | some cs =>
    let (kind, taken) := tokenOf mode flags cs
    .ok (⟨kind, .ofWidth start (byteLength taken), String.ofList taken, start == offset⟩, comments)
  | none =>
    if src.size ≤ start then
      .ok (.endAt start (start == offset), comments)
    else
      .error .splitCharacter

/-- The token of the characters taken at or after `start`. It covers also what remains of a
character that begins before `start`; none when it would cover nothing. -/
def nonempty? (src : Source) (kind : TokenKind) (offset start : Nat) (taken : List Char) :
    Option Token :=
  let width := src.nextBoundary start - start + byteLength taken
  if width = 0 then none
  else some ⟨kind, .ofWidth start width, String.ofList taken, start == offset⟩

def charactersFrom (src : Source) (offset : Nat) : List Char :=
  (src.tail? (src.nextBoundary offset)).getD []

/-- A `$((` at `offset` opens a subshell inside a substitution and no arithmetic expansion. Only what
follows its three characters is looked at. -/
def opensSubshellAt (src : Source) (offset : Nat) : Except Fault Bool :=
  if offset + 3 < UInt64.size then .ok (DoubleParen.opensSubshell (charactersFrom src (offset + 3)))
  else .error .offsetOverflow

/-- The pattern at `offset`, and the comments before it. In a test trivia may precede it, and there
is none before a quote or a dollar sign, which open ordinary operands. -/
def nextRegex (src : Source) (offset : Nat) (inExpansion : Bool) :
    Except Fault (Option Token × List Span) := do
  let (start, comments) :=
    if inExpansion then (offset, []) else skipTrivia src offset .doubleTest {}
  let cs := charactersFrom src start
  if !inExpansion then
    if src.nextBoundary start ≠ start then
      throw .splitCharacter
    if cs.head?.any (fun c => c == '\'' || c == '"' || c == '$') then
      return (none, comments)
  let taken ← Lexeme.regex inExpansion .bare 0 cs
  return (nonempty? src .regex offset start taken, comments)

def nextHeredocMarker (src : Source) (offset : Nat) : Option Token × List Span :=
  let (start, comments) := skipTrivia src offset .heredocPending {}
  let taken := Lexeme.heredocMarker .bare (charactersFrom src start)
  (nonempty? src .word offset start taken, comments)

/-- The tokens from `offset` on through the first end of the input, and the comments between them.
Every token but the last takes input, which bounds their number. -/
def tokensFrom (src : Source) (mode : Mode) (flags : Flags) :
    Nat → Nat → Except Fault (List Token × List Span)
  | 0, _ => .error .outOfFuel
  | fuel + 1, offset => do
    let (tok, comments) ← next src offset mode flags
    if tok.isEof then
      return ([tok], comments)
    else
      let (toks, more) ← tokensFrom src mode flags fuel tok.span.stop
      return (tok :: toks, comments ++ more)

def tokens (src : Source) (mode : Mode) (flags : Flags) : Except Fault (List Token × List Span) :=
  tokensFrom src mode flags (src.size + 1) 0

end Lexer

/-- The comments seen so far, in the order of their starts. -/
structure CommentLog where
  spans : List Span := []
deriving DecidableEq, Repr

namespace CommentLog

/-- Record a comment. A comment that starts where a recorded one starts takes its place. -/
def insert (log : CommentLog) (comment : Span) : CommentLog := ⟨place log.spans⟩
where
  place : List Span → List Span
    | [] => [comment]
    | s :: rest =>
      if comment.start < s.start then comment :: s :: rest
      else if comment.start = s.start then comment :: rest
      else s :: place rest

def insertAll (log : CommentLog) (comments : List Span) : CommentLog := comments.foldl insert log

end CommentLog

end ShellTree
