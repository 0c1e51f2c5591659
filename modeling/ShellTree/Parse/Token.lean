import ShellTree.Keyword
import ShellTree.Parse.Context
import ShellTree.Parse.Report

/-!
This module contains the tokens of a parse: the requests to the lexer, the leaves that tokens
become, and the tokens that a construct insists on.
-/

namespace ShellTree
namespace Parse

/-! ### The next token -/

def remember (comments : List Span) : Parse Unit := modify fun s =>
  { s with comments := s.comments.insertAll comments }

/-- The next token under the flags. A halted parse is at the end of its input. -/
def peekWith (flags : Flags) : Parse Token := do
  let s ← get
  if s.halted then
    return .endAt s.pos false
  else
    let flags := { flags with stopAtBacktick := flags.stopAtBacktick || s.inBacktick }
    let (tok, comments) ← liftM (Lexer.next (← source) s.pos s.mode flags)
    remember comments
    return tok

def peek : Parse Token := do peekWith (← get).flags

def peekPlain : Parse Token := peekWith {}

def peekStatement : Parse Token := peekWith { assignment := true, statementStart := true }

def peekAssignment : Parse Token := peekWith { assignment := true }

def peekRegex (inExpansion : Bool) : Parse (Option Token) := do
  let s ← get
  if s.halted then
    return none
  else
    let (tok, comments) ← liftM (Lexer.nextRegex (← source) s.pos inExpansion)
    remember comments
    return tok

def peekHeredocMarker : Parse (Option Token) := do
  let s ← get
  if s.halted then
    return none
  else
    let (tok, comments) := Lexer.nextHeredocMarker (← source) s.pos
    remember comments
    return tok

/-! ### Nodes -/

def leafAt (kind : NodeKind) (span : Span) : Parse Node := do
  setPosition span.stop
  return .leaf kind span

/-- Take as many bytes as the text has as an anonymous leaf. -/
def takeText (text : String) : Parse Node := do
  leafAt (.token text) (.ofWidth (← position) text.utf8ByteSize)

def kindOf : TokenKind → NodeKind
  | .operator text => .token text
  | .newline => .token "\n"
  | .word => .word
  | .fileDescriptor => .fileDescriptor
  | .variableName => .variableName
  | .testOperator => .testOperator
  | .rawString => .rawString
  | .ansiCString => .ansiCString
  | .regex => .regex
  | .backtickClose => .token "`"
  | .eof => .error
  | .error => .error

/-- Take a token as a leaf. A character that begins no token is reported. -/
def tokenLeaf (tok : Token) : Parse Node := do
  setPosition tok.span.stop
  if tok.kind = .error then
    report (.unexpectedCharacter tok.text) tok.span
  return .leaf (kindOf tok.kind) tok.span

def keywordLeaf (tok : Token) : Parse Node :=
  leafAt (((Keyword.keyword? tok.text).map NodeKind.token).getD .word) tok.span

/-- A node from its first child to its last. -/
def node (kind : NodeKind) (children : List Node) : Parse Node := do
  match children.head?, children.getLast? with
  | some first, some last =>
    return ⟨kind, ← spanBetween first.span.start last.span.stop, children⟩
  | _, _ => return ⟨kind, .empty (← position), children⟩

/-- An error node around what stands where it must not, if there is anything. -/
def errorAround (junk : List Node) : Parse (List Node) := do
  if junk.isEmpty then return [] else return [← node .error junk]

/-! ### Keywords and expected tokens -/

/-- A part of a literal is glued to what comes before the characters. -/
def opensGluedFragment : List Char → Bool
  | [] => false
  | c :: cs => c == '"' || c == '\'' || c == '\x60' || (c == '$' && opensDollarForm cs)

/-- A word with nothing glued to its end, which can be a keyword. -/
def isBareWord (src : Source) (tok : Token) : Bool :=
  tok.kind = .word && !opensGluedFragment ((src.tail? tok.span.stop).getD [])

def isKeyword (src : Source) (tok : Token) (keyword : String) : Bool :=
  isBareWord src tok && tok.text == keyword

def reportMissing (tok : Token) (expected : String) (construct : Construct) (start : Nat) :
    Parse Unit :=
  if tok.isEof then
    reportUnclosed (.construct construct expected) start
  else
    report (.expectedToken expected construct tok.text) tok.span

/-- Take an operator of a construct; report and take nothing when it is missing. -/
def expectOperator (op : String) (construct : Construct) (start : Nat) : Parse (List Node) := do
  let tok ← peek
  if tok.isOperator op then
    return [← tokenLeaf tok]
  else
    reportMissing tok op construct start
    return []

def expectKeyword (keyword : String) (construct : Construct) (start : Nat) :
    Parse (List Node) := do
  let tok ← peekStatement
  if isKeyword (← source) tok keyword then
    return [← keywordLeaf tok]
  else
    reportMissing tok keyword construct start
    return []

def acceptOperator (op : String) : Parse (List Node) := do
  let tok ← peek
  if tok.isOperator op then return [← tokenLeaf tok] else return []

end Parse
end ShellTree
