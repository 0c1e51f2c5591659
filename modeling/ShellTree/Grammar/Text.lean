import ShellTree.Parse.Nested

/-!
This module contains text with expansions in it: double-quoted strings and the bodies of
here-documents. Both are runs of plain content between the fragments that a dollar sign or a
backtick opens.
-/

namespace ShellTree
namespace Grammar

open Parse

def contentBetween (start stop : Nat) : List Node :=
  if h : start < stop then [.leaf .content ⟨start, stop, Nat.le_of_lt h⟩] else []

/-- Text that is being read. -/
structure TextRun where
  /-- The nodes before the current run of content. -/
  parts : List Node
  /-- The start of the current run. -/
  start : Nat
  /-- The offset of the next character. -/
  place : Nat

namespace TextRun

def startAt (offset : Nat) : TextRun := ⟨[], offset, offset⟩

def partsUpTo (run : TextRun) (stop : Nat) : List Node :=
  run.parts ++ contentBetween run.start stop

def skip (run : TextRun) (width : Nat) : TextRun := { run with place := run.place + width }

/-- Take a byte as the first of a new run. -/
def split (run : TextRun) : TextRun := ⟨run.partsUpTo run.place, run.place, run.place + 1⟩

def push (run : TextRun) (part : Node) (stop : Nat) : TextRun :=
  ⟨run.partsUpTo run.place ++ [part], stop, stop⟩

/-- The bytes that are left of the source after what is read of the text. -/
def left (run : TextRun) : Parse Nat := return (← source).size - run.place

/-- The text ends with the nodes. -/
def close (run : TextRun) (parts : List Node) : TextRun := { run with parts := parts }

end TextRun

def opensFragmentInText (c : Char) (cs : List Char) : Bool :=
  c == '\x60' || (c == '$' && opensQuotedExpansion cs)

def firstWidth (cs : List Char) : Nat := (cs.head?.map Char.utf8Size).getD 0

/-- The fragment that opens at `place` and the offset after it; none when nothing is taken. -/
def fragmentAt (inner : Nested) (place : Nat) : Parse (Option (Node × Nat)) := do
  setPosition place
  match ← inner.fragment with
  | some part =>
    let stop ← position
    return if place < stop then some (part, stop) else none
  | none => return none

def stringStep (inner : Nested) (start : Nat) (run : TextRun) : Parse (ForInStep TextRun) := do
  match ← charactersAt run.place with
  | [] =>
    setPosition run.place
    reportUnclosed .doubleQuotedString start
    return .done (run.close (run.partsUpTo run.place))
  | c :: cs =>
    if c == '"' then
      let quote ← leafAt (.token "\"") (.ofWidth run.place 1)
      return .done (run.close (run.partsUpTo run.place ++ [quote]))
    else if c == '\\' then
      return .yield (run.skip (1 + firstWidth cs))
    else if opensFragmentInText c cs then
      let run :=
        match ← fragmentAt inner run.place with
        | some (part, stop) => run.push part stop
        | none => run.split
      return if ← isHalted then .done run else .yield run
    else
      return .yield (run.skip c.utf8Size)

def doubleQuoted (inner : Nested) : Parse Node := do
  let opener ← peek
  let leaf ← tokenLeaf opener
  let run ← repeatStep (stringStep inner opener.span.start) (.startAt (← position)) TextRun.left
  node .string (leaf :: run.parts)

/-- The fragment that opens at `place`; none when nothing is taken or the fragment runs over the end
of the body. -/
def fragmentWithin (inner : Nested) (body : Span) (place : Nat) : Parse (Option (Node × Nat)) :=
  attempt do
    match ← fragmentAt inner place with
    | some (part, stop) => return if part.span.stop ≤ body.stop then some (part, stop) else none
    | none => return none

def bodyStep (inner : Nested) (body : Span) (run : TextRun) : Parse (ForInStep TextRun) := do
  if body.stop ≤ run.place then
    return .done run
  else
    match ← charactersAt run.place with
    | [] => return .done run
    | c :: cs =>
      if c == '\\' then
        return .yield (run.skip (if run.place + 1 < body.stop then 1 + firstWidth cs else 1))
      else if opensFragmentInText c cs then
        match ← fragmentWithin inner body run.place with
        | some (part, stop) => return .yield (run.push part stop)
        | none => return .yield (run.skip 1)
      else
        return .yield (run.skip c.utf8Size)

/-- The body of a here-document. After a quoted delimiter all of it is content. -/
def heredocBody (inner : Nested) (body : Span) (quoted : Bool) : Parse Node := do
  if quoted || body.isEmpty then
    return ⟨.heredocBody, body, contentBetween body.start body.stop⟩
  else
    let run ← inMode .command <|
      repeatStep (bodyStep inner body) (.startAt body.start) TextRun.left
    return ⟨.heredocBody, body, run.partsUpTo (max body.stop run.start)⟩

end Grammar
end ShellTree
