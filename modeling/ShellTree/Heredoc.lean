import ShellTree.Source

/-!
This module contains here-documents: the delimiter that a marker names, and the search for the line
that ends a body.
-/

namespace ShellTree
namespace Heredoc

structure Request where
  delimiter : String
  /-- Tabs before the delimiter do not count. -/
  stripTabs : Bool
  /-- A part of the delimiter was quoted, so that the body is plain text. -/
  quoted : Bool
  redirectStart : Nat
deriving DecidableEq, Repr

/-- The marker without its quotes. A backslash stands for the next character except in quotes,
which end at the next quote of their kind. -/
def unquote (quote : Option Char) : List Char → List Char
  | [] => []
  | c :: cs =>
    match quote with
    | some q => if c == q then unquote none cs else c :: unquote quote cs
    | none =>
      if c == '\'' || c == '"' then unquote (some c) cs
      else if c == '\\' then
        match cs with
        | [] => []
        | d :: cs => d :: unquote none cs
      else c :: unquote none cs

def isQuoted (marker : List Char) : Bool := marker.any fun c => c == '\'' || c == '"' || c == '\\'

def Request.ofMarker (marker : String) (stripTabs : Bool) (redirectStart : Nat) : Request where
  delimiter := String.ofList (unquote none marker.toList)
  stripTabs := stripTabs
  quoted := isQuoted marker.toList
  redirectStart := redirectStart

/-- Where a body lies, and the delimiter after it when there is one. -/
structure Extent where
  body : Span
  delimiter : Option Span
deriving DecidableEq, Repr

/-- The offset after the delimiter, or the end of the text. -/
def Extent.resumeAt (extent : Extent) : Nat :=
  match extent.delimiter with
  | some span => span.stop
  | none => extent.body.stop

/-- The lines of a text without their line feeds. What follows the last line feed is a line only if
it is not empty. -/
def lines : List Char → List (List Char)
  | [] => []
  | c :: cs =>
    if c == '\n' then [] :: lines cs
    else
      match lines cs with
      | [] => [[c]]
      | line :: rest => (c :: line) :: rest

/-- The line without one carriage return at its end. -/
def withoutReturn (line : List Char) : List Char :=
  if line.getLast? == some '\r' then line.dropLast else line

/-- The part of a line that is compared with the delimiter, and the tabs before it. -/
def candidate (stripTabs : Bool) (line : List Char) : Nat × List Char :=
  if stripTabs then
    ((line.takeWhile (· == '\t')).length, withoutReturn (line.dropWhile (· == '\t')))
  else
    (0, withoutReturn line)

/-- The span of the delimiter on the first line that is one; the first line starts at `start`. The
other number is the start of that line. -/
def delimiterLine? (request : Request) (start : Nat) : List (List Char) → Option (Nat × Span)
  | [] => none
  | line :: rest =>
    let (tabs, text) := candidate request.stripTabs line
    if text == request.delimiter.toList then
      some (start, .ofWidth (start + tabs) (byteLength text))
    else
      delimiterLine? request (start + byteLength line + 1) rest

/-- The body of the request from `start` on. It runs up to the first line that holds the delimiter,
or to the end of the text. -/
def scanBody (src : Source) (start : Nat) (request : Request) : Except Fault Extent :=
  match src.tail? start with
  | some cs => do
    match delimiterLine? request start (lines cs) with
    | some (line, delimiter) => return ⟨← Span.between start line, some delimiter⟩
    | none => return ⟨← Span.between start src.size, none⟩
  | none => if src.size < start then .error .reversedSpan else .error .splitCharacter

end Heredoc
end ShellTree
