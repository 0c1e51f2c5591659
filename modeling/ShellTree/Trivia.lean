import ShellTree.Character
import ShellTree.Source

/-!
This module contains trivia: the blanks, line continuations and comments between tokens. The main
definitions are `Trivia.skip`, which finds the next token and the comments before it, and
`Trivia.isTrivia`, the texts that hold no token and no comment.
-/

namespace ShellTree
namespace Trivia

/-- What counts as trivia besides blanks and line continuations. -/
structure Rules where
  newlines : Bool
  comments : Bool
deriving DecidableEq, Repr

/-- The length of a line continuation, a backslash before a line break. -/
def continuation? : List Char → Option Nat
  | '\\' :: '\n' :: _ => some 2
  | '\\' :: '\r' :: '\n' :: _ => some 3
  | _ => none

/-- The length of the line continuation at `offset`. The three offsets from there on are looked at;
they may be past the end of the text. -/
def continuationAt (src : Source) (offset : Nat) : Except Fault (Option Nat) :=
  if offset + 2 < UInt64.size then .ok ((src.tail? offset).bind continuation?)
  else .error .offsetOverflow

/-- The characters after which a `#` opens a comment. -/
def endsWord (c : Char) : Bool := isSpace c || isMetacharacter c

def opensComment (src : Source) (offset : Nat) : Bool :=
  offset == 0 || (src.char? (offset - 1)).any endsWord

mutual

/-- Step over trivia. The result is the offset of the first character that is none, and the
comments on the way; `fresh` holds where a `#` opens a comment. -/
def skipFrom (rules : Rules) (fresh : Bool) (offset : Nat) : List Char → Nat × List Span
  | [] => (offset, [])
  | '\\' :: '\n' :: cs => skipFrom rules true (offset + 2) cs
  | '\\' :: '\r' :: '\n' :: cs => skipFrom rules true (offset + 3) cs
  | c :: cs =>
    if isBlank c || (rules.newlines && c == '\n') then
      skipFrom rules true (offset + 1) cs
    else if rules.comments && fresh && c == '#' then
      skipComment rules offset 1 cs
    else
      (offset, [])

/-- Step over the rest of the comment of which `width` bytes are behind, then over the trivia after
it. A comment ends before the line feed. -/
def skipComment (rules : Rules) (start width : Nat) : List Char → Nat × List Span
  | [] => (start + width, [.ofWidth start width])
  | c :: cs =>
    if c == '\n' then
      if rules.newlines then
        let (offset, comments) := skipFrom rules true (start + width + 1) cs
        (offset, .ofWidth start width :: comments)
      else
        (start + width, [.ofWidth start width])
    else
      skipComment rules start (width + c.utf8Size) cs

end

/-- The offset of the first character from `offset` on that is no trivia, and the comments before
it. Nothing is skipped past the end or inside a character. -/
def skip (src : Source) (offset : Nat) (rules : Rules) : Nat × List Span :=
  match src.tail? offset with
  | some cs => skipFrom rules (opensComment src offset) offset cs
  | none => (offset, [])

def isTrivia : List Char → Bool
  | [] => true
  | '\\' :: '\n' :: cs => isTrivia cs
  | '\\' :: '\r' :: '\n' :: cs => isTrivia cs
  | c :: cs => isSpace c && isTrivia cs

end Trivia
end ShellTree
