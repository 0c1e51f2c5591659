import ShellTree.Grammar.Text

/-!
This module contains line breaks. The bodies of the here-documents that a line has asked for follow
its line break, in the order of their redirects, and become nodes where the line break is read.
-/

namespace ShellTree
namespace Grammar

open Parse

/-- The offset after the line break at `offset`, or `offset` itself. -/
def afterLineBreak (src : Source) (offset : Nat) : Nat :=
  match src.tail? offset with
  | some ('\n' :: _) => offset + 1
  | some ('\r' :: '\n' :: _) => offset + 2
  | _ => offset

/-- The bodies of the requests and their delimiters. The first body starts at `start`. -/
def bodies (inner : Nested) : List Heredoc.Request → Nat → Parse (List Node)
  | [], _ => return []
  | request :: requests, start => do
    let extent ← liftM (Heredoc.scanBody (← source) start request)
    let body ← heredocBody inner extent.body request.quoted
    let delimiter ←
      match extent.delimiter with
      | some span => pure [← leafAt .heredocEnd span]
      | none =>
        reportUnclosed (.heredocBody request.delimiter) request.redirectStart
        pure []
    setPosition extent.resumeAt
    let rest ← bodies inner requests (afterLineBreak (← source) extent.resumeAt)
    return body :: delimiter ++ rest

def pendingBodies (inner : Nested) : Parse (List Node) := do
  let s ← get
  set { s with pending := [] }
  bodies inner s.pending s.pos

/-- Take a line break and the bodies after it; none when no line break comes next. The line break
is a leaf only where it ends a statement. -/
def lineBreak? (inner : Nested) (keepLeaf : Bool) : Parse (Option (List Node)) := do
  let tok ← peekPlain
  if tok.kind = .newline then
    let leaf ← tokenLeaf tok
    let nodes ← pendingBodies inner
    return some (if keepLeaf then leaf :: nodes else nodes)
  else
    return none

def lineBreaks (inner : Nested) : Parse (List Node) :=
  repeatStep step []
where
  step (nodes : List Node) : Parse (ForInStep (List Node)) := do
    match ← lineBreak? inner false with
    | some more => return .yield (nodes ++ more)
    | none => return .done nodes

end Grammar
end ShellTree
