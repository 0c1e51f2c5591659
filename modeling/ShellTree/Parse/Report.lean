import ShellTree.Parse.Basic

/-!
This module contains the reports of a parse and its limits. A parse that hits a limit halts: it
reports the rest of the input once and nothing after that.
-/

namespace ShellTree
namespace Parse

/-- Report a cause. Nothing is reported after a halt. -/
def report (cause : Cause) (span : Span) : Parse Unit := do
  if !(← isHalted) then
    let (line, column) := (← source).lineColumn span.start
    modify fun s => { s with diagnostics := s.diagnostics ++ [⟨cause, span, line, column⟩] }

def reportUnclosed (what : Unclosed) (start : Nat) : Parse Unit := do
  report (.unterminated what) (← spanBetween start (← source).size)

/-- Report a cause for the rest of the input, and stop there. -/
def halt (cause : Cause) : Parse Unit := do
  report cause (← spanBetween (← position) (← source).size)
  modify fun s => { s with halted := true }

/-- The empty node that stands for what a halt cut off. -/
def haltedNode : Parse Node := return .leaf .error (.empty (← position))

/-- Enter a nesting level; false when the limit is hit or the parse has halted. -/
def enter : Parse Bool := do
  let depth := (← get).depth + 1
  let limit := (← read).options.maxDepth
  if ← isHalted then
    return false
  else if depth > limit then
    halt (.nestingTooDeep limit)
    return false
  else
    modify fun s => { s with depth := depth }
    return true

def leave : Parse Unit := modify fun s => { s with depth := s.depth - 1 }

def nest (body : Parse (Option Node)) : Parse (Option Node) := do
  if ← enter then
    let result ← body
    leave
    return result
  else
    return some (← haltedNode)

/-- Count a statement boundary; false when the limit is hit, the caller has cancelled the parse or
the parse has halted. -/
def tick : Parse Bool := do
  if ← isHalted then
    return false
  else if (← read).cancelled then
    halt .parseCancelled
    return false
  else
    let boundaries := (← get).boundaries + 1
    modify fun s => { s with boundaries := boundaries }
    match (← read).options.maxStatements with
    | none => return true
    | some limit =>
      if boundaries > limit then
        halt (.tooManyStatements limit)
        return false
      else
        return true

end Parse
end ShellTree
