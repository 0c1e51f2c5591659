import ShellTree.Parse.Basic

/-!
This module contains the context in which tokens are read, and speculation. What changes the context
for a part of the input changes it back afterwards.
-/

namespace ShellTree
namespace Parse

def State.mode (s : State) : Mode :=
  match s.modes with
  | [] | .command :: _ => if s.pending.isEmpty then .command else .heredocPending
  | mode :: _ => mode

def pushMode (mode : Mode) : Parse Unit := modify fun s => { s with modes := mode :: s.modes }

/-- Leave a mode. The outermost is always command mode. -/
def popMode : Parse Unit := modify fun s =>
  { s with modes := if s.modes.tail.isEmpty then [.command] else s.modes.tail }

def inMode {α : Type} (mode : Mode) (body : Parse α) : Parse α := do
  pushMode mode
  let a ← body
  popMode
  return a

def withFlags {α : Type} (flags : Flags) (body : Parse α) : Parse α := do
  let saved := (← get).flags
  modify fun s => { s with flags := flags }
  let a ← body
  modify fun s => { s with flags := saved }
  return a

/-- Run where every backtick that is not escaped closes. -/
def withinBackticks {α : Type} (body : Parse α) : Parse α := do
  let saved := (← get).inBacktick
  modify fun s => { s with inBacktick := true }
  let a ← body
  modify fun s => { s with inBacktick := saved }
  return a

/-- What a speculation takes back. The comments that it has seen and the statement boundaries that
it has passed stay. -/
structure Checkpoint where
  pos : Nat
  reports : Nat
  pending : List Heredoc.Request
deriving DecidableEq, Repr

def checkpoint : Parse Checkpoint := do
  let s ← get
  return ⟨s.pos, s.diagnostics.length, s.pending⟩

/-- Go back to a checkpoint. After a halt the reports stay. -/
def restore (saved : Checkpoint) : Parse Unit := modify fun s =>
  { s with
    pos := saved.pos
    diagnostics := if s.halted then s.diagnostics else s.diagnostics.take saved.reports
    pending := saved.pending }

/-- Run, and go back to the start when there is no result. -/
def attempt {α : Type} (body : Parse (Option α)) : Parse (Option α) := do
  let saved ← checkpoint
  match ← body with
  | some a => return some a
  | none =>
    restore saved
    return none

def lookAhead {α : Type} (body : Parse α) : Parse α := do
  let saved ← checkpoint
  let a ← body
  restore saved
  return a

end Parse
end ShellTree
