import ShellTree.Diagnostic
import ShellTree.Heredoc
import ShellTree.Lexer
import ShellTree.Node.Basic
import ShellTree.Options

/-!
This module contains the parsing monad: what a parse is given and the state that it carries along.
Malformed input is reported in the state; the exceptions of the monad are faults.
-/

namespace ShellTree
namespace Parse

/-- What a parse is given. It is cancelled when its caller holds a cancelled token. -/
structure Env where
  source : Source
  options : Options
  cancelled : Bool

structure State where
  pos : Nat := 0
  /-- The modes of the open constructs, the innermost first. -/
  modes : List Mode := [.command]
  flags : Flags := {}
  inBacktick : Bool := false
  /-- The here-documents whose bodies follow the next line break. -/
  pending : List Heredoc.Request := []
  diagnostics : List Diagnostic := []
  depth : Nat := 0
  boundaries : Nat := 0
  /-- A limit or the caller has stopped the parse; what is left of the input is not read. -/
  halted : Bool := false
  comments : CommentLog := {}
deriving DecidableEq, Repr

end Parse

abbrev Parse := ReaderT Parse.Env (StateT Parse.State (Except Fault))

namespace Parse

def source : Parse Source := return (← read).source

def position : Parse Nat := return (← get).pos

def setPosition (offset : Nat) : Parse Unit := modify fun s => { s with pos := offset }

def isHalted : Parse Bool := return (← get).halted

/-- The characters from `offset` on, which must be where a character begins or the text ends. -/
def charactersAt (offset : Nat) : Parse (List Char) := do
  match (← source).tail? offset with
  | some cs => return cs
  | none => throw .splitCharacter

def upcoming : Parse (List Char) := do charactersAt (← position)

def spanBetween (start stop : Nat) : Parse Span := liftM (Span.between start stop)

/-- What is left of the parse: the bytes before the end of the source, and a halt. -/
def remaining : Parse Nat := do
  let halt := if ← isHalted then 0 else 1
  return (← source).size - (← position) + halt

/-- Repeat a step until it is done. A step after which there is no less left than before it is a
fault, since nothing would end such a loop. -/
def repeatUpTo {α : Type} (step : α → Parse (ForInStep α)) (left : α → Parse Nat) :
    Nat → α → Parse α
  | 0, _ => throw .outOfFuel
  | fuel + 1, a => do
    let before ← left a
    match ← step a with
    | .done a => return a
    | .yield a =>
      if (← left a) < before then repeatUpTo step left fuel a else throw .stalled

/-- Repeat a step until it is done. Every step but the last takes input or halts the parse, so that
the size of the source bounds their number. -/
def repeatStep {α : Type} (step : α → Parse (ForInStep α)) (a : α)
    (left : α → Parse Nat := fun _ => remaining) : Parse α := do
  repeatUpTo step left ((← source).size + 3) a

end Parse
end ShellTree
