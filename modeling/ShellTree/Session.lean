import ShellTree.Cancellation
import ShellTree.Program

/-!
This module contains sessions: sequences of parses by a caller who makes, copies and cancels tokens
in between.
-/

namespace ShellTree
namespace Session

/-- A step of a session. Tokens are numbered from zero in the order in which they are made. -/
inductive Step where
  | new
  | clone (token : Nat)
  | cancel (token : Nat)
  | check (token : Nat)
  | parse (text : String) (options : Options) (token : Option Nat)
deriving DecidableEq, Repr

inductive Answer where
  | token (number : Nat)
  | done
  | flag (cancelled : Bool)
  | tree (tree : Tree)

inductive Refusal where
  | noSuchToken
  | fault (fault : Fault)
deriving DecidableEq, Repr

def known {α : Type} (value : Option α) : Except Refusal α :=
  match value with
  | some a => .ok a
  | none => .error .noSuchToken

def parsed (text : String) (options : Options) (token : Option Bool) : Except Refusal Tree :=
  (ShellTree.parse (.ofString text) options token).mapError .fault

def step (tokens : CancellationTokens) : Step → Except Refusal (CancellationTokens × Answer)
  | .new => return (tokens.add, .token tokens.size)
  | .clone token => return (← known (tokens.copy? token), .token tokens.size)
  | .cancel token => return (← known (tokens.cancel? token), .done)
  | .check token => return (tokens, .flag (← known (tokens.isCancelled? token)))
  | .parse text options none => return (tokens, .tree (← parsed text options none))
  | .parse text options (some token) => do
    let cancelled ← known (tokens.isCancelled? token)
    return (tokens, .tree (← parsed text options (some cancelled)))

def run (tokens : CancellationTokens) :
    List Step → Except Refusal (CancellationTokens × List Answer)
  | [] => return (tokens, [])
  | s :: steps => do
    let (tokens, answer) ← step tokens s
    let (tokens, answers) ← run tokens steps
    return (tokens, answer :: answers)

end Session
end ShellTree
