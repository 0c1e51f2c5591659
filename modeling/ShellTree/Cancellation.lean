/-!
This module contains cancellation tokens. Copies of a token share one flag; a registry holds the
tokens of a caller and says for each which flag it has.
-/

namespace ShellTree

/-- The cancellation tokens of a caller, in the order in which they were made. -/
structure CancellationTokens where
  flags : List Bool := []
  /-- The flag of each token. -/
  flagOf : List Nat := []
deriving DecidableEq, Repr

namespace CancellationTokens

def size (tokens : CancellationTokens) : Nat := tokens.flagOf.length

def add (tokens : CancellationTokens) : CancellationTokens :=
  ⟨tokens.flags ++ [false], tokens.flagOf ++ [tokens.flags.length]⟩

def copy? (tokens : CancellationTokens) (token : Nat) : Option CancellationTokens :=
  tokens.flagOf[token]?.map fun flag => { tokens with flagOf := tokens.flagOf ++ [flag] }

/-- Cancel a token and all that share its flag; none when there is no such token. -/
def cancel? (tokens : CancellationTokens) (token : Nat) : Option CancellationTokens :=
  tokens.flagOf[token]?.map fun flag => { tokens with flags := tokens.flags.set flag true }

def isCancelled? (tokens : CancellationTokens) (token : Nat) : Option Bool :=
  tokens.flagOf[token]?.bind fun flag => tokens.flags[flag]?

end CancellationTokens

end ShellTree
