/-!
This module contains the faults of the library: the ways in which a call can be given offsets that
make no sense for its text. A malformed script is no fault, it is reported beside its tree.
-/

namespace ShellTree

inductive Fault where
  /-- An offset lies inside a character or past the end of the text. -/
  | splitCharacter
  /-- An offset that is looked at does not fit a machine word. -/
  | offsetOverflow
  /-- A span would end before it starts. -/
  | reversedSpan
  /-- A loop went round and took nothing. -/
  | stalled
  /-- A recursion ran longer than its bound. -/
  | outOfFuel
deriving DecidableEq, Repr

end ShellTree
