import ShellTree.Diagnostic
import ShellTree.Node.Comment

/-!
This module contains the result of a parse. The main definitions are `Tree.reconstruct?`, the text
that the leaves and the gaps between them spell, and `Tree.gaps`, what no leaf covers.
-/

namespace ShellTree

structure Tree where
  source : Source
  root : Node
  diagnostics : List Diagnostic

namespace Tree

def errors (tree : Tree) : List ErrorRecord := tree.diagnostics.map Diagnostic.record

def hasErrors (tree : Tree) : Bool := !tree.diagnostics.isEmpty

def wasCancelled (tree : Tree) : Bool := tree.diagnostics.any (·.kind == .cancelled)

def leaves (tree : Tree) : List Node := tree.root.descendants.filter Node.isLeaf

def gapBetween (start stop : Nat) : List Span :=
  if h : start < stop then [⟨start, stop, Nat.le_of_lt h⟩] else []

/-- The gaps before, between and after the leaves, from `covered` to `size`. -/
def gapsFrom (size covered : Nat) : List Node → List Span
  | [] => gapBetween covered size
  | leaf :: leaves =>
    gapBetween covered leaf.span.start ++ gapsFrom size (max covered leaf.span.stop) leaves

def gaps (tree : Tree) : List Span := gapsFrom tree.source.size 0 tree.leaves

/-- The text between two offsets, empty when they are not in order. -/
def gapText? (src : Source) (start stop : Nat) : Option String :=
  if start < stop then src.slice? start stop else some ""

/-- The text of the leaves and of the gaps before, between and after them. -/
def reconstructFrom? (src : Source) (place : Nat) : List Node → Option String
  | [] => gapText? src place src.size
  | leaf :: leaves => do
    let gap ← gapText? src place leaf.span.start
    let text ← leaf.text? src
    let rest ← reconstructFrom? src leaf.span.stop leaves
    return gap ++ text ++ rest

def reconstruct? (tree : Tree) : Option String := reconstructFrom? tree.source 0 tree.leaves

def sexp (tree : Tree) : String := tree.root.sexp

end Tree

end ShellTree
