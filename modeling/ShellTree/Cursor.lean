import ShellTree.Node.Basic

/-!
This module contains cursors: walks through a tree that remember the way they came.
-/

namespace ShellTree

/-- A node and the nodes through which the walk came to it, the last first. -/
structure Cursor where
  node : Node
  path : List Node

namespace Cursor

def ofRoot (root : Node) : Cursor := ⟨root, []⟩

def push (cursor : Cursor) (node : Node) : Cursor := ⟨node, cursor.node :: cursor.path⟩

def child? (cursor : Cursor) (index : Nat) : Option Cursor :=
  cursor.node.children[index]?.map cursor.push

def namedChild? (cursor : Cursor) (index : Nat) : Option Cursor :=
  cursor.node.namedChildren[index]?.map cursor.push

def childOfKind? (cursor : Cursor) (kind : NodeKind) : Option Cursor :=
  (cursor.node.childOfKind? kind).map cursor.push

/-- Go to the descendant with the index among those of the kind. The node itself is one of its
descendants, the first, and a walk to it stays where it is. -/
def descendant? (cursor : Cursor) (kind : NodeKind) (index : Nat) : Option Cursor :=
  match (cursor.node.descendants.filter (·.kind == kind))[index]? with
  | none => none
  | some node =>
    if index = 0 && cursor.node.kind == kind then some cursor else some (cursor.push node)

def back? (cursor : Cursor) : Option Cursor :=
  match cursor.path with
  | [] => none
  | node :: path => some ⟨node, path⟩

end Cursor

end ShellTree
