import ShellTree.Node.Basic

/-!
This module contains the attachment of comments: each becomes a leaf of the innermost node around
it. A comment that overlaps a leaf is dropped.
-/

namespace ShellTree
namespace Node

/-- The child is where the comment goes or what hinders it. -/
def meets (child : Node) (comment : Span) : Bool :=
  child.span.overlaps comment || (child.span.contains comment && !child.isLeaf)

mutual

/-- The node with the comment attached; none when there is no place for it. Of the leaves only the
root of an empty program takes a child. -/
def insertComment? (comment : Span) : Node → Option Node
  | ⟨kind, span, children⟩ =>
    if span.contains comment && (!children.isEmpty || kind == .program) then
      (insertAmong? comment children).map fun children => ⟨kind, span, children⟩
    else
      none

/-- The siblings with the comment inside the first that meets it, or between two of them. -/
def insertAmong? (comment : Span) : List Node → Option (List Node)
  | [] => some [leaf .comment comment]
  | node :: nodes =>
    if node.meets comment then
      if node.isLeaf then none
      else (insertComment? comment node).map (· :: nodes)
    else if comment.stop ≤ node.span.start then
      some (leaf .comment comment :: node :: nodes)
    else
      (insertAmong? comment nodes).map (node :: ·)

end

/-- The node with a comment attached, unchanged when there is no place for it. -/
def insertComment (node : Node) (comment : Span) : Node := (insertComment? comment node).getD node

def attachComments (node : Node) (comments : List Span) : Node := comments.foldl insertComment node

end Node
end ShellTree
