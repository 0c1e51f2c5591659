import ShellTree.Proofs.Comment

/-!
This module contains how deep the constructs of a tree lie in each other. The main definitions are
`Node.levels`, which counts the constructs on the deepest path, and `Node.IsPath`, the paths from a
node to its leaves.
-/

namespace ShellTree

/-- The constructs that can hold others of their kind and take a nesting level each. -/
def NodeKind.takesLevel : NodeKind → Bool
  | .subshell | .compoundStatement | .commandSubstitution | .processSubstitution | .expansion
  | .arithmeticExpansion | .string | .parenthesizedExpression
  | .parenthesizedArithmeticExpression => true
  | _ => false

namespace Node

variable {comments : List Span} {node child : Node} {nodes nodes' path : List Node}

mutual

/-- The most nodes that take a level on a path from the node down. -/
def levels : Node → Nat
  | ⟨kind, _, children⟩ => kind.takesLevel.toNat + levelsAll children

def levelsAll : List Node → Nat
  | [] => 0
  | node :: nodes => max (levels node) (levelsAll nodes)

end

theorem levels_eq (node : Node) :
    node.levels = node.kind.takesLevel.toNat + levelsAll node.children := by
  obtain ⟨kind, span, children⟩ := node
  rw [levels]

theorem levelsAll_append (nodes nodes' : List Node) :
    levelsAll (nodes ++ nodes') = max (levelsAll nodes) (levelsAll nodes') := by
  induction nodes with
  | nil => simp [levelsAll]
  | cons node nodes ih => rw [List.cons_append, levelsAll, levelsAll, ih, Nat.max_assoc]

theorem levels_le_of_mem (h : node ∈ nodes) : node.levels ≤ levelsAll nodes := by
  induction h with
  | head nodes => exact Nat.le_max_left _ _
  | tail other _ ih => exact Nat.le_trans ih (Nat.le_max_right _ _)

theorem levels_comment (span : Span) : (leaf .comment span).levels = 0 := by
  simp [levels_eq, leaf, levelsAll, NodeKind.takesLevel]

/-- Comments take no levels. -/
theorem AddsComments.levelsAll_eq (h : AddsComments comments nodes nodes') :
    levelsAll nodes' = levelsAll nodes := by
  induction h with
  | nil => rfl
  | comment _ _ ih => rw [levelsAll, levels_comment, Nat.zero_max, ih]
  | leaf _ ih => rw [levelsAll, levelsAll, ih]
  | inner _ _ _ ihchildren ih => rw [levelsAll, levelsAll, levels, levels, ihchildren, ih]

/-- The nodes from a node down to a leaf below it. -/
inductive IsPath : Node → List Node → Prop where
  | leaf {node : Node} : node.isLeaf → IsPath node [node]
  | step {node child : Node} {path : List Node} :
    child ∈ node.children → IsPath child path → IsPath node (node :: path)

theorem IsPath.countP_le (h : node.IsPath path) :
    path.countP (·.kind.takesLevel) ≤ node.levels := by
  induction h with
  | leaf _ =>
    rw [levels_eq, List.countP_singleton]
    cases NodeKind.takesLevel _ <;> simp
  | step hmem _ ih =>
    rw [levels_eq, List.countP_cons, Nat.add_comm]
    apply Nat.add_le_add
    . cases NodeKind.takesLevel _ <;> simp
    . exact Nat.le_trans ih (levels_le_of_mem hmem)

end Node
end ShellTree
