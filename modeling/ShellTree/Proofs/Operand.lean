import ShellTree.Parse.Nested
import ShellTree.Proofs.Traversal

/-!
This module contains how tightly the operators of statements bind, as a condition on single nodes:
which statements can be the operands of a node.
-/

namespace ShellTree

namespace NodeKind

/-- Nodes of the kind are statements that operators or redirects put together. -/
def isJoined : NodeKind → Bool
  | .pipeline | .list | .redirectedStatement => true
  | _ => false

/-- Nodes of the kind stand between statements. -/
def isSeparator : NodeKind → Bool
  | .token _ | .heredocBody | .heredocEnd | .comment => true
  | _ => false

/-- Nodes of the kind are statements without operators, or errors in their place. -/
def isAtomic (kind : NodeKind) : Bool := !kind.isJoined && !kind.isSeparator

end NodeKind

def Node.IsAtomic (node : Node) : Prop := node.kind.isAtomic

/-- The node is a statement without operators, or no statement. -/
def Node.IsPrimary (node : Node) : Prop := node.kind.isJoined = false

/-- The node can be what a statement of the tier is. -/
def Tier.Allows : Tier → Node → Prop
  | list, _ => True
  | pipeline, node => node.kind ≠ .list ∧ node.kind ≠ .redirectedStatement
  | command, node => node.IsPrimary

/-- Nothing but separators follows the first child, since the second operand is missing. -/
def Node.IsCutOff (node : Node) : Prop := ∀ child ∈ node.children.tail, child.kind.isSeparator

/-- The children can be those of a node of the kind, as far as operators bind them. An operator
takes on its left whatever is behind it, and on its right what binds tighter. -/
def NodeKind.Binds : NodeKind → List Node → Prop
  | .pipeline, children =>
    (∀ first ∈ children.head?, first.kind ≠ .pipeline ∧ (first.kind = .list → first.IsCutOff)) ∧
      ∀ child ∈ children.tail, Tier.command.Allows child
  | .list, children => ∀ child ∈ children.tail, Tier.pipeline.Allows child
  | .negatedCommand, children => ∀ child ∈ children.tail, Tier.pipeline.Allows child
  | _, _ => True

def Node.IsBound (node : Node) : Prop := node.kind.Binds node.children

/-- The operators bind their operands everywhere below the nodes. -/
def Node.AllBound : List Node → Prop := Node.All Node.IsBound

namespace NodeKind

theorem isJoined_of_isSeparator {kind : NodeKind} (h : kind.isSeparator) :
    kind.isJoined = false := by
  cases kind <;> simp_all [isSeparator, isJoined]

theorem binds_nil (kind : NodeKind) : kind.Binds [] := by
  cases kind <;> simp [Binds]

end NodeKind

theorem Node.IsAtomic.isPrimary {node : Node} (h : node.IsAtomic) : node.IsPrimary := by
  simp only [IsAtomic, NodeKind.isAtomic, Bool.and_eq_true, Bool.not_eq_eq_eq_not,
    Bool.not_true] at h
  exact h.1

theorem Node.IsAtomic.isSeparator_eq {node : Node} (h : node.IsAtomic) :
    node.kind.isSeparator = false := by
  simp only [IsAtomic, NodeKind.isAtomic, Bool.and_eq_true, Bool.not_eq_eq_eq_not,
    Bool.not_true] at h
  exact h.2

theorem Node.IsPrimary.allows {node : Node} (h : node.IsPrimary) (tier : Tier) :
    tier.Allows node := by
  cases tier with
  | list => trivial
  | pipeline => constructor <;> rintro hkind <;> simp [IsPrimary, hkind, NodeKind.isJoined] at h
  | command => exact h

theorem Node.AllBound.leaf (kind : NodeKind) (span : Span) : AllBound [.leaf kind span] :=
  All.nil.wrap (NodeKind.binds_nil kind)

end ShellTree
