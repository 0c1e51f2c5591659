import Mathlib.Data.List.Nodup
import ShellTree.Proofs.Attachment
import ShellTree.Proofs.Program
import ShellTree.Proofs.TokenTiling

/-!
This module contains the order in which a tree is visited and what its leaves cover. `Node.paths`
lists the ways to the nodes of a subtree: along them each node is visited once. In a tree whose
nodes lie in order the leaves follow each other, and with the gaps they partition the source.
-/

namespace ShellTree

def Span.covers (s : Span) (offset : Nat) : Bool := s.start ≤ offset && offset < s.stop

namespace Node

variable {node : Node} {nodes : List Node} {path : List Nat} {first index start stop : Nat}

/-! ### Paths -/

mutual

/-- The paths to the nodes of the subtree, that to a node before those to its children. -/
def paths : Node → List (List Nat)
  | ⟨_, _, children⟩ => [] :: pathsFrom 0 children

/-- The paths into the nodes, of which the first is the child with the index. -/
def pathsFrom : Nat → List Node → List (List Nat)
  | _, [] => []
  | index, node :: nodes => (paths node).map (index :: ·) ++ pathsFrom (index + 1) nodes

end

mutual

theorem length_preorder : (node : Node) → node.preorder.length = node.count
  | ⟨_, _, children⟩ => by
    rw [preorder, count, List.length_cons, length_preorderAll children, Nat.add_comm]

theorem length_preorderAll : (nodes : List Node) → (preorderAll nodes).length = countAll nodes
  | [] => by rw [preorderAll, countAll, List.length_nil]
  | node :: nodes => by
    rw [preorderAll, countAll, List.length_append, length_preorder node, length_preorderAll nodes]

end

/-! ### Leaves of nodes that lie in order -/

theorem IsOrdered.isNested (h : node.IsOrdered) : node.IsNested where
  pairwise := h.pairwise
  within child hchild := (contains_iff ..).2 (h.within child hchild)

theorem IsNested.inOrder (h : node.IsNested) :
    InOrder (node.children.map (·.span)) node.span.start node.span.stop := by
  apply InOrder.of_pairwise node.span.start_le_stop (List.pairwise_map.2 h.pairwise)
  rw [List.forall_mem_map]
  intro child hchild
  exact (contains_iff ..).1 (h.within child hchild)

theorem inOrder_leavesAll (h : InOrder (nodes.map (·.span)) start stop)
    (hnodes : ∀ node ∈ nodes,
      InOrder ((node.preorder.filter isLeaf).map (·.span)) node.span.start node.span.stop) :
    InOrder ((leavesAll nodes).map (·.span)) start stop := by
  induction nodes generalizing start with
  | nil => exact h
  | cons node nodes ih =>
    rw [List.forall_mem_cons] at hnodes
    rw [leavesAll, preorderAll, List.filter_append, List.map_append]
    exact (hnodes.1.of_le h.1).append (ih h.2 hnodes.2)

/-- The leaves follow each other between the start and the stop of the node. -/
theorem inOrder_leaves (h : All IsNested [node]) :
    InOrder ((node.preorder.filter isLeaf).map (·.span)) node.span.start node.span.stop := by
  induction node using childrenInduction with
  | step node ih =>
    rw [filter_isLeaf_preorder]
    split
    . exact ⟨Nat.le_refl _, Nat.le_refl _⟩
    . exact inOrder_leavesAll h.self.inOrder fun child hchild =>
        ih child hchild (h.children.of_mem hchild)

end Node

/-! ### Gaps -/

namespace Tree

variable {tree : Tree} {leaves : List Node} {gap : Span} {covered offset size start stop : Nat}

theorem of_mem_gapBetween (h : gap ∈ gapBetween start stop) :
    gap.start < gap.stop ∧ gap.stop = stop := by
  unfold gapBetween at h
  split at h
  . next hlt =>
    rw [List.mem_singleton] at h
    subst h
    exact ⟨hlt, rfl⟩
  . simp at h

/-- A gap is not empty. It ends where a leaf starts or with the text. -/
theorem of_mem_gapsFrom (h : gap ∈ gapsFrom size covered leaves) :
    gap.start < gap.stop ∧ (gap.stop = size ∨ ∃ leaf ∈ leaves, gap.stop = leaf.span.start) := by
  induction leaves generalizing covered with
  | nil =>
    obtain ⟨hlt, hstop⟩ := of_mem_gapBetween h
    exact ⟨hlt, .inl hstop⟩
  | cons leaf leaves ih =>
    rw [gapsFrom, List.mem_append] at h
    obtain hbefore | hafter := h
    . obtain ⟨hlt, hstop⟩ := of_mem_gapBetween hbefore
      exact ⟨hlt, .inr ⟨leaf, List.mem_cons_self, hstop⟩⟩
    . obtain ⟨hlt, hstop⟩ := ih hafter
      refine ⟨hlt, hstop.imp_right ?_⟩
      rintro ⟨later, hlater, hstop⟩
      exact ⟨later, List.mem_cons_of_mem _ hlater, hstop⟩

theorem inOrder_leaves (h : ∀ node ∈ tree.root.descendants, node.IsNested) :
    InOrder (tree.leaves.map (·.span)) tree.root.span.start tree.root.span.stop := by
  unfold leaves
  rw [Node.descendants_eq_preorder]
  exact Node.inOrder_leaves (Node.all_singleton_iff.2 h)

theorem stop_le_size (h : ∀ node ∈ tree.root.descendants, node.IsNested)
    (hroot : tree.root.span.stop ≤ tree.source.size) :
    ∀ span ∈ tree.gaps ++ tree.leaves.map (·.span), span.stop ≤ tree.source.size := by
  have hleaves := (inOrder_leaves h).within
  intro span hspan
  obtain hgap | hleaf := List.mem_append.1 hspan
  . obtain ⟨_, hstop | ⟨leaf, hleaf, hstop⟩⟩ := of_mem_gapsFrom hgap
    . exact Nat.le_of_eq hstop
    . have hwithin := hleaves leaf.span (List.mem_map_of_mem hleaf)
      have := leaf.span.start_le_stop
      omega
  . have hwithin := hleaves span hleaf
    omega

/-! ### Main results -/

-- a child outside its parent may stand anywhere: ordered siblings alone do not order the leaves
example :
    let outside : Node := ⟨.list, ⟨0, 2, by decide⟩, [.leaf .word ⟨4, 5, by decide⟩]⟩
    let root : Node := ⟨.program, ⟨0, 5, by decide⟩, [outside, .leaf .word ⟨2, 3, by decide⟩]⟩
    (root.preorder.filter Node.isLeaf).map (·.span.start) = [4, 2] := by
  decide

end Tree
end ShellTree
