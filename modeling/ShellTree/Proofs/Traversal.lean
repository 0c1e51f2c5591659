import ShellTree.Tree
import ShellTree.Proofs.Tiling

/-!
This module contains the correctness of the traversal of a tree: the stack holds what is still to be
visited in preorder. The leaves tile what the nodes tile.
-/

namespace ShellTree
namespace Node

variable {src : Source} {comments : List Span} {start stop : Nat} {node descendant : Node}
variable {nodes siblings : List Node}

theorem preorderAll_append :
    preorderAll (nodes ++ siblings) = preorderAll nodes ++ preorderAll siblings := by
  induction nodes with
  | nil => rw [List.nil_append, preorderAll, List.nil_append]
  | cons node nodes ih => simp only [List.cons_append, preorderAll, ih, List.append_assoc]

theorem preorder_eq (node : Node) : preorder node = node :: preorderAll node.children := by
  obtain ⟨kind, span, children⟩ := node
  rw [preorder]

theorem mem_preorder_self (node : Node) : node ∈ preorder node := by simp [preorder_eq]

theorem visit_eq_preorderAll (stack : List Node) : visit stack = preorderAll stack := by
  fun_induction visit stack with
  -- the children of the top take its place, in front of what was below it
  | case1 => rw [preorderAll]
  | case2 node stack ih => rw [ih, preorderAll_append, preorderAll, preorder_eq, List.cons_append]

theorem descendants_eq (node : Node) : node.descendants = node :: preorderAll node.children := by
  rw [descendants, visit_eq_preorderAll, preorderAll, preorderAll, List.append_nil, preorder_eq]

theorem descendants_eq_preorder (node : Node) : node.descendants = preorder node := by
  rw [descendants_eq, preorder_eq]

theorem mem_preorderAll_iff : node ∈ preorderAll nodes ↔ ∃ top ∈ nodes, node ∈ preorder top := by
  induction nodes with
  | nil => simp [preorderAll]
  | cons top nodes ih => simp [preorderAll, ih]

theorem mem_preorder_iff :
    descendant ∈ preorder node ↔ descendant = node ∨ descendant ∈ preorderAll node.children := by
  rw [preorder_eq, List.mem_cons]

theorem mem_preorderAll_of_mem (h : node ∈ nodes) : node ∈ preorderAll nodes := by
  obtain ⟨before, after, rfl⟩ := List.append_of_mem h
  simp [preorderAll_append, preorderAll, preorder_eq]

theorem mem_preorderAll_child {child : Node} (h : node ∈ preorderAll nodes)
    (hchild : child ∈ node.children) : child ∈ preorderAll nodes := by
  rw [← visit_eq_preorderAll] at h ⊢
  fun_induction visit nodes with
  | case1 => simp at h
  | case2 top stack ih =>
    rw [List.mem_cons] at h
    obtain rfl | hbelow := h
    . have hmem := mem_preorderAll_of_mem (List.mem_append_left stack hchild)
      rw [← visit_eq_preorderAll] at hmem
      exact List.mem_cons_of_mem _ hmem
    . exact List.mem_cons_of_mem _ (ih hbelow)

/-- The children that were read. -/
def readChildren (node : Node) : List Node := node.children.filter (·.kind != .comment)

/-! ### Conditions on all nodes -/

def All (p : Node → Prop) (nodes : List Node) : Prop := ∀ node ∈ preorderAll nodes, p node

section

variable {p q : Node → Prop} {kind : NodeKind} {span : Span}

theorem all_singleton_iff : All p [node] ↔ ∀ descendant ∈ node.descendants, p descendant := by
  rw [descendants_eq_preorder, All, preorderAll, preorderAll, List.append_nil]

theorem all_append_cons :
    All p (siblings ++ node :: nodes) ↔ All p siblings ∧ All p [node] ∧ All p nodes := by
  simp only [All, preorderAll_append, preorderAll, List.append_nil, List.mem_append, or_imp,
    forall_and]

theorem all_cons : All p (node :: nodes) ↔ p node ∧ All p node.children ∧ All p nodes := by
  simp only [All, preorderAll, preorder_eq, List.cons_append, List.mem_cons, List.mem_append,
    or_imp, forall_and, forall_eq]

namespace All

theorem nil : All p [] := by simp [All, preorderAll]

theorem append (h : All p nodes) (h' : All p siblings) : All p (nodes ++ siblings) := by
  intro node hnode
  rw [preorderAll_append, List.mem_append] at hnode
  exact hnode.elim (h node) (h' node)

theorem imp (h : All p nodes) (hpq : ∀ node, p node → q node) : All q nodes :=
  fun node hnode => hpq node (h node hnode)

theorem of_mem (h : All p nodes) (hnode : node ∈ nodes) : All p [node] := by
  obtain ⟨before, after, rfl⟩ := List.append_of_mem hnode
  exact (all_append_cons.1 h).2.1

theorem wrap (h : All p nodes) (hnode : p ⟨kind, span, nodes⟩) : All p [⟨kind, span, nodes⟩] :=
  all_cons.2 ⟨hnode, h, nil⟩

theorem self (h : All p [node]) : p node := (all_cons.1 h).1

theorem children (h : All p [node]) : All p node.children := (all_cons.1 h).2.1

end All

end

/-! ### Leaves -/

def leavesAll (nodes : List Node) : List Node := (preorderAll nodes).filter isLeaf

theorem filter_isLeaf_preorder (node : Node) :
    (preorder node).filter isLeaf = if node.isLeaf then [node] else leavesAll node.children := by
  rw [preorder_eq, List.filter_cons]
  split
  . next hleaf =>
    have hchildren : node.children = [] := by simpa [isLeaf] using hleaf
    rw [hchildren, preorderAll]
    rfl
  . rfl

theorem filter_isLeaf_descendants (node : Node) :
    node.descendants.filter isLeaf = if node.isLeaf then [node] else leavesAll node.children := by
  rw [descendants_eq_preorder, filter_isLeaf_preorder]

theorem leavesAll_append :
    leavesAll (nodes ++ siblings) = leavesAll nodes ++ leavesAll siblings := by
  simp only [leavesAll, preorderAll_append, List.filter_append]

theorem leavesAll_cons :
    leavesAll (node :: nodes) =
      (if node.isLeaf then [node] else leavesAll node.children) ++ leavesAll nodes := by
  rw [leavesAll, preorderAll, List.filter_append, filter_isLeaf_preorder]
  rfl

end Node

mutual

theorem Node.Fits.leaves {src : Source} {comments : List Span} : {node : Node} →
    node.Fits src comments → node.isLeaf = false →
      Tiles src comments (Node.leavesAll node.children) node.span.start node.span.stop
  | ⟨_, _, []⟩, _, hleaf => by simp [Node.isLeaf] at hleaf
  | ⟨_, _, child :: children⟩, h, _ => by
    rw [Node.Fits] at h
    exact h.1.leaves

/-- The leaves tile what the nodes tile. -/
theorem Tiles.leaves {src : Source} {comments : List Span} : {nodes : List Node} →
    {start stop : Nat} → Tiles src comments nodes start stop →
      Tiles src comments (Node.leavesAll nodes) start stop
  | [], _, _, h => by
    rw [Node.leavesAll, Node.preorderAll]
    exact tiles_nil.2 (tiles_nil.1 h)
  | node :: nodes, start, stop, h => by
    obtain ⟨hgap, hfits, hrest⟩ := tiles_cons.1 h
    rw [Node.leavesAll_cons]
    split
    . exact tiles_cons.2 ⟨hgap, hfits, hrest.leaves⟩
    . next hleaf => exact ((hfits.leaves (by simpa using hleaf)).skip_left hgap).append hrest.leaves

end

end ShellTree
