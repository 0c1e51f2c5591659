import Mathlib.Data.List.Forall2
import ShellTree.Proofs.Comment
import ShellTree.Proofs.Tree

/-!
This module contains what attached comments leave of the nodes around them. Every node keeps its
kind and its span, and what is new are comments. The first and the last child of a node stay so,
since a comment before or behind them would lie outside of the node.
-/

namespace ShellTree
namespace Node

variable {src : Source} {comments more more' : List Span} {nodes nodes' : List Node}
variable {node node' : Node}

/-- The node with comments below it. -/
structure Commented (comments : List Span) (node node' : Node) : Prop where
  kind_eq : node'.kind = node.kind
  span_eq : node'.span = node.span
  leaf : node.children = [] → node'.children = []
  adds : AddsComments comments node.children node'.children

theorem commented_leaf {kind : NodeKind} {span : Span} :
    Commented comments (.leaf kind span) (.leaf kind span) := ⟨rfl, rfl, fun _ => rfl, .nil⟩

theorem commented_inner {kind : NodeKind} {span : Span} (hne : nodes ≠ [])
    (h : AddsComments comments nodes nodes') :
    Commented comments ⟨kind, span, nodes⟩ ⟨kind, span, nodes'⟩ :=
  ⟨rfl, rfl, fun hempty => absurd hempty hne, h⟩

namespace AddsComments

theorem exists_commented (h : AddsComments comments nodes nodes') (hnode : node ∈ nodes) :
    ∃ node' ∈ nodes', Commented comments node node' := by
  induction h with
  | nil => simp at hnode
  | comment _ _ ih =>
    obtain ⟨node', hmem, hcommented⟩ := ih hnode
    exact ⟨node', List.mem_cons_of_mem _ hmem, hcommented⟩
  | leaf _ ih =>
    simp only [List.mem_cons, exists_eq_or_imp] at hnode ⊢
    exact hnode.imp (fun heq => by rw [heq]; exact commented_leaf) ih
  | inner hne hchildren _ _ ih =>
    simp only [List.mem_cons, exists_eq_or_imp] at hnode ⊢
    exact hnode.imp (fun heq => by rw [heq]; exact commented_inner hne hchildren) ih

theorem of_mem (h : AddsComments comments nodes nodes') (hnode : node' ∈ nodes') :
    (∃ c ∈ comments, node' = .leaf .comment c) ∨ ∃ node ∈ nodes, Commented comments node node' := by
  induction h with
  | nil => simp at hnode
  | comment hmem _ ih =>
    rw [List.mem_cons] at hnode
    exact hnode.elim (fun heq => .inl ⟨_, hmem, heq⟩) ih
  | leaf _ ih =>
    simp only [List.mem_cons, exists_eq_or_imp] at hnode ⊢
    rw [or_left_comm]
    exact hnode.imp (fun heq => by rw [heq]; exact commented_leaf) ih
  | inner hne hchildren _ _ ih =>
    simp only [List.mem_cons, exists_eq_or_imp] at hnode ⊢
    rw [or_left_comm]
    exact hnode.imp (fun heq => by rw [heq]; exact commented_inner hne hchildren) ih

/-- Every node of the tree with comments is a comment, or stands in the tree without. -/
theorem origin (h : AddsComments comments nodes nodes') (hnode : node' ∈ preorderAll nodes') :
    (∃ c ∈ comments, node' = .leaf .comment c) ∨
      ∃ node ∈ preorderAll nodes, Commented comments node node' := by
  have hself : ∀ {node nodes}, node ∈ preorderAll (node :: nodes) := by
    simp [preorderAll, mem_preorder_self]
  have hbelow : ∀ {node descendant : Node} {nodes}, descendant ∈ preorderAll node.children →
      descendant ∈ preorderAll (node :: nodes) := by
    intro node descendant nodes hmem
    simp [preorderAll, preorder_eq, hmem]
  have hafter : ∀ {node descendant : Node} {nodes}, descendant ∈ preorderAll nodes →
      descendant ∈ preorderAll (node :: nodes) := by
    intro node descendant nodes hmem
    simp [preorderAll, hmem]
  induction h with
  | nil => simp [preorderAll] at hnode
  | comment hmem _ ih =>
    simp only [preorderAll, preorder_eq, List.cons_append, List.mem_cons, List.mem_append] at hnode
    obtain rfl | hbelow | hrest := hnode
    . exact .inl ⟨_, hmem, rfl⟩
    . simp [Node.leaf, preorderAll] at hbelow
    . exact ih hrest
  | leaf _ ih =>
    simp only [preorderAll, preorder_eq, List.cons_append, List.mem_cons, List.mem_append] at hnode
    obtain rfl | hbelow | hrest := hnode
    . exact .inr ⟨_, hself, commented_leaf⟩
    . simp [Node.leaf, preorderAll] at hbelow
    . exact (ih hrest).imp_right (Exists.imp fun _ => And.imp_left hafter)
  | inner hne hchildren _ ihchildren ih =>
    simp only [preorderAll, preorder_eq, List.cons_append, List.mem_cons, List.mem_append] at hnode
    obtain rfl | hchild | hrest := hnode
    . exact .inr ⟨_, hself, commented_inner hne hchildren⟩
    . exact (ihchildren hchild).imp_right (Exists.imp fun _ => And.imp_left hbelow)
    . exact (ih hrest).imp_right (Exists.imp fun _ => And.imp_left hafter)

/-- The first node stays the first where nothing starts before it. -/
theorem first {first : Node} (h : AddsComments comments (first :: nodes) nodes')
    (hcomments : ∀ c ∈ comments, c.start < c.stop)
    (hordered : nodes'.Pairwise fun node later => node.span.stop ≤ later.span.start)
    (hstart : ∀ first' ∈ nodes'.head?, first'.span.start = first.span.start) :
    ∃ first' rest', nodes' = first' :: rest' ∧ Commented comments first first' ∧
      AddsComments comments nodes rest' := by
  cases h with
  | comment hmem hrest =>
    obtain ⟨node', hnode', hcommented⟩ := hrest.exists_commented List.mem_cons_self
    have hlt := hcomments _ hmem
    have hle := (List.pairwise_cons.1 hordered).1 node' hnode'
    have heq := hstart _ rfl
    rw [hcommented.span_eq] at hle
    dsimp only [Node.leaf] at hle heq
    omega
  | leaf hrest => exact ⟨_, _, rfl, commented_leaf, hrest⟩
  | inner hne hchildren hrest => exact ⟨_, _, rfl, commented_inner hne hchildren, hrest⟩

theorem last_cons {last : Node} (hnode : Commented comments node node')
    (h : AddsComments comments nodes nodes') (hcomments : ∀ c ∈ comments, c.start < c.stop)
    (hordered : (node' :: nodes').Pairwise fun node later => node.span.stop ≤ later.span.start)
    (hlast : last ∈ (node :: nodes).getLast?)
    (hstop : ∀ last' ∈ (node' :: nodes').getLast?, last'.span.stop = last.span.stop)
    (hrest : last ∈ nodes.getLast? → ∃ last' ∈ nodes'.getLast?, Commented comments last last') :
    ∃ last' ∈ (node' :: nodes').getLast?, Commented comments last last' := by
  cases nodes with
  | nil =>
    obtain rfl : node = last := by simpa using hlast
    cases nodes' with
    | nil => exact ⟨node', rfl, hnode⟩
    | cons first' rest' =>
      -- nothing but comments follows, and they would end behind the node
      obtain ⟨last', hlast'⟩ : ∃ last', (first' :: rest').getLast? = some last' :=
        ⟨_, List.getLast?_eq_some_getLast (by simp)⟩
      have hmem := List.mem_of_getLast? hlast'
      obtain ⟨c, hc, rfl⟩ | ⟨_, hnone, _⟩ := h.of_mem hmem
      . have hlt := hcomments c hc
        have hle := (List.pairwise_cons.1 hordered).1 _ hmem
        have heq := hstop _ (by rwa [List.getLast?_cons_cons])
        rw [hnode.span_eq] at hle
        dsimp only [Node.leaf] at hle heq
        omega
      . simp at hnone
  | cons child rest =>
    rw [List.getLast?_cons_cons] at hlast
    obtain ⟨last', hlast', hcommented⟩ := hrest hlast
    refine ⟨last', ?_, hcommented⟩
    rw [List.getLast?_cons, hlast']
    rfl

/-- The last node stays the last where nothing ends behind it. -/
theorem last {last : Node} (h : AddsComments comments nodes nodes')
    (hcomments : ∀ c ∈ comments, c.start < c.stop)
    (hordered : nodes'.Pairwise fun node later => node.span.stop ≤ later.span.start)
    (hlast : last ∈ nodes.getLast?)
    (hstop : ∀ last' ∈ nodes'.getLast?, last'.span.stop = last.span.stop) :
    ∃ last' ∈ nodes'.getLast?, Commented comments last last' := by
  have hbehind : ∀ {first' : Node} {rest' : List Node},
      (∀ last' ∈ (first' :: rest').getLast?, last'.span.stop = last.span.stop) →
        ∀ last' ∈ rest'.getLast?, last'.span.stop = last.span.stop := by
    intro first' rest' hstop last' hlast'
    apply hstop
    rw [List.getLast?_cons, hlast']
    rfl
  induction h with
  | nil => simp at hlast
  | comment _ _ ih =>
    obtain ⟨last', hlast', hcommented⟩ := ih (List.pairwise_cons.1 hordered).2 hlast (hbehind hstop)
    refine ⟨last', ?_, hcommented⟩
    rw [List.getLast?_cons, hlast']
    rfl
  | leaf hrest ih =>
    exact last_cons commented_leaf hrest hcomments hordered hlast hstop fun hmem =>
      ih (List.pairwise_cons.1 hordered).2 hmem (hbehind hstop)
  | inner hne hchildren hrest _ ih =>
    exact last_cons (commented_inner hne hchildren) hrest hcomments hordered hlast hstop fun hmem =>
      ih (List.pairwise_cons.1 hordered).2 hmem (hbehind hstop)

theorem forall₂ (h : AddsComments comments nodes nodes')
    (hnodes : ∀ node ∈ nodes, node.kind ≠ .comment) :
    List.Forall₂ (Commented comments) nodes (nodes'.filter (·.kind != .comment)) := by
  induction h with
  | nil => exact .nil
  | comment _ _ ih =>
    rw [List.filter_cons_of_neg (by simp [Node.leaf])]
    exact ih hnodes
  | leaf _ ih =>
    simp only [List.mem_cons, forall_eq_or_imp] at hnodes
    rw [List.filter_cons_of_pos (by simpa using hnodes.1)]
    exact .cons commented_leaf (ih hnodes.2)
  | inner hne hchildren _ _ ih =>
    simp only [List.mem_cons, forall_eq_or_imp] at hnodes
    rw [List.filter_cons_of_pos (by simpa using hnodes.1)]
    exact .cons (commented_inner hne hchildren) (ih hnodes.2)

end AddsComments

/-- The node with comments below it as the two stand in their trees, where each comment covers
something. -/
structure Attached (src : Source) (comments more more' : List Span) (node node' : Node) : Prop
    extends Commented comments node node' where
  lt : ∀ c ∈ comments, c.start < c.stop
  before : node.Fits src more
  after : node'.Fits src more'

namespace Attached

theorem child {child child' : Node} (h : Attached src comments more more' node node')
    (hcommented : Commented comments child child') (hchild : child ∈ node.children)
    (hchild' : child' ∈ node'.children) : Attached src comments more more' child child' :=
  ⟨hcommented, h.lt, h.before.child hchild, h.after.child hchild'⟩

theorem isTight (h : Attached src comments more more' node node')
    (hmargins : node.kind.hasMargins = false) (hne : node.children ≠ []) :
    node.IsTight ∧ node'.IsTight := by
  have htight := ((fits_of_ne_nil hne).1 h.before).2.resolve_left (by simp [hmargins])
  have htight' := ((fits_of_ne_nil (h.adds.ne_nil hne)).1 h.after).2.resolve_left
    (by simp [h.kind_eq, hmargins])
  exact ⟨htight, htight'⟩

theorem first {child : Node} {rest : List Node} (h : Attached src comments more more' node node')
    (hmargins : node.kind.hasMargins = false) (hchildren : node.children = child :: rest) :
    ∃ child' rest', node'.children = child' :: rest' ∧
      Attached src comments more more' child child' ∧ AddsComments comments rest rest' := by
  have hadds := h.adds
  rw [hchildren] at hadds
  obtain ⟨htight, htight'⟩ := h.isTight hmargins (by simp [hchildren])
  have hstart : ∀ child' ∈ node'.children.head?, child'.span.start = child.span.start := by
    intro child' hchild'
    rw [← htight'.1 child' hchild', h.span_eq, htight.1 child (by simp [hchildren])]
  obtain ⟨child', rest', hchildren', hcommented, hrest⟩ :=
    hadds.first h.lt h.after.isOrdered.pairwise hstart
  exact ⟨child', rest', hchildren', h.child hcommented (by simp [hchildren])
    (by simp [hchildren']), hrest⟩

theorem last {last : Node} (h : Attached src comments more more' node node')
    (hmargins : node.kind.hasMargins = false) (hlast : last ∈ node.children.tail.getLast?) :
    ∃ last' ∈ node'.children.tail.getLast?, Commented comments last last' := by
  cases hchildren : node.children with
  | nil => simp [hchildren] at hlast
  | cons child rest =>
    obtain ⟨child', rest', hchildren', _, hrest⟩ := h.first hmargins hchildren
    obtain ⟨htight, htight'⟩ := h.isTight hmargins (by simp [hchildren])
    have hordered := h.after.isOrdered.pairwise
    rw [hchildren, List.tail_cons] at hlast
    rw [hchildren', List.pairwise_cons] at hordered
    rw [hchildren', List.tail_cons]
    have hbehind : ∀ {child last : Node} {rest : List Node}, last ∈ rest.getLast? →
        last ∈ (child :: rest).getLast? := by
      intro child last rest hlast
      rw [List.getLast?_cons, hlast]
      rfl
    apply hrest.last h.lt hordered.2 hlast
    intro last' hlast'
    rw [← htight'.2 last' (hchildren' ▸ hbehind hlast'), h.span_eq,
      htight.2 last (hchildren ▸ hbehind hlast)]

/-- Without the comments the children pair up with what was read. -/
theorem readChildren (h : Attached src comments more more' node node')
    (hne : ∀ child ∈ node.children, child.kind ≠ .comment) :
    List.Forall₂ (Attached src comments more more') node.children node'.readChildren := by
  have hpairs := h.adds.forall₂ hne
  have hafter : ∀ child' ∈ node'.readChildren, child'.Fits src more' := fun child' hchild' =>
    h.after.child (List.mem_of_mem_filter hchild')
  have hbefore := (List.forall₂_and_left _ _).2 ⟨fun _ => h.before.child, hpairs⟩
  have hboth := (List.forall₂_and_left _ _).2 ⟨hafter, hbefore.flip⟩
  exact hboth.flip.imp fun _ _ hpair => ⟨hpair.2.2, h.lt, hpair.2.1, hpair.1⟩

end Attached

end Node
end ShellTree
