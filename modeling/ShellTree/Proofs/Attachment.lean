import ShellTree.Proofs.Comment

/-!
This module contains the attachment of comments to any tree whose nodes lie in order: a comment
changes the tree exactly if nothing that it overlaps hinders it, and then it becomes one leaf of the
innermost node around it, while all else stays as it was.
-/

namespace ShellTree
namespace Node

variable {comment : Span} {comments : List Span} {root node node' holder inner : Node}
variable {nodes before after : List Node}

/-! ### Trees whose nodes lie in order -/

/-- The children are in order, do not overlap and lie inside the node. -/
structure IsNested (node : Node) : Prop where
  pairwise : node.children.Pairwise fun child later => child.span.stop ≤ later.span.start
  within : ∀ child ∈ node.children, node.span.contains child.span

instance (node : Node) : Decidable node.IsNested :=
  decidable_of_iff ((node.children.Pairwise fun child later => child.span.stop ≤ later.span.start) ∧
      ∀ child ∈ node.children, node.span.contains child.span)
    ⟨fun h => ⟨h.1, h.2⟩, fun h => ⟨h.1, h.2⟩⟩

/-- Nothing hinders the comment: it lies inside the root, the leaves do not overlap it, and what
overlaps it otherwise is around it. The root of an empty program is a leaf that does not count. -/
structure Admits (root : Node) (comment : Span) : Prop where
  within : root.span.contains comment
  leaf : ∀ node ∈ root.descendants, node.isLeaf → node.span.overlaps comment →
    node = root ∧ root.kind = .program
  inner : ∀ node ∈ root.descendants, node.isLeaf = false → node.span.overlaps comment →
    node.span.contains comment

/-- The holder, somewhere in the one tree, has a leaf for the comment among its children in the
other. All other nodes are the same in both. -/
inductive Receives (comment : Span) : Node → Node → Node → Prop where
  | among {kind : NodeKind} {span : Span} {before after : List Node} :
    span.contains comment → (∀ node ∈ before, node.span.stop ≤ comment.start) →
      (∀ node ∈ after, comment.stop ≤ node.span.start) →
        Receives comment ⟨kind, span, before ++ after⟩ ⟨kind, span, before ++ after⟩
          ⟨kind, span, before ++ .leaf .comment comment :: after⟩
  | inside {kind : NodeKind} {span : Span} {before after : List Node} {child holder child' : Node} :
    child.isLeaf = false → Receives comment child holder child' →
      Receives comment ⟨kind, span, before ++ child :: after⟩ holder
        ⟨kind, span, before ++ child' :: after⟩

def label (node : Node) : NodeKind × Span := (node.kind, node.span)

/-- The kinds and spans of the nodes, each before those of its children. -/
def labels (node : Node) : List (NodeKind × Span) := node.descendants.map label

/-! ### Nodes below nodes -/

/-- What is passed on from the children to their parent holds of every node. -/
@[elab_as_elim]
theorem childrenInduction {motive : Node → Prop}
    (step : ∀ node, (∀ child ∈ node.children, motive child) → motive node) (node : Node) :
    motive node :=
  step node fun child _ => childrenInduction step child
termination_by node
decreasing_by
  obtain ⟨kind, span, children⟩ := node
  have hlt := List.sizeOf_lt_of_mem ‹_›
  simp only [mk.sizeOf_spec] at hlt ⊢
  omega

theorem contains_trans {a b c : Span} (h : a.contains b) (h' : b.contains c) : a.contains c := by
  rw [contains_iff] at h h' ⊢
  omega

theorem overlaps_of_contains {span : Span} (hlt : comment.start < comment.stop)
    (h : span.contains comment) : span.overlaps comment := by
  rw [contains_iff] at h
  simp only [Span.overlaps, Bool.and_eq_true, decide_eq_true_eq]
  omega

/-- What is below a node lies inside it. -/
theorem contains_of_mem_preorder (h : All IsNested [root]) (hnode : node ∈ preorder root) :
    root.span.contains node.span := by
  induction root using childrenInduction with
  | step root ih =>
    rw [mem_preorder_iff] at hnode
    obtain rfl | hbelow := hnode
    . simp [contains_iff]
    . obtain ⟨child, hchild, hnode⟩ := mem_preorderAll_iff.1 hbelow
      have hinside := ih child hchild (h.children.of_mem hchild) hnode
      exact contains_trans (h.self.within child hchild) hinside

/-! ### The way to the place -/

/-- Either the comment fits between two of the siblings, or one of them decides. -/
theorem insertAmong?_cases (comment : Span)
    (h : nodes.Pairwise fun node later => node.span.stop ≤ later.span.start) :
    (∃ before after, nodes = before ++ after ∧ (∀ node ∈ before, node.span.stop ≤ comment.start) ∧
      (∀ node ∈ after, comment.stop ≤ node.span.start) ∧
      insertAmong? comment nodes = some (before ++ .leaf .comment comment :: after)) ∨
    ∃ before child after, nodes = before ++ child :: after ∧ child.meets comment ∧
      insertAmong? comment nodes =
        if child.isLeaf then none
        else (insertComment? comment child).map fun child => before ++ child :: after := by
  induction nodes with
  | nil =>
    left
    exact ⟨[], [], rfl, by simp, by simp, by rw [insertAmong?]; rfl⟩
  | cons node nodes ih =>
    obtain ⟨hnode, hnodes⟩ := List.pairwise_cons.1 h
    rw [insertAmong?]
    by_cases hmeets : node.meets comment
    . right
      exact ⟨[], node, nodes, rfl, hmeets, by rw [if_pos hmeets]; rfl⟩
    . rw [if_neg hmeets]
      by_cases hbefore : comment.stop ≤ node.span.start
      . left
        rw [if_pos hbefore]
        refine ⟨[], node :: nodes, rfl, by simp, ?_, rfl⟩
        intro later hlater
        obtain rfl | hlater := List.mem_cons.1 hlater
        . exact hbefore
        . have hle := hnode later hlater
          have := node.span.start_le_stop
          omega
      . rw [if_neg hbefore]
        have hstop : node.span.stop ≤ comment.start := by
          rw [meets_iff, not_or] at hmeets
          omega
        obtain ⟨before, after, rfl, hbefore, hafter, heq⟩ |
          ⟨before, child, after, rfl, hmeets, heq⟩ := ih hnodes
        . left
          rw [heq]
          exact ⟨node :: before, after, rfl, List.forall_mem_cons.2 ⟨hstop, hbefore⟩, hafter, rfl⟩
        . right
          refine ⟨node :: before, child, after, rfl, hmeets, ?_⟩
          rw [heq]
          split
          . rfl
          . rw [Option.map_map]
            rfl

/-- A node that takes the comment gives it to one holder. -/
theorem exists_receives (h : All IsNested [node])
    (hsome : insertComment? comment node = some node') :
    ∃ holder, Receives comment node holder node' := by
  induction node using childrenInduction generalizing node' with
  | step node ih =>
    obtain ⟨kind, span, children⟩ := node
    rw [insertComment?] at hsome
    split at hsome
    . next hcontains =>
      rw [Bool.and_eq_true] at hcontains
      obtain ⟨children', hamong, rfl⟩ := Option.map_eq_some_iff.1 hsome
      obtain ⟨before, after, rfl, hbefore, hafter, heq⟩ |
        ⟨before, child, after, rfl, -, heq⟩ := insertAmong?_cases comment h.self.pairwise
      . rw [heq] at hamong
        cases hamong
        exact ⟨_, .among hcontains.1 hbefore hafter⟩
      . rw [heq] at hamong
        split at hamong
        . contradiction
        . next hleaf =>
          obtain ⟨child', hchild', rfl⟩ := Option.map_eq_some_iff.1 hamong
          have hmem : child ∈ before ++ child :: after := by simp
          obtain ⟨holder, hholder⟩ := ih child hmem (h.children.of_mem hmem) hchild'
          exact ⟨holder, .inside (by simpa using hleaf) hholder⟩
    . contradiction

/-- Nothing below hinders the comment, so that it finds its place. -/
theorem isSome_insertComment? (h : All IsNested [node]) (hcontains : node.span.contains comment)
    (hkind : node.isLeaf = false ∨ node.kind = .program)
    (hbelow : ∀ inner ∈ preorderAll node.children, inner.span.overlaps comment →
      inner.isLeaf = false ∧ inner.span.contains comment) :
    (insertComment? comment node).isSome := by
  induction node using childrenInduction with
  | step node ih =>
    obtain ⟨kind, span, children⟩ := node
    have hinner : (!children.isEmpty || kind == .program) = true := by
      simpa [isLeaf] using hkind
    rw [insertComment?, if_pos (by rw [hcontains, hinner]; rfl), Option.isSome_map]
    obtain ⟨before, after, rfl, -, -, heq⟩ | ⟨before, child, after, rfl, hmeets, heq⟩ :=
      insertAmong?_cases comment h.self.pairwise
    . rw [heq]
      rfl
    . have hmem : child ∈ before ++ child :: after := by simp
      have hchild : child.isLeaf = false ∧ child.span.contains comment := by
        simp only [meets, Bool.or_eq_true, Bool.and_eq_true, Bool.not_eq_true'] at hmeets
        obtain hoverlaps | ⟨hcontains, hleaf⟩ := hmeets
        . exact hbelow child (mem_preorderAll_of_mem hmem) hoverlaps
        . exact ⟨hleaf, hcontains⟩
      rw [heq, if_neg (by simp [hchild.1]), Option.isSome_map]
      apply ih child hmem (h.children.of_mem hmem) hchild.2 (.inl hchild.1)
      intro inner hinner
      apply hbelow inner
      exact mem_preorderAll_iff.2 ⟨child, hmem, mem_preorder_iff.2 (.inr hinner)⟩

/-! ### What is beside the place -/

/-- What lies before or behind the comment overlaps it nowhere. -/
theorem not_overlaps_of_beside (h : All IsNested nodes)
    (hbeside : ∀ node ∈ nodes, node.span.stop ≤ comment.start ∨ comment.stop ≤ node.span.start)
    (hinner : inner ∈ preorderAll nodes) : ¬ inner.span.overlaps comment := by
  obtain ⟨top, htop, hinner⟩ := mem_preorderAll_iff.1 hinner
  have hcontains := contains_iff.1 (contains_of_mem_preorder (h.of_mem htop) hinner)
  have hside := hbeside top htop
  simp only [Span.overlaps, Bool.and_eq_true, decide_eq_true_eq]
  omega

/-- The siblings of a node around the comment. -/
theorem IsNested.beside {kind : NodeKind} {span : Span}
    (h : IsNested ⟨kind, span, before ++ node :: after⟩) (hcontains : node.span.contains comment) :
    ∀ sibling ∈ before ++ after,
      sibling.span.stop ≤ comment.start ∨ comment.stop ≤ sibling.span.start := by
  obtain ⟨-, hafter, hbefore⟩ := List.pairwise_append.1 h.pairwise
  rw [contains_iff] at hcontains
  intro sibling hsibling
  obtain hsibling | hsibling := List.mem_append.1 hsibling
  . have hle := hbefore sibling hsibling node List.mem_cons_self
    omega
  . have hle := (List.pairwise_cons.1 hafter).1 sibling hsibling
    omega

theorem mem_preorderAll_append_cons :
    inner ∈ preorderAll (before ++ node :: after) ↔
      inner ∈ preorderAll (before ++ after) ∨ inner ∈ preorder node := by
  simp only [preorderAll_append, preorderAll, List.mem_append]
  rw [← or_assoc, or_right_comm]

/-- Whether a node is nested depends on the spans of its children. -/
theorem IsNested.of_map_span {kind : NodeKind} {span : Span} {children children' : List Node}
    (h : IsNested ⟨kind, span, children⟩) (heq : children'.map (·.span) = children.map (·.span)) :
    IsNested ⟨kind, span, children'⟩ := by
  constructor
  . have hpairwise : (children.map (·.span)).Pairwise fun a b => a.stop ≤ b.start :=
      List.pairwise_map.2 h.pairwise
    rw [← heq] at hpairwise
    exact List.pairwise_map.1 hpairwise
  . intro child hchild
    have hmem : child.span ∈ children.map (·.span) := heq ▸ List.mem_map_of_mem hchild
    obtain ⟨child', hchild', hspan⟩ := List.mem_map.1 hmem
    rw [← hspan]
    exact h.within child' hchild'

namespace Receives

theorem span_eq (h : Receives comment node holder node') : node'.span = node.span := by
  cases h <;> rfl

theorem isLeaf_eq (h : Receives comment node holder node') : node'.isLeaf = false := by
  cases h <;> simp [isLeaf]

theorem isLeaf_or_eq (h : Receives comment node holder node') :
    holder.isLeaf = false ∨ holder = node := by
  induction h with
  | among => exact .inr rfl
  | inside hleaf _ ih => exact .inl (ih.elim id fun heq => heq ▸ hleaf)

theorem contains (h : Receives comment node holder node') (hnested : All IsNested [node]) :
    node.span.contains comment ∧ holder.span.contains comment := by
  induction h with
  | among hcontains => exact ⟨hcontains, hcontains⟩
  | @inside _ _ before after child _ _ _ _ ih =>
    have hmem : child ∈ before ++ child :: after := by simp
    obtain ⟨hchild, hholder⟩ := ih (hnested.children.of_mem hmem)
    exact ⟨contains_trans (hnested.self.within child hmem) hchild, hholder⟩

theorem holder_mem (h : Receives comment node holder node') : holder ∈ preorder node := by
  induction h with
  | among => exact mem_preorder_self _
  | inside _ _ ih => exact mem_preorder_iff.2 (.inr (mem_preorderAll_append_cons.2 (.inr ih)))

/-- Below the node only what is around the holder overlaps the comment. -/
theorem around (h : Receives comment node holder node') (hnested : All IsNested [node])
    (hinner : inner ∈ preorderAll node.children) (hoverlaps : inner.span.overlaps comment) :
    inner.isLeaf = false ∧ inner.span.contains comment ∧ holder ∈ preorder inner := by
  induction h with
  | @among _ _ before after _ hbefore hafter =>
    refine absurd hoverlaps (not_overlaps_of_beside hnested.children ?_ hinner)
    intro node hnode
    exact (List.mem_append.1 hnode).imp (hbefore node) (hafter node)
  | @inside _ _ before after child _ _ hleaf hreceives ih =>
    obtain ⟨hbefore, hchild, hafter⟩ := all_append_cons.1 hnested.children
    have hcontains := (hreceives.contains hchild).1
    obtain hbeside | hbelow := mem_preorderAll_append_cons.1 hinner
    . exact absurd hoverlaps
        (not_overlaps_of_beside (hbefore.append hafter) (hnested.self.beside hcontains) hbeside)
    . obtain rfl | hbelow := mem_preorder_iff.1 hbelow
      . exact ⟨hleaf, hcontains, hreceives.holder_mem⟩
      . exact ih hchild hbelow

/-- Each node around the comment has the holder in its subtree. -/
theorem innermost (h : Receives comment node holder node') (hnested : All IsNested [node])
    (hlt : comment.start < comment.stop) (hinner : inner ∈ preorder node)
    (hcontains : inner.span.contains comment) : holder ∈ preorder inner := by
  obtain rfl | hbelow := mem_preorder_iff.1 hinner
  . exact h.holder_mem
  . exact (h.around hnested hbelow (overlaps_of_contains hlt hcontains)).2.2

/-- The nodes still lie in order. -/
theorem isNested (h : Receives comment node holder node') (hnested : All IsNested [node]) :
    All IsNested [node'] := by
  induction h with
  | @among _ span before after hwithin hbefore hafter =>
    obtain ⟨hordered, hordered', hacross⟩ := List.pairwise_append.1 hnested.self.pairwise
    have hleaf : All IsNested [.leaf .comment comment] := .wrap .nil ⟨.nil, by simp⟩
    have hall : All IsNested before ∧ All IsNested after := by
      have hchildren := hnested.children
      simpa only [All, preorderAll_append, List.mem_append, or_imp, forall_and] using hchildren
    refine .wrap (all_append_cons.2 ⟨hall.1, hleaf, hall.2⟩) ⟨?_, ?_⟩
    . refine List.pairwise_append.2 ⟨hordered, List.pairwise_cons.2 ⟨hafter, hordered'⟩, ?_⟩
      intro node hnode later hlater
      obtain rfl | hlater := List.mem_cons.1 hlater
      . exact hbefore node hnode
      . exact hacross node hnode later hlater
    . intro child hchild
      obtain hchild | hchild := List.mem_append.1 hchild
      . exact hnested.self.within child (List.mem_append_left _ hchild)
      . obtain rfl | hchild := List.mem_cons.1 hchild
        . exact hwithin
        . exact hnested.self.within child (List.mem_append_right _ hchild)
  | inside _ hreceives ih =>
    obtain ⟨hbefore, hchild, hafter⟩ := all_append_cons.1 hnested.children
    refine .wrap (all_append_cons.2 ⟨hbefore, ih hchild, hafter⟩) (hnested.self.of_map_span ?_)
    rw [List.map_append, List.map_append, List.map_cons, List.map_cons, hreceives.span_eq]

/-- There is one label more. -/
theorem labels (h : Receives comment node holder node') :
    ∃ xs ys, node.labels = xs ++ ys ∧ node'.labels = xs ++ (.comment, comment) :: ys := by
  simp only [Node.labels, descendants_eq_preorder]
  induction h with
  | @among kind span before after =>
    refine ⟨(kind, span) :: (preorderAll before).map label, (preorderAll after).map label, ?_, ?_⟩
    . simp [preorder, preorderAll_append, label]
    . simp [preorder, preorderAll_append, preorderAll, label, Node.leaf]
  | @inside kind span before after _ _ _ _ _ ih =>
    obtain ⟨xs, ys, heq, heq'⟩ := ih
    refine ⟨(kind, span) :: ((preorderAll before).map label ++ xs),
      ys ++ (preorderAll after).map label, ?_, ?_⟩
    . simp [preorder, preorderAll_append, preorderAll, label, heq]
    . simp [preorder, preorderAll_append, preorderAll, label, heq']

/-- There is one leaf more, below the node. -/
theorem leavesAll (h : Receives comment node holder node') :
    ∃ xs ys, leavesAll node.children = xs ++ ys ∧
      leavesAll node'.children = xs ++ .leaf .comment comment :: ys := by
  induction h with
  | @among _ _ before after =>
    refine ⟨Node.leavesAll before, Node.leavesAll after, leavesAll_append, ?_⟩
    rw [leavesAll_append, leavesAll_cons]
    rfl
  | @inside _ _ before after child _ child' hleaf hreceives ih =>
    obtain ⟨xs, ys, heq, heq'⟩ := ih
    refine ⟨Node.leavesAll before ++ xs, ys ++ Node.leavesAll after, ?_, ?_⟩
    . simp [leavesAll_append, leavesAll_cons, hleaf, heq]
    . simp [leavesAll_append, leavesAll_cons, hreceives.isLeaf_eq, heq']

end Receives

/-! ### One comment -/

/-- Of the leaves only the root of an empty program takes a comment. -/
theorem isLeaf_or_kind_of_isSome (h : (insertComment? comment root).isSome) :
    root.isLeaf = false ∨ root.kind = .program := by
  obtain ⟨kind, span, children⟩ := root
  rw [insertComment?] at h
  split at h
  . next hinner =>
    simp only [Bool.and_eq_true, Bool.or_eq_true, Bool.not_eq_true', beq_iff_eq] at hinner
    exact hinner.2
  . contradiction

theorem admits_iff (h : All IsNested [root]) (hlt : comment.start < comment.stop) :
    root.Admits comment ↔ (insertComment? comment root).isSome := by
  constructor
  . intro hadmits
    have hroot : root ∈ root.descendants := by simp [descendants_eq]
    apply isSome_insertComment? h hadmits.within
    . cases hleaf : root.isLeaf with
      | false => exact .inl rfl
      | true =>
        right
        exact (hadmits.leaf root hroot hleaf (overlaps_of_contains hlt hadmits.within)).2
    . intro inner hinner hoverlaps
      have hmem : inner ∈ root.descendants := by
        rw [descendants_eq]
        exact List.mem_cons_of_mem _ hinner
      cases hleaf : inner.isLeaf with
      | false => exact ⟨rfl, hadmits.inner inner hmem hleaf hoverlaps⟩
      | true =>
        -- a root with something below it is no leaf
        obtain ⟨rfl, -⟩ := hadmits.leaf inner hmem hleaf hoverlaps
        rw [show inner.children = [] by simpa [isLeaf] using hleaf] at hinner
        simp [preorderAll] at hinner
  . intro hsome
    obtain ⟨node', hnode'⟩ := Option.isSome_iff_exists.1 hsome
    obtain ⟨holder, hreceives⟩ := exists_receives h hnode'
    have hwithin := (hreceives.contains h).1
    refine ⟨hwithin, ?_, ?_⟩
    . intro node hnode hleaf hoverlaps
      rw [descendants_eq, List.mem_cons] at hnode
      obtain rfl | hbelow := hnode
      . exact ⟨rfl, (isLeaf_or_kind_of_isSome hsome).resolve_left (by simp [hleaf])⟩
      . have hinner := (hreceives.around h hbelow hoverlaps).1
        rw [hleaf] at hinner
        contradiction
    . intro node hnode hleaf hoverlaps
      rw [descendants_eq, List.mem_cons] at hnode
      obtain rfl | hbelow := hnode
      . exact hwithin
      . exact (hreceives.around h hbelow hoverlaps).2.1

theorem insertComment_of_isSome (hsome : (insertComment? comment root).isSome) :
    insertComment? comment root = some (root.insertComment comment) := by
  obtain ⟨node', hnode'⟩ := Option.isSome_iff_exists.1 hsome
  rw [insertComment, hnode', Option.getD_some]

theorem insertComment_of_not_isSome (hnone : ¬ (insertComment? comment root).isSome) :
    root.insertComment comment = root := by
  rw [insertComment, Option.not_isSome_iff_eq_none.1 hnone, Option.getD_none]

theorem Receives.ne (h : Receives comment node holder node') : node' ≠ node := by
  rintro rfl
  obtain ⟨xs, ys, heq, heq'⟩ := h.labels
  have hlength := congrArg List.length (heq.symm.trans heq')
  simp at hlength

/-! ### All comments -/

/-- What comes of the comments that were attached one after the other. -/
structure Attaches (root : Node) (comments : List Span) (root' : Node) (added : List Span) :
    Prop where
  sublist : added.Sublist comments
  free : ∀ c ∈ added, ∀ leaf ∈ leavesAll root.children, ¬ leaf.span.overlaps c
  pairwise : added.Pairwise fun c d => ¬ c.overlaps d
  labels : root.labels.Sublist root'.labels
  perm : root'.labels.Perm (root.labels ++ added.map fun c => (.comment, c))
  isNested : All IsNested [root']

namespace Attaches

variable {root' : Node} {added : List Span}

theorem refl (h : All IsNested [root]) : Attaches root [] root [] where
  sublist := .slnil
  free := by simp
  pairwise := .nil
  labels := List.Sublist.refl _
  perm := by simp
  isNested := h

theorem skip (h : Attaches root comments root' added) :
    Attaches root (comment :: comments) root' added :=
  { h with sublist := h.sublist.cons comment }

/-- The comment that is attached first is a leaf that the others do not overlap. -/
theorem attach (h : Attaches node' comments root' added) (hnested : All IsNested [root])
    (hreceives : Receives comment root holder node') :
    Attaches root (comment :: comments) root' (comment :: added) := by
  obtain ⟨xs, ys, heq, heq'⟩ := hreceives.leavesAll
  obtain ⟨us, vs, hlabels, hlabels'⟩ := hreceives.labels
  refine ⟨h.sublist.cons_cons comment, ?_, ?_, ?_, ?_, h.isNested⟩
  . intro c hc leaf hleaf
    obtain rfl | hc := List.mem_cons.1 hc
    . intro hoverlaps
      obtain ⟨hmem, hleaf⟩ := List.mem_filter.1 hleaf
      have hinner := (hreceives.around hnested hmem hoverlaps).1
      rw [hleaf] at hinner
      contradiction
    . apply h.free c hc leaf
      rw [heq] at hleaf
      rw [heq']
      simp only [List.mem_append, List.mem_cons] at hleaf ⊢
      exact hleaf.imp_right .inr
  . refine List.pairwise_cons.2 ⟨?_, h.pairwise⟩
    intro c hc
    exact h.free c hc (.leaf .comment comment) (by simp [heq'])
  . refine List.Sublist.trans ?_ h.labels
    rw [hlabels, hlabels']
    exact (List.Sublist.refl us).append (List.sublist_cons_self _ vs)
  . refine h.perm.trans ?_
    rw [hlabels, hlabels', List.append_assoc, List.append_assoc]
    refine List.Perm.append_left us ?_
    exact List.perm_middle.symm

end Attaches

theorem exists_attaches (h : All IsNested [root]) (comments : List Span) :
    ∃ added, Attaches root comments (root.attachComments comments) added := by
  induction comments generalizing root with
  | nil => exact ⟨[], .refl h⟩
  | cons comment comments ih =>
    have hcons : root.attachComments (comment :: comments) =
      (root.insertComment comment).attachComments comments := rfl
    rw [hcons]
    by_cases hsome : (insertComment? comment root).isSome
    . obtain ⟨holder, hreceives⟩ := exists_receives h (insertComment_of_isSome hsome)
      obtain ⟨added, hadded⟩ := ih (hreceives.isNested h)
      exact ⟨comment :: added, hadded.attach h hreceives⟩
    . rw [insertComment_of_not_isSome hsome]
      obtain ⟨added, hadded⟩ := ih h
      exact ⟨added, hadded.skip⟩

/-- A comment changes the tree exactly if nothing hinders it, and then it becomes one leaf, a child
of the innermost node around it. However many comments there are, those that became leaves do not
overlap, and all other nodes are left. -/
theorem attachComments_exact (root : Node) (h : ∀ node ∈ root.descendants, node.IsNested) :
    (∀ comment : Span, comment.start < comment.stop →
      (root.insertComment comment ≠ root ↔ root.Admits comment) ∧
      (root.Admits comment → ∃ holder ∈ root.descendants,
        Receives comment root holder (root.insertComment comment) ∧
        (holder.isLeaf = false ∨ holder = root) ∧ holder.span.contains comment ∧
        (∀ node ∈ root.descendants, node.span.contains comment → holder ∈ node.descendants) ∧
        (∃ before after, root.labels = before ++ after ∧
          (root.insertComment comment).labels = before ++ (.comment, comment) :: after) ∧
        ∀ node ∈ (root.insertComment comment).descendants, node.IsNested)) ∧
    ∀ comments, ∃ added : List Span, added.Sublist comments ∧
      (added.Pairwise fun comment other => ¬ comment.overlaps other) ∧
      root.labels.Sublist (root.attachComments comments).labels ∧
      (root.attachComments comments).labels.Perm
        (root.labels ++ added.map fun comment => (.comment, comment)) ∧
      ∀ node ∈ (root.attachComments comments).descendants, node.IsNested := by
  have hnested := all_singleton_iff.2 h
  refine ⟨?_, ?_⟩
  . intro comment hlt
    have hreceives : root.Admits comment →
        ∃ holder, Receives comment root holder (root.insertComment comment) := fun hadmits =>
      exists_receives hnested (insertComment_of_isSome ((admits_iff hnested hlt).1 hadmits))
    refine ⟨⟨?_, ?_⟩, ?_⟩
    . intro hne
      rw [admits_iff hnested hlt]
      by_cases hsome : (insertComment? comment root).isSome
      . exact hsome
      . exact absurd (insertComment_of_not_isSome hsome) hne
    . intro hadmits
      obtain ⟨holder, hholder⟩ := hreceives hadmits
      exact hholder.ne
    . intro hadmits
      obtain ⟨holder, hholder⟩ := hreceives hadmits
      simp only [descendants_eq_preorder]
      refine ⟨holder, hholder.holder_mem, hholder, hholder.isLeaf_or_eq,
        (hholder.contains hnested).2, ?_, hholder.labels, ?_⟩
      . intro node hnode hcontains
        exact hholder.innermost hnested hlt hnode hcontains
      . rw [← descendants_eq_preorder]
        exact all_singleton_iff.1 (hholder.isNested hnested)
  . intro comments
    obtain ⟨added, hadded⟩ := exists_attaches hnested comments
    exact ⟨added, hadded.sublist, hadded.pairwise, hadded.labels, hadded.perm,
      all_singleton_iff.1 hadded.isNested⟩

/-- The first comment goes into the group, the second behind it, and the third, which overlaps a
word, nowhere. -/
theorem attachComments_group :
    let group : Node := ⟨.compoundStatement, ⟨0, 14, by decide⟩,
      [.leaf (.token "\x7b") ⟨0, 1, by decide⟩, .leaf .word ⟨2, 3, by decide⟩,
        .leaf (.token "\x7d") ⟨13, 14, by decide⟩]⟩
    let root : Node := ⟨.program, ⟨0, 20, by decide⟩, [group]⟩
    let first : Span := ⟨4, 9, by decide⟩
    let comments : List Span := [first, ⟨15, 20, by decide⟩, ⟨1, 3, by decide⟩]
    (∀ node ∈ root.descendants, node.IsNested) ∧ first.start < first.stop ∧ root.Admits first ∧
      (∃ holder ∈ group.descendants, Receives first root holder (root.insertComment first)) ∧
      ∃ added : List Span, added.Sublist comments ∧
        (added.Pairwise fun comment other => ¬ comment.overlaps other) ∧
        root.labels.Sublist (root.attachComments comments).labels ∧
        (root.attachComments comments).labels.Perm
          (root.labels ++ added.map fun comment => (.comment, comment)) ∧
        ∀ node ∈ (root.attachComments comments).descendants, node.IsNested := by
  intro group root first comments
  have hnested : ∀ node ∈ root.descendants, node.IsNested := by
    rw [descendants_eq]
    decide
  have hlt : first.start < first.stop := by decide
  have hgroup : group ∈ root.descendants := by
    rw [descendants_eq]
    exact List.mem_cons_of_mem _ (mem_preorderAll_of_mem List.mem_cons_self)
  obtain ⟨hone, hall⟩ := attachComments_exact root hnested
  have hadmits : root.Admits first := (hone first hlt).1.1 (by decide)
  obtain ⟨holder, -, hreceives, -, -, hinnermost, -⟩ := (hone first hlt).2 hadmits
  exact ⟨hnested, hlt, hadmits, ⟨holder, hinnermost group hgroup rfl, hreceives⟩, hall comments⟩

end Node
end ShellTree
