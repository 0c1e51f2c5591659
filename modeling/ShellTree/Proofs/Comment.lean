import ShellTree.Proofs.Traversal

/-!
This module contains the correctness of the attachment of comments. The comments are attached in
order, and each that is done with is found between nodes no more: it has become a leaf, or a leaf
overlaps it.
-/

namespace ShellTree

variable {src : Source} {comment : Span} {comments more : List Span} {start stop : Nat}
variable {node : Node} {nodes : List Node}

theorem Trivia.not_mem_of_isTrivia {cs : List Char} (h : isTrivia cs) : '#' ∉ cs := by
  fun_induction isTrivia cs with
  | case1 => simp
  | case2 cs ih => simpa using ih h
  | case3 cs ih => simpa using ih h
  | case4 c cs _ _ ih =>
    simp only [Bool.and_eq_true] at h
    simp only [List.mem_cons, not_or]
    refine ⟨?_, ih h.2⟩
    rintro rfl
    simp [isSpace, isBlank] at h

theorem Source.IsComment.stop_le {cs : List Char} (hcomment : src.IsComment comment)
    (h : src.Spells start stop cs) (htrivia : Trivia.isTrivia cs) (hstart : start ≤ comment.start) :
    stop ≤ comment.start := by
  obtain ⟨body, hspells, _⟩ := hcomment.spells
  by_cases hle : stop ≤ comment.start
  . exact hle
  . obtain ⟨before, hbefore⟩ := h.left.exists_spells hspells.left hstart
    obtain ⟨after, hafter⟩ := hspells.left.exists_spells h.right (by omega)
    have hcs := h.unique (hbefore.append hafter)
    cases after with
    | nil =>
      have := hafter.stop_eq
      simp only [byteLength_nil] at this
      omega
    | cons c after =>
      have hmem : c ∈ cs := by simp [hcs]
      rw [← hspells.head_eq hafter] at hmem
      exact absurd hmem (Trivia.not_mem_of_isTrivia htrivia)

theorem mem_of_within {c : Span} (hout : start ≤ comment.start → comment.stop ≤ stop → False)
    (hc : c ∈ comment :: more) (hstart : start ≤ c.start) (hstop : c.stop ≤ stop) : c ∈ more := by
  rw [List.mem_cons] at hc
  obtain rfl | hc := hc
  . exact (hout hstart hstop).elim
  . exact hc

theorem Skips.around (h : Skips src (comment :: more) start stop) (hcomment : src.IsComment comment)
    (hstart : start ≤ comment.start) (hstop : comment.stop ≤ stop)
    (hmore : ∀ c ∈ more, comment.start < c.start) :
    Skips src more start comment.start ∧ Skips src more comment.stop stop := by
  have hlt := hcomment.start_lt_stop
  induction h with
  | done _ => omega
  | trivia hspells htrivia _ ih =>
    have hle := hcomment.stop_le hspells htrivia hstart
    obtain ⟨hbefore, hafter⟩ := ih hle hstop
    exact ⟨.trivia hspells htrivia hbefore, hafter⟩
  | comment hmem _ hrest _ =>
    rw [List.mem_cons] at hmem
    obtain rfl | hmem := hmem
    . obtain ⟨_, hspells, _⟩ := hcomment.spells
      refine ⟨.done hspells.left, hrest.mono_within fun c => mem_of_within ?_⟩
      intro _ _
      omega
    . have := hmore _ hmem
      omega

/-! ### Where a comment goes -/

namespace Node

/-- The siblings with the comment among them, unchanged when there is no place for it. -/
def insertAmong (comment : Span) (nodes : List Node) : List Node :=
  (insertAmong? comment nodes).getD nodes

theorem insertAmong_nil : insertAmong comment [] = [.leaf .comment comment] := by
  rw [insertAmong, insertAmong?]
  rfl

theorem insertAmong_cons :
    insertAmong comment (node :: nodes) =
      if node.meets comment then
        if node.isLeaf then node :: nodes else node.insertComment comment :: nodes
      else if comment.stop ≤ node.span.start then
        .leaf .comment comment :: node :: nodes
      else
        node :: insertAmong comment nodes := by
  unfold insertAmong insertComment
  rw [insertAmong?]
  split
  . split
    . rfl
    . cases insertComment? comment node <;> rfl
  . split
    . rfl
    . cases insertAmong? comment nodes <;> rfl

theorem insertAmong_ne_nil (comment : Span) (h : nodes ≠ []) : insertAmong comment nodes ≠ [] := by
  cases nodes with
  | nil => contradiction
  | cons node nodes =>
    rw [insertAmong_cons]
    split
    . split <;> simp
    . split <;> simp

theorem insertComment_eq (hinner : node.isLeaf = false ∨ node.kind = .program) :
    node.insertComment comment =
      if node.span.contains comment then ⟨node.kind, node.span, insertAmong comment node.children⟩
      else node := by
  obtain ⟨kind, span, children⟩ := node
  have hchildren : (!children.isEmpty || kind == .program) = true := by
    simpa [isLeaf] using hinner
  unfold insertComment insertAmong
  rw [insertComment?]
  simp only [hchildren, Bool.and_true]
  split
  . cases insertAmong? comment children <;> rfl
  . rfl

theorem insertComment_span (hleaf : node.isLeaf = false) :
    (node.insertComment comment).span = node.span := by
  rw [insertComment_eq (.inl hleaf)]
  split <;> rfl

theorem meets_iff :
    node.meets comment ↔ node.span.start < comment.stop ∧ comment.start < node.span.stop ∨
      node.span.contains comment ∧ node.isLeaf = false := by
  simp [meets, Span.overlaps]

theorem contains_iff {span : Span} :
    span.contains comment ↔ span.start ≤ comment.start ∧ comment.stop ≤ span.stop := by
  simp [Span.contains]

theorem head?_insertAmong {first : Node} (h : first ∈ nodes.head?)
    (hstop : first.span.start < comment.stop) :
    ∃ first' ∈ (insertAmong comment nodes).head?, first'.span = first.span := by
  cases nodes with
  | nil => simp at h
  | cons node nodes =>
    simp only [List.head?_cons, Option.mem_def, Option.some.injEq] at h
    subst h
    rw [insertAmong_cons]
    split
    . split
      . exact ⟨node, rfl, rfl⟩
      . next hleaf => exact ⟨_, rfl, insertComment_span (by simpa using hleaf)⟩
    . rw [if_neg (by omega)]
      exact ⟨node, rfl, rfl⟩

theorem getLast?_insertAmong {last : Node} (h : last ∈ nodes.getLast?)
    (hstart : comment.start < last.span.stop) :
    ∃ last' ∈ (insertAmong comment nodes).getLast?, last'.span = last.span := by
  induction nodes with
  | nil => simp at h
  | cons node nodes ih =>
    rw [insertAmong_cons]
    cases nodes with
    | nil =>
      simp only [List.getLast?_singleton, Option.mem_def, Option.some.injEq] at h
      subst h
      split
      . split
        . exact ⟨node, rfl, rfl⟩
        . next hleaf => exact ⟨_, rfl, insertComment_span (by simpa using hleaf)⟩
      . next hmeets =>
        split
        . exact ⟨node, rfl, rfl⟩
        . next hbefore =>
          rw [meets_iff] at hmeets
          exact absurd (.inl ⟨by omega, hstart⟩) hmeets
    | cons child nodes =>
      rw [List.getLast?_cons_cons] at h
      split
      . split
        . exact ⟨last, by rwa [List.getLast?_cons_cons], rfl⟩
        . exact ⟨last, by rwa [List.getLast?_cons_cons], rfl⟩
      . split
        . exact ⟨last, by rwa [List.getLast?_cons_cons, List.getLast?_cons_cons], rfl⟩
        . obtain ⟨last', hlast, hspan⟩ := ih h
          refine ⟨last', ?_, hspan⟩
          rw [List.getLast?_cons, hlast]
          rfl

theorem IsTight.insertAmong {kind : NodeKind} {span : Span} {children : List Node}
    (h : IsTight ⟨kind, span, children⟩) (hne : children ≠ []) (hcontains : span.contains comment)
    (hlt : comment.start < comment.stop) :
    IsTight ⟨kind, span, Node.insertAmong comment children⟩ := by
  rw [contains_iff] at hcontains
  obtain ⟨first, hfirst⟩ := Option.ne_none_iff_exists'.1 (mt List.head?_eq_none_iff.1 hne)
  obtain ⟨last, hlast⟩ := Option.ne_none_iff_exists'.1 (mt List.getLast?_eq_none_iff.1 hne)
  have hstart : span.start = first.span.start := h.1 first hfirst
  have hstop : span.stop = last.span.stop := h.2 last hlast
  -- a comment inside the node lies neither before its first child nor behind its last
  have hbefore : first.span.start < comment.stop := by omega
  have hafter : comment.start < last.span.stop := by omega
  obtain ⟨first', hfirst', hspan⟩ := head?_insertAmong hfirst hbefore
  obtain ⟨last', hlast', hspan'⟩ := getLast?_insertAmong hlast hafter
  constructor
  . intro node hnode
    rw [Option.mem_unique hnode hfirst', hspan]
    exact hstart
  . intro node hnode
    rw [Option.mem_unique hnode hlast', hspan']
    exact hstop

end Node

/-! ### What becomes of the gaps -/

mutual

/-- In the tree with the comment attached the comment is in no gap. -/
theorem Node.Fits.insertComment (hcomment : src.IsComment comment)
    (hmore : ∀ c ∈ more, comment.start < c.start) : {node : Node} →
      node.Fits src (comment :: more) → node.isLeaf = false →
        (node.insertComment comment).Fits src more
  | ⟨_, _, []⟩, _, hleaf => by simp [Node.isLeaf] at hleaf
  | ⟨kind, span, child :: children⟩, h, hleaf => by
    rw [Node.insertComment_eq (.inl hleaf)]
    split
    . next hcontains =>
      have hspan := Node.contains_iff.1 hcontains
      rw [Node.Fits] at h
      have htiles := h.1.insertAmong hcomment hmore hspan.1 hspan.2
      rw [Node.fits_of_ne_nil]
      . refine ⟨htiles, h.2.imp_right fun htight => ?_⟩
        exact htight.insertAmong (by simp) hcontains hcomment.start_lt_stop
      . exact Node.insertAmong_ne_nil _ (by simp)
    . next hcontains =>
      rw [Node.contains_iff] at hcontains
      exact h.mono_within fun c => mem_of_within fun hstart hstop => hcontains ⟨hstart, hstop⟩

theorem Tiles.insertAmong (hcomment : src.IsComment comment)
    (hmore : ∀ c ∈ more, comment.start < c.start) : {nodes : List Node} → {start stop : Nat} →
      Tiles src (comment :: more) nodes start stop → start ≤ comment.start →
        comment.stop ≤ stop → Tiles src more (Node.insertAmong comment nodes) start stop
  | [], _, _, h, hstart, hstop => by
    obtain ⟨hbefore, hafter⟩ := (tiles_nil.1 h).around hcomment hstart hstop hmore
    obtain ⟨_, hspells, _⟩ := hcomment.spells
    rw [Node.insertAmong_nil, tiles_cons]
    exact ⟨hbefore, Node.fits_leaf.2 ⟨_, hspells⟩, tiles_nil.2 hafter⟩
  | node :: nodes, start, stop, h, hstart, hstop => by
    obtain ⟨hgap, hfits, hrest⟩ := tiles_cons.1 h
    have hlt := hcomment.start_lt_stop
    have hle := node.span.start_le_stop
    -- the parts that do not surround the comment do without it
    have hgap' : node.span.start < comment.stop → Skips src more start node.span.start :=
      fun hout => hgap.mono_within fun c => mem_of_within fun _ _ => by omega
    have hfits' : node.span.stop < comment.stop ∨ comment.start < node.span.start →
        node.Fits src more :=
      fun hout => hfits.mono_within fun c => mem_of_within fun _ _ => by omega
    have hrest' : comment.start < node.span.stop → Tiles src more nodes node.span.stop stop :=
      fun hout => hrest.mono_within fun c => mem_of_within fun _ _ => by omega
    rw [Node.insertAmong_cons]
    split
    . next hmeets =>
      rw [Node.meets_iff] at hmeets
      split
      . next hleaf =>
        have hover : node.span.start < comment.stop ∧ comment.start < node.span.stop := by
          simpa [hleaf] using hmeets
        rw [Node.fits_of_isLeaf hleaf] at hfits
        exact tiles_cons.2 ⟨hgap' hover.1, (Node.fits_of_isLeaf hleaf).2 hfits, hrest' hover.2⟩
      . next hleaf =>
        have hleaf : node.isLeaf = false := by simpa using hleaf
        have hover : node.span.start < comment.stop ∧ comment.start < node.span.stop := by
          rw [Node.contains_iff] at hmeets
          omega
        rw [tiles_cons, Node.insertComment_span hleaf]
        exact ⟨hgap' hover.1, hfits.insertComment hcomment hmore hleaf, hrest' hover.2⟩
    . next hmeets =>
      rw [Node.meets_iff, not_or] at hmeets
      split
      . next hbefore =>
        obtain ⟨hskips, hskips'⟩ := hgap.around hcomment hstart hbefore hmore
        obtain ⟨_, hspells, _⟩ := hcomment.spells
        rw [tiles_cons, tiles_cons]
        exact ⟨hskips, Node.fits_leaf.2 ⟨_, hspells⟩, hskips', hfits' (by omega),
          hrest' (by omega)⟩
      . next hbefore =>
        have hafter : node.span.stop ≤ comment.start := by omega
        rw [tiles_cons]
        exact ⟨hgap' (by omega), hfits' (by omega), hrest.insertAmong hcomment hmore hafter hstop⟩

end

/-! ### What becomes of the nodes -/

/-- The one trees are the others with leaves for comments of the list added. Leaves stay leaves. -/
inductive Node.AddsComments (comments : List Span) : List Node → List Node → Prop where
  | nil : AddsComments comments [] []
  | comment {comment : Span} {nodes nodes' : List Node} :
    comment ∈ comments → AddsComments comments nodes nodes' →
      AddsComments comments nodes (.leaf .comment comment :: nodes')
  | leaf {kind : NodeKind} {span : Span} {nodes nodes' : List Node} :
    AddsComments comments nodes nodes' →
      AddsComments comments (.leaf kind span :: nodes) (.leaf kind span :: nodes')
  | inner {kind : NodeKind} {span : Span} {children children' nodes nodes' : List Node} :
    children ≠ [] → AddsComments comments children children' →
      AddsComments comments nodes nodes' →
        AddsComments comments (⟨kind, span, children⟩ :: nodes) (⟨kind, span, children'⟩ :: nodes')

namespace Node.AddsComments

theorem refl (comments : List Span) : (nodes : List Node) → AddsComments comments nodes nodes
  | [] => .nil
  | ⟨_, _, []⟩ :: nodes => .leaf (refl comments nodes)
  | ⟨_, _, child :: children⟩ :: nodes =>
    .inner (by simp) (refl comments (child :: children)) (refl comments nodes)

theorem cons {nodes' : List Node} (node : Node) (h : AddsComments comments nodes nodes') :
    AddsComments comments (node :: nodes) (node :: nodes') := by
  obtain ⟨kind, span, children⟩ := node
  cases children with
  | nil => exact .leaf h
  | cons child children => exact .inner (by simp) (refl comments _) h

theorem ne_nil {nodes' : List Node} (h : AddsComments comments nodes nodes') (hne : nodes ≠ []) :
    nodes' ≠ [] := by
  rintro rfl
  cases h
  contradiction

theorem trans {nodes₁ nodes₂ nodes₃ : List Node} (h : AddsComments comments nodes₁ nodes₂)
    (h' : AddsComments comments nodes₂ nodes₃) : AddsComments comments nodes₁ nodes₃ := by
  induction h' generalizing nodes₁ with
  | nil => exact h
  | comment hmem _ ih => exact .comment hmem (ih h)
  | leaf _ ih =>
    cases h with
    | comment hmem h => exact .comment hmem (ih h)
    | leaf h => exact .leaf (ih h)
    | inner hne hchildren h =>
      cases hchildren
      contradiction
  | inner hne _ _ ihchildren ih =>
    cases h with
    | comment hmem h => contradiction
    | leaf h => contradiction
    | inner hne' hchildren h => exact .inner hne' (ihchildren hchildren) (ih h)

end Node.AddsComments

mutual

theorem Node.addsComments_insertComment (hmem : comment ∈ comments) : (node : Node) →
    (nodes : List Node) → node.isLeaf = false →
      AddsComments comments (node :: nodes) (node.insertComment comment :: nodes)
  | ⟨_, _, []⟩, _, hleaf => by simp [Node.isLeaf] at hleaf
  | ⟨kind, span, child :: children⟩, nodes, hleaf => by
    rw [insertComment_eq (.inl hleaf)]
    split
    . exact .inner (by simp) (addsComments_insertAmong hmem (child :: children)) (.refl _ nodes)
    . exact .refl _ _

theorem Node.addsComments_insertAmong (hmem : comment ∈ comments) : (nodes : List Node) →
    AddsComments comments nodes (insertAmong comment nodes)
  | [] => by
    rw [insertAmong_nil]
    exact .comment hmem .nil
  | node :: nodes => by
    rw [insertAmong_cons]
    split
    . split
      . exact .refl _ _
      . next hleaf => exact addsComments_insertComment hmem node nodes (by simpa using hleaf)
    . split
      . exact .comment hmem (.refl _ _)
      . exact .cons node (addsComments_insertAmong hmem nodes)

end

/-- What is read between leaves and comments is read between the leaves without them. -/
theorem Node.AddsComments.tiles {nodes' : List Node} (h : AddsComments comments nodes nodes')
    (hcomments : ∀ c ∈ comments, src.IsComment c) (hfits : ∀ node ∈ nodes, node.Fits src comments)
    (htiles : Tiles src [] nodes' start stop)
    (hfound : ∀ c, .leaf .comment c ∈ preorderAll nodes' → c ∈ more) :
    Tiles src more nodes start stop := by
  induction h generalizing start stop with
  | nil => exact htiles.mono (by simp)
  | comment hmem _ ih =>
    rw [tiles_cons] at htiles
    simp only [preorderAll, List.mem_append] at hfound
    have hrest := ih hfits htiles.2.2 fun c hc => hfound c (.inr hc)
    have hskips : Skips src more _ _ :=
      .comment (hfound _ (.inl (mem_preorder_self _))) (hcomments _ hmem) (.done hrest.left)
    exact (hrest.skip_left hskips).skip_left (htiles.1.mono (by simp))
  | leaf _ ih =>
    rw [tiles_cons] at htiles ⊢
    simp only [preorderAll, List.mem_append] at hfound
    simp only [List.mem_cons, forall_eq_or_imp] at hfits
    exact ⟨htiles.1.mono (by simp), htiles.2.1.mono (by simp),
      ih hfits.2 htiles.2.2 fun c hc => hfound c (.inr hc)⟩
  | inner hne hchildren _ ihchildren ih =>
    rw [tiles_cons] at htiles ⊢
    obtain ⟨hgap, hnode, hrest⟩ := htiles
    simp only [preorderAll, List.mem_append] at hfound
    simp only [List.mem_cons, forall_eq_or_imp] at hfits
    have hne' := hchildren.ne_nil hne
    have htiles' := ((Node.fits_of_ne_nil hne').1 hnode).1
    obtain ⟨htiles, htight⟩ := (Node.fits_of_ne_nil hne).1 hfits.1
    refine ⟨hgap.mono (by simp), (Node.fits_of_ne_nil hne).2 ⟨?_, htight⟩, ?_⟩
    . apply ihchildren htiles.fits htiles'
      intro c hc
      apply hfound c (.inl _)
      rw [preorder_eq]
      exact List.mem_cons_of_mem _ hc
    . exact ih hfits.2 hrest fun c hc => hfound c (.inr hc)

/-! ### All comments -/

namespace Node

def insertAllAmong (comments : List Span) (nodes : List Node) : List Node :=
  comments.foldl (fun nodes comment => insertAmong comment nodes) nodes

theorem attachComments_eq (hkind : node.kind = .program)
    (hwithin : ∀ c ∈ comments, node.span.contains c) :
    node.attachComments comments =
      ⟨node.kind, node.span, insertAllAmong comments node.children⟩ := by
  induction comments generalizing node with
  | nil =>
    obtain ⟨kind, span, children⟩ := node
    rfl
  | cons comment comments ih =>
    simp only [List.mem_cons, forall_eq_or_imp] at hwithin
    have hcons : node.attachComments (comment :: comments) =
      (node.insertComment comment).attachComments comments := rfl
    rw [hcons, insertComment_eq (.inr hkind), if_pos hwithin.1]
    exact ih hkind hwithin.2

theorem addsComments_insertAllAmong (hmore : ∀ c ∈ more, c ∈ comments) (nodes : List Node) :
    AddsComments comments nodes (insertAllAmong more nodes) := by
  induction more generalizing nodes with
  | nil => exact .refl _ _
  | cons comment more ih =>
    simp only [List.mem_cons, forall_eq_or_imp] at hmore
    exact (addsComments_insertAmong hmore.1 nodes).trans (ih hmore.2 _)

end Node

/-- After all comments are attached there is nothing but trivia between the nodes. -/
theorem Tiles.insertAllAmong (h : Tiles src comments nodes start stop)
    (hcomments : ∀ c ∈ comments, src.IsComment c)
    (hordered : comments.Pairwise (·.start < ·.start))
    (hwithin : ∀ c ∈ comments, start ≤ c.start ∧ c.stop ≤ stop) :
    Tiles src [] (Node.insertAllAmong comments nodes) start stop := by
  induction comments generalizing nodes with
  | nil => exact h
  | cons comment comments ih =>
    simp only [List.mem_cons, forall_eq_or_imp] at hcomments hwithin
    rw [List.pairwise_cons] at hordered
    have hnext := h.insertAmong hcomments.1 hordered.1 hwithin.1.1 hwithin.1.2
    exact ih hnext hcomments.2 hordered.2 hwithin.2

end ShellTree
