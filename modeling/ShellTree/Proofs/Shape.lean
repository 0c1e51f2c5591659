import ShellTree.Proofs.Outcome

/-!
This module contains what holds of the single nodes of a tree by their kind: a leaf stands for the
text that its kind says, a concatenation joins fragments that touch, except behind a substitution
that is not closed, strings and the bodies of here-documents leave out nothing of their text, between
backticks no backtick opens, except below arithmetic, and an assignment has its operator, except
behind a subscript that ends too early.
-/

namespace ShellTree

open Parse

namespace Node

variable {src : Source} {comments more more' : List Span} {nodes nodes' : List Node}
variable {node node' next next' : Node} {start stop : Nat}

theorem Abuts.isChain (h : Abuts start nodes stop) :
    nodes.IsChain fun node next => node.span.stop = next.span.start := by
  induction nodes generalizing start with
  | nil => exact .nil
  | cons node nodes ih =>
    refine List.isChain_cons.2 ⟨fun next hnext => ?_, ih h.2⟩
    obtain ⟨rest, rfl⟩ := List.head?_eq_some_iff.1 hnext
    exact h.2.1.symm

theorem abuts_of_isChain (h : nodes.IsChain fun node next => node.span.stop = next.span.start)
    (hne : nodes ≠ []) (hstart : ∀ first ∈ nodes.head?, start = first.span.start)
    (hstop : ∀ last ∈ nodes.getLast?, stop = last.span.stop) : Abuts start nodes stop := by
  induction nodes generalizing start with
  | nil => contradiction
  | cons node nodes ih =>
    refine ⟨(hstart node rfl).symm, ?_⟩
    cases nodes with
    | nil => exact (hstop node rfl).symm
    | cons next nodes =>
      obtain ⟨hnext, hrest⟩ := List.isChain_cons_cons.1 h
      apply ih hrest (by simp)
      . intro first hfirst
        obtain rfl : next = first := by simpa using hfirst
        exact hnext
      . intro last hlast
        exact hstop last (by rwa [List.getLast?_cons_cons])

theorem Attached.touches (h : Attached src comments more more' node node')
    (hnext : Commented comments next next') (htouches : node.Touches src next) :
    node'.Touches src next' := by
  unfold Touches IsOpenSubstitution at *
  rwa [h.span_eq, hnext.span_eq, h.kind_eq, h.isClosed_iff]

theorem Glued.attached (h : Glued src nodes)
    (hattached : List.Forall₂ (Attached src comments more more') nodes nodes') :
    Glued src nodes' := by
  induction hattached with
  | nil => exact .nil
  | cons hnode hrest ih =>
    cases hrest with
    | nil => exact .singleton _
    | cons hnext hrest =>
      obtain ⟨htouches, h⟩ := List.isChain_cons_cons.1 h
      exact .cons_cons (hnode.touches hnext.toCommented htouches) (ih h)

theorem Glued.isChain (h : Glued src nodes) (hclosed : ∀ node ∈ nodes, node.IsClosed src) :
    nodes.IsChain fun node next => node.span.stop = next.span.start :=
  h.imp_of_mem_imp fun node _ hnode _ htouches =>
    htouches.resolve_right fun hopen => hopen.2 (hclosed node hnode)

theorem kinds_eq (h : List.Forall₂ (Attached src comments more more') nodes nodes') :
    nodes'.map Node.kind = nodes.map Node.kind := by
  induction h with
  | nil => rfl
  | cons hnode _ ih => rw [List.map_cons, List.map_cons, hnode.kind_eq, ih]

namespace Attached

theorem opensBacktick_iff (h : Attached src comments more more' node node') :
    node'.OpensBacktick ↔ node.OpensBacktick := by
  unfold OpensBacktick
  rw [h.kind_eq]
  exact and_congr_right fun hkind => h.startsWith_iff (by rw [hkind]; rfl)

theorem holdsArithmetic_iff (h : Attached src comments more more' node node') :
    node'.HoldsArithmetic ↔ node.HoldsArithmetic := by
  unfold HoldsArithmetic
  rw [h.kind_eq]
  exact or_congr_right (or_congr_right (and_congr_right fun hkind =>
    h.startsWith_iff (by rw [hkind]; rfl)))

end Attached

theorem AddsComments.allFlat {start' stop' : Nat} (h : AddsComments comments nodes nodes')
    (hcomments : ∀ c ∈ comments, c.start < c.stop) (htiles : Tiles src more nodes start stop)
    (htiles' : Tiles src more' nodes' start' stop') (hflat : AllFlat nodes) : AllFlat nodes' := by
  induction h generalizing start stop start' stop' with
  | nil => trivial
  | comment _ _ ih => exact ⟨flat_of_nil rfl, ih htiles (tiles_cons.1 htiles').2.2 hflat⟩
  | leaf _ ih =>
    exact ⟨flat_of_nil rfl, ih (tiles_cons.1 htiles).2.2 (tiles_cons.1 htiles').2.2 hflat.2⟩
  | @inner kind span _ _ _ _ hne hchildren _ ihchildren ih =>
    obtain ⟨_, hfits, hrest⟩ := tiles_cons.1 htiles
    obtain ⟨_, hfits', hrest'⟩ := tiles_cons.1 htiles'
    have hattached : Attached src comments more more' ⟨kind, span, _⟩ ⟨kind, span, _⟩ :=
      ⟨commented_inner hne hchildren, hcomments, hfits, hfits'⟩
    have hbelow := ihchildren ((fits_of_ne_nil hne).1 hfits).1
      ((fits_of_ne_nil (hchildren.ne_nil hne)).1 hfits').1
    obtain ⟨hopens, hheld⟩ := flat_iff.1 hflat.1
    refine ⟨flat_iff.2 ⟨?_, hheld.imp ?_ hbelow⟩, ih hrest hrest' hflat.2⟩
    . rwa [hattached.opensBacktick_iff]
    . exact hattached.holdsArithmetic_iff.2

theorem Delimited.attached (h : Delimited node.children)
    (hattached : Attached src comments more more' node node') (hne : node.children ≠ [])
    (hpairs : List.Forall₂ (Attached src comments more more') node.children node'.readChildren) :
    AllFlat node'.children ∧
      ∀ child' ∈ node'.readChildren.tail.dropLast, child'.kind ≠ .token "`" := by
  have htiles := ((fits_of_ne_nil hne).1 hattached.before).1
  have htiles' := ((fits_of_ne_nil (hattached.adds.ne_nil hne)).1 hattached.after).1
  refine ⟨hattached.adds.allFlat hattached.lt htiles htiles' h.flat, ?_⟩
  intro child' hchild'
  have hmem := List.mem_map_of_mem (f := Node.kind) hchild'
  rw [List.map_dropLast, List.map_tail, kinds_eq hpairs, ← List.map_tail, ← List.map_dropLast,
    List.mem_map] at hmem
  obtain ⟨child, hchild, hkind⟩ := hmem
  exact hkind ▸ h.inside child hchild

theorem Attached.isChain (h : Attached src comments more more' node node')
    (hchain : node.children.IsChain fun child next => child.span.stop = next.span.start)
    (hne : node.children ≠ []) (hmargins : node.kind.hasMargins = false) :
    node'.children.IsChain fun child next => child.span.stop = next.span.start := by
  obtain ⟨⟨hstart, hstop⟩, _⟩ := h.isTight hmargins hne
  rw [← h.span_eq] at hstart hstop
  have htiles := ((fits_of_ne_nil (h.adds.ne_nil hne)).1 h.after).1
  have habuts := abuts_of_isChain hchain hne hstart hstop
  exact (habuts.commented (h.adds.pairs_of_abuts h.lt htiles habuts)).isChain

/-- What a node of the tree shows by its kind, after the comments are attached. -/
structure IsShaped (src : Source) (node : Node) : Prop where
  isLeaf : node.kind.isText → node.children = []
  spelled : ∀ text, node.kind = .token text → node.text? src = some text
  comment : node.kind = .comment → src.IsComment node.span
  descriptor : node.kind = .fileDescriptor → src.IsDescriptor node.span
  covers : node.children = [] → node.span.start = node.span.stop → node.kind.canBeEmpty
  joins : node.kind = .concatenation → 2 ≤ node.readChildren.length ∧ Glued src node.readChildren
  delimited : node.OpensBacktick → AllFlat node.children ∧
    ∀ child ∈ node.readChildren.tail.dropLast, child.kind ≠ .token "`"

theorem isShaped_comment {c : Span} (h : src.IsComment c) : IsShaped src (.leaf .comment c) where
  isLeaf _ := rfl
  spelled _ hkind := by simp [leaf] at hkind
  comment _ := h
  descriptor hkind := by simp [leaf] at hkind
  covers _ hspan := absurd hspan (Nat.ne_of_lt h.start_lt_stop)
  joins hkind := by simp [leaf] at hkind
  delimited hopens := by simp [OpensBacktick, leaf] at hopens

/-- The children are read too, so that the comments among them are attached. -/
theorem Attached.isShaped (h : Attached src comments more more' node node')
    (hgenuine : node.IsGenuine src) (hchildren : ∀ child ∈ node.children, child.IsGenuine src) :
    node'.IsShaped src where
  isLeaf hkind := h.leaf (hgenuine.isLeaf (h.kind_eq ▸ hkind))
  spelled text hkind := by
    have hspells := hgenuine.spelled text (h.kind_eq ▸ hkind)
    rw [← h.span_eq] at hspells
    exact hspells.textOf?_eq
  comment hkind := absurd (h.kind_eq ▸ hkind) hgenuine.ne_comment
  descriptor hkind := h.span_eq ▸ hgenuine.descriptor (h.kind_eq ▸ hkind)
  covers hnone hspan := by
    have hempty : node.children = [] := by
      by_cases hne : node.children = []
      . exact hne
      . exact absurd hnone (h.adds.ne_nil hne)
    rw [h.span_eq] at hspan
    rw [h.kind_eq, ← Bool.not_eq_false]
    intro hcan
    have := hgenuine.covers hempty hcan
    omega
  joins hkind := by
    obtain ⟨hlength, hglued⟩ := hgenuine.joins (h.kind_eq ▸ hkind)
    have hpairs := h.readChildren fun child hchild => (hchildren child hchild).ne_comment
    exact ⟨hpairs.length_eq ▸ hlength, hglued.attached hpairs⟩
  delimited hopens := by
    have hopens := h.opensBacktick_iff.1 hopens
    have hne : node.children ≠ [] := by
      obtain ⟨first, hfirst, _⟩ := hopens.2
      exact List.ne_nil_of_mem (List.mem_of_mem_head? hfirst)
    have hpairs := h.readChildren fun child hchild => (hchildren child hchild).ne_comment
    exact (hgenuine.delimited hopens).attached h hne hpairs

end Node

/-! ### Parses -/

variable {src : Source} {options : Options} {token : Option Bool} {tree : Tree}

namespace IsParse

variable {env : Env} {bare : Node} {final : State}

theorem isShaped (h : IsParse env bare final tree) {node' : Node}
    (hnode' : node' ∈ Node.preorderAll tree.root.children) : node'.IsShaped env.source := by
  obtain ⟨c, hc, rfl⟩ | ⟨node, hnode, hattached⟩ := h.origin hnode'
  . exact Node.isShaped_comment hc
  . have hchildren : ∀ child ∈ node.children, child.IsGenuine env.source :=
      fun child hchild => h.genuine child (Node.mem_preorderAll_child hnode hchild)
    exact hattached.isShaped (h.genuine node hnode) hchildren

/-- Where nothing is reported all fragments are closed. -/
theorem isChain (h : IsParse env bare final tree) (hclean : tree.diagnostics = []) {node' : Node}
    (hnode' : node' ∈ Node.preorderAll tree.root.children)
    (hkind : node'.kind = .concatenation) :
    node'.children.IsChain fun child next => child.span.stop = next.span.start := by
  obtain ⟨c, _, rfl⟩ | ⟨node, hnode, hattached⟩ := h.origin hnode'
  . simp [Node.leaf] at hkind
  . rw [hattached.kind_eq] at hkind
    obtain ⟨hlength, hglued⟩ := (h.genuine node hnode).joins hkind
    have hne : node.children ≠ [] := List.ne_nil_of_length_pos (by omega)
    have hsettled := h.settled (h.running (by simp [← h.diagnostics_eq, hclean]))
    have hclosed : ∀ child ∈ node.children, child.IsClosed env.source := fun child hchild =>
      (hsettled child (Node.mem_preorderAll_child hnode hchild)).closed (h.diagnostics_eq ▸ hclean)
    exact hattached.isChain (hglued.isChain hclosed) hne (by rw [hkind]; rfl)

/-- Where nothing is reported nothing is left out between the parts of a text. -/
theorem fills (h : IsParse env bare final tree) (hclean : tree.diagnostics = []) {node : Node}
    (hnode : node ∈ Node.preorderAll tree.root.children)
    (hkind : node.kind = .string ∨ node.kind = .heredocBody) :
    Node.Fills node.span.start node.children node.span.stop :=
  (h.isFilled hclean hnode).fills (h.fits.tiles.of_mem_preorderAll hnode) hkind

/-- A character of a text is in a fragment or content, if it is no quote. -/
theorem exists_covering (h : IsParse env bare final tree) (hclean : tree.diagnostics = [])
    {node : Node} (hnode : node ∈ Node.preorderAll tree.root.children)
    (hfills : Node.Fills node.span.start node.children node.span.stop) {offset : Nat} {c : Char}
    (hchar : env.source.char? offset = some c) (hc : c ≠ '"') (hstart : node.span.start ≤ offset)
    (hstop : offset < node.span.stop) :
    ∃ child ∈ node.children, child.span.start ≤ offset ∧ offset < child.span.stop ∧
      (child.children = [] → child.kind = .content) := by
  obtain ⟨child, hchild, hstart, hstop⟩ := hfills.abuts.exists_covering hstart hstop
  refine ⟨child, hchild, hstart, hstop, fun hleaf => ?_⟩
  refine (hfills.content child hchild hleaf).resolve_right fun hquote => hc ?_
  have hmem : child ∈ tree.root.descendants := by
    rw [Node.descendants_eq]
    exact List.mem_cons_of_mem _ (Node.mem_preorderAll_child hnode hchild)
  have hclosed := h.isClosed hclean hmem
  unfold Node.IsClosed at hclosed
  rw [hquote] at hclosed
  have hwidth : child.span.stop = child.span.start + 1 := hclosed.stop_eq
  obtain rfl : offset = child.span.start := by omega
  obtain ⟨cs, htail, hhead⟩ := Option.bind_eq_some_iff.1 hchar
  obtain ⟨rest, rfl⟩ := List.head?_eq_some_iff.1 hhead
  exact (Source.tail?_eq_some_iff.1 htail).head_eq hclosed

end IsParse

/-! ### Main results -/

/-- The kind of a leaf tells the truth about its text. Nothing but errors, commands without words
and the parts of here-documents can be empty. -/
theorem parse_leaves (h : parse src options token = .ok tree) :
    ∀ node ∈ tree.root.descendants,
      (node.kind.isText → node.children = []) ∧
      (∀ text, node.kind = .token text → node.text? src = some text) ∧
      (node.kind = .comment → src.IsComment node.span) ∧
      (node.kind = .fileDescriptor → src.IsDescriptor node.span) ∧
      (node.children = [] → node.span.start = node.span.stop →
        node.kind.canBeEmpty ∨ node.kind = .program ∧ src.size = 0) := by
  obtain ⟨bare, final, _, hparse⟩ := isParse_of_parse h
  intro node hnode
  rw [Node.descendants_eq, List.mem_cons] at hnode
  cases hnode with
  | inl hroot =>
    have hsource : tree.source = src := hparse.source_eq
    have hkind : node.kind = .program := hroot ▸ hparse.fits.kind_eq
    have hspan : node.span = ⟨0, src.size, Nat.zero_le _⟩ := hroot ▸ hsource ▸ hparse.fits.span_eq
    rw [hkind, hspan]
    exact ⟨by simp [NodeKind.isText], by simp, by simp, by simp,
      fun _ hsize => .inr ⟨rfl, hsize.symm⟩⟩
  | inr hmem =>
    have hshaped := hparse.isShaped hmem
    exact ⟨hshaped.isLeaf, hshaped.spelled, hshaped.comment, hshaped.descriptor,
      fun hleaf hspan => .inl (hshaped.covers hleaf hspan)⟩

theorem parse_leaves_descriptor :
    ∃ tree, parse (.ofString "a 2>b # c") = .ok tree ∧
      ∃ node ∈ tree.root.descendants, node.kind = .fileDescriptor ∧
        (Source.ofString "a 2>b # c").IsDescriptor node.span := by
  have hany : (parse (.ofString "a 2>b # c")).toOption.map (fun tree =>
      (Node.preorderAll tree.root.children).any (·.kind == .fileDescriptor)) = some true := by
    decide +kernel
  obtain ⟨tree, htree, node, hnode, hkind⟩ := exists_node_of_map hany
  rw [beq_iff_eq] at hkind
  exact ⟨tree, htree, node, hnode, hkind, (parse_leaves htree node hnode).2.2.2.1 hkind⟩

/-- A concatenation joins fragments that touch, also in a malformed script, except that there can be
line breaks behind a substitution that is not closed. Without reports its children fill it. -/
theorem parse_concatenations (h : parse src options token = .ok tree) :
    ∀ node ∈ tree.root.descendants, node.kind = .concatenation →
      2 ≤ node.readChildren.length ∧ Node.Glued src node.readChildren ∧
        (tree.diagnostics = [] →
          node.children.IsChain fun child next => child.span.stop = next.span.start) := by
  obtain ⟨bare, final, _, hparse⟩ := isParse_of_parse h
  intro node hnode hkind
  have hmem := (hparse.of_mem_descendants hnode).resolve_left (by simp [hkind])
  obtain ⟨hlength, hglued⟩ := (hparse.isShaped hmem).joins hkind
  exact ⟨hlength, hglued, fun hclean => hparse.isChain hclean hmem hkind⟩

theorem parse_concatenations_substitution :
    ∃ src tree, src = .ofString "a$(b)`c`\"d\"" ∧ parse src = .ok tree ∧ tree.diagnostics = [] ∧
      ∃ node ∈ tree.root.descendants, node.kind = .concatenation ∧
        node.children.IsChain fun child next => child.span.stop = next.span.start := by
  have hclean : (parse (.ofString "a$(b)`c`\"d\"")).toOption.map Tree.diagnostics = some [] := by
    decide +kernel
  have hany : (parse (.ofString "a$(b)`c`\"d\"")).toOption.map (fun tree =>
      (Node.preorderAll tree.root.children).any (·.kind == .concatenation)) = some true := by
    decide +kernel
  obtain ⟨tree, htree, node, hnode, hkind⟩ := exists_node_of_map hany
  rw [htree] at hclean
  rw [beq_iff_eq] at hkind
  have hclean : tree.diagnostics = [] := by simpa [Except.toOption] using hclean
  exact ⟨_, tree, rfl, htree, hclean, node, hnode, hkind,
    (parse_concatenations htree node hnode hkind).2.2 hclean⟩

/-- The list of an open substitution takes the line break at its end, and what follows is read as
another fragment. -/
theorem parse_concatenations_open :
    ∃ tree, parse (.ofString "echo $(\nfi") = .ok tree ∧
      ∃ node ∈ tree.root.descendants, node.kind = .concatenation ∧
        ¬node.children.IsChain fun child next => child.span.stop = next.span.start := by
  have hany : (parse (.ofString "echo $(\nfi")).toOption.map (fun tree =>
      (Node.preorderAll tree.root.children).any fun node => node.kind == .concatenation &&
        !decide (node.children.IsChain fun child next => child.span.stop = next.span.start)) =
      some true := by decide +kernel
  obtain ⟨tree, htree, node, hnode, hgap⟩ := exists_node_of_map hany
  simp only [Bool.and_eq_true, beq_iff_eq, Bool.not_eq_true', decide_eq_false_iff_not] at hgap
  exact ⟨tree, htree, node, hnode, hgap⟩

/-- Without reports no text of a string or of the body of a here-document is trivia: its parts touch
and reach from the start to the stop, a string from quote to quote, and what is in none of the
fragments is content. -/
theorem parse_texts (h : parse src options token = .ok tree) (hclean : tree.diagnostics = []) :
    ∀ node ∈ tree.root.descendants,
      (node.kind = .string →
        StartsWith "\"" node.children ∧ EndsWith "\"" node.children.tail) ∧
      (node.kind = .string ∨ node.kind = .heredocBody →
        Node.Abuts node.span.start node.children node.span.stop ∧
          ∀ offset c, src.char? offset = some c → c ≠ '"' →
            node.span.start ≤ offset → offset < node.span.stop →
              ∃ child ∈ node.children, child.span.start ≤ offset ∧ offset < child.span.stop ∧
                (child.children = [] → child.kind = .content)) := by
  obtain ⟨bare, final, _, hparse⟩ := isParse_of_parse h
  intro node hnode
  refine ⟨fun hkind => ?_, fun hkind => ?_⟩
  . have hmem := (hparse.of_mem_descendants hnode).resolve_left (by simp [hkind])
    have hfilled := hparse.isFilled hclean hmem
    have hclosed := hparse.isClosed hclean hnode
    unfold Node.IsFilled at hfilled
    unfold Node.IsClosed at hclosed
    rw [hkind] at hfilled hclosed
    exact ⟨hfilled.1, hclosed⟩
  . have hmem := (hparse.of_mem_descendants hnode).resolve_left (by
      obtain hkind | hkind := hkind <;> simp [hkind])
    have hfills := hparse.fills hclean hmem hkind
    exact ⟨hfills.abuts, fun offset c hchar hc hstart hstop =>
      hparse.exists_covering hclean hmem hfills hchar hc hstart hstop⟩

theorem parse_texts_nested :
    ∃ src tree, src = .ofString "a \"b  $c\" <<x\n d \\$e $(f <<y\n g\ny\n) \x60h\x60\nx\n" ∧
      parse src = .ok tree ∧ tree.diagnostics = [] ∧ src.char? 20 = some ' ' ∧
      ∃ node ∈ tree.root.descendants, node.kind = .heredocBody ∧
        Node.Abuts node.span.start node.children node.span.stop ∧
        ∃ child ∈ node.children, child.span.start ≤ 20 ∧ 20 < child.span.stop ∧
          (child.children = [] → child.kind = .content) := by
  have hclean : (parse (.ofString "a \"b  $c\" <<x\n d \\$e $(f <<y\n g\ny\n) \x60h\x60\nx\n")
      ).toOption.map Tree.diagnostics = some [] := by decide +kernel
  have hchar : (Source.ofString "a \"b  $c\" <<x\n d \\$e $(f <<y\n g\ny\n) \x60h\x60\nx\n"
      ).char? 20 = some ' ' := by decide +kernel
  have hany : (parse (.ofString "a \"b  $c\" <<x\n d \\$e $(f <<y\n g\ny\n) \x60h\x60\nx\n")
      ).toOption.map (fun tree => (Node.preorderAll tree.root.children).any fun node =>
        node.kind == .heredocBody && decide (node.span.start ≤ 20 ∧ 20 < node.span.stop)) =
      some true := by decide +kernel
  obtain ⟨tree, htree, node, hnode, hbody⟩ := exists_node_of_map hany
  simp only [Bool.and_eq_true, beq_iff_eq, decide_eq_true_eq] at hbody
  obtain ⟨hkind, hstart, hstop⟩ := hbody
  rw [htree] at hclean
  have hclean : tree.diagnostics = [] := by simpa [Except.toOption] using hclean
  obtain ⟨habuts, hcovers⟩ := (parse_texts htree hclean node hnode).2 (.inr hkind)
  exact ⟨_, tree, rfl, htree, hclean, hchar, node, hnode, hkind, habuts,
    hcovers 20 ' ' hchar (by decide) hstart hstop⟩

/-- Between backticks no other backtick opens, except where arithmetic is read, and none stands
there, except below what is read. -/
theorem parse_backticks (h : parse src options token = .ok tree) :
    ∀ node ∈ tree.root.descendants, node.OpensBacktick →
      Node.AllFlat node.children ∧
        ∀ child ∈ node.readChildren.tail.dropLast, child.kind ≠ .token "`" := by
  obtain ⟨bare, final, _, hparse⟩ := isParse_of_parse h
  intro node hnode hopens
  have hmem := (hparse.of_mem_descendants hnode).resolve_left (by simp [hopens.1])
  exact (hparse.isShaped hmem).delimited hopens

theorem parse_backticks_test :
    ∃ tree, parse (.ofString "`[ $(a) = \"b\" ]`") = .ok tree ∧
      ∃ node ∈ tree.root.descendants, node.OpensBacktick ∧ Node.AllFlat node.children := by
  have hany : (parse (.ofString "`[ $(a) = \"b\" ]`")).toOption.map (fun tree =>
      (Node.preorderAll tree.root.children).any fun node => decide node.OpensBacktick) =
      some true := by decide +kernel
  obtain ⟨tree, htree, node, hnode, hopens⟩ := exists_node_of_map hany
  rw [decide_eq_true_eq] at hopens
  exact ⟨tree, htree, node, hnode, hopens, (parse_backticks htree node hnode hopens).1⟩

/-- The closing backtick of a substitution opens another in an expression. -/
theorem parse_backticks_arithmetic :
    ∃ tree, parse (.ofString "echo `echo $((`") = .ok tree ∧
      ∃ node ∈ tree.root.descendants, node.OpensBacktick ∧
        ∃ inner ∈ Node.preorderAll node.children, inner.OpensBacktick := by
  have hany : (parse (.ofString "echo `echo $((`")).toOption.map (fun tree =>
      (Node.preorderAll tree.root.children).any fun node => decide node.OpensBacktick &&
        (Node.preorderAll node.children).any fun inner => decide inner.OpensBacktick) =
      some true := by decide +kernel
  obtain ⟨tree, htree, node, hnode, hnested⟩ := exists_node_of_map hany
  simp only [Bool.and_eq_true, decide_eq_true_eq, List.any_eq_true] at hnested
  exact ⟨tree, htree, node, hnode, hnested⟩

/-- An expansion takes the closing backtick as one of its words, and another closes in its place. -/
theorem parse_backticks_expansion :
    ∃ tree, parse (.ofString "`echo $\x7ba`\x7d`") = .ok tree ∧
      ∃ node ∈ tree.root.descendants, node.OpensBacktick ∧
        ∃ inner ∈ Node.preorderAll node.children, inner.kind = .expansion ∧
          ∃ child ∈ inner.children, child.kind = .token "`" := by
  have hany : (parse (.ofString "`echo $\x7ba`\x7d`")).toOption.map (fun tree =>
      (Node.preorderAll tree.root.children).any fun node => decide node.OpensBacktick &&
        (Node.preorderAll node.children).any fun inner => inner.kind == .expansion &&
          inner.children.any (·.kind == .token "`")) = some true := by decide +kernel
  obtain ⟨tree, htree, node, hnode, htaken⟩ := exists_node_of_map hany
  simp only [Bool.and_eq_true, decide_eq_true_eq, List.any_eq_true, beq_iff_eq] at htaken
  exact ⟨tree, htree, node, hnode, htaken⟩

/-- The operator of an assignment comes second. Behind a subscript it can be missing, where the one
that is read is not the one that the lexer has skipped, and then that is reported. -/
theorem parse_assignments (h : parse src options token = .ok tree)
    (hreports : ∀ diagnostic ∈ tree.diagnostics, diagnostic.kind.isFinal = false) :
    ∀ node ∈ tree.root.descendants, node.kind = .variableAssignment →
      Node.Assigns tree.diagnostics node.readChildren := by
  obtain ⟨bare, final, _, hparse⟩ := isParse_of_parse h
  have hrunning := hparse.running (hparse.diagnostics_eq ▸ hreports)
  intro node hnode hkind
  have hmem := (hparse.of_mem_descendants hnode).resolve_left (by simp [hkind])
  exact (hparse.allSettled hrunning node hmem).assigns hkind

theorem parse_assignments_nested :
    ∃ tree, parse (.ofString "a[${b}]+=$(c=1) d") = .ok tree ∧ tree.diagnostics = [] ∧
      ∃ node ∈ tree.root.descendants, node.kind = .variableAssignment ∧
        Node.Assigns tree.diagnostics node.readChildren := by
  have hclean : (parse (.ofString "a[${b}]+=$(c=1) d")).toOption.map Tree.diagnostics =
      some [] := by decide +kernel
  have hany : (parse (.ofString "a[${b}]+=$(c=1) d")).toOption.map (fun tree =>
      (Node.preorderAll tree.root.children).any (·.kind == .variableAssignment)) = some true := by
    decide +kernel
  obtain ⟨tree, htree, node, hnode, hkind⟩ := exists_node_of_map hany
  rw [htree] at hclean
  rw [beq_iff_eq] at hkind
  have hclean : tree.diagnostics = [] := by simpa [Except.toOption] using hclean
  exact ⟨tree, htree, hclean, node, hnode, hkind,
    parse_assignments htree (by simp [hclean]) node hnode hkind⟩

/-- The lexer balances the brackets of a subscript, and the subscript that is read ends at the first
that closes. -/
theorem parse_assignments_subscript :
    ∃ tree, parse (.ofString "a[b[0]]=1") = .ok tree ∧
      (∀ diagnostic ∈ tree.diagnostics, diagnostic.kind.isFinal = false) ∧
      ∃ node ∈ tree.root.descendants, node.kind = .variableAssignment ∧
        ¬Node.HasOperator node.readChildren := by
  have hany : (parse (.ofString "a[b[0]]=1")).toOption.map (fun tree =>
      tree.diagnostics.all (!·.kind.isFinal) &&
        (Node.preorderAll tree.root.children).any fun node =>
          node.kind == .variableAssignment && node.readChildren.length == 1) = some true := by
    decide +kernel
  obtain ⟨tree, htree, hany⟩ := exists_of_map hany
  simp only [Bool.and_eq_true, List.all_eq_true, List.any_eq_true, Bool.not_eq_eq_eq_not,
    Bool.not_true, beq_iff_eq] at hany
  obtain ⟨hreports, node, hmem, hkind, hlength⟩ := hany
  have hnode : node ∈ tree.root.descendants := by
    rw [Node.descendants_eq]
    exact List.mem_cons_of_mem _ hmem
  refine ⟨tree, htree, hreports, node, hnode, hkind, ?_⟩
  rintro ⟨target, operator, value, hchildren, _⟩
  simp [hchildren] at hlength

end ShellTree
