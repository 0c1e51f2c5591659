import ShellTree.Proofs.Filled
import ShellTree.Proofs.Program

/-!
This module contains what the reports of a parse say about its tree. Without reports everything that
opens is closed, at every error there is a report, and here-documents are neither lost nor read
twice. The nesting stays within twice the size of the text, the statement boundaries do not.
-/

namespace ShellTree

open Parse

/-! ### Attached comments -/

namespace Node

variable {src : Source} {comments more more' : List Span} {nodes nodes' : List Node}
variable {node node' : Node} {kind : NodeKind} {text : String}

namespace Attached

theorem startsWith_iff (h : Attached src comments more more' node node')
    (hmargins : node.kind.hasMargins = false) :
    StartsWith text node'.children ↔ StartsWith text node.children := by
  cases hchildren : node.children with
  | nil => rw [h.leaf hchildren]
  | cons child rest =>
    obtain ⟨child', rest', hchildren', hattached, _⟩ := h.first hmargins hchildren
    simp [hchildren', StartsWith, hattached.kind_eq]

/-- A comment is no closer, so that a closer behind the first child has been there before. -/
theorem endsWith_iff (h : Attached src comments more more' node node')
    (hmargins : node.kind.hasMargins = false) :
    EndsWith text node'.children.tail ↔ EndsWith text node.children.tail := by
  have hadded : node.children.tail = [] → ¬EndsWith text node'.children.tail := by
    rintro hnone ⟨last', hlast', hkind⟩
    cases hchildren : node.children with
    | nil => simp [h.leaf hchildren] at hlast'
    | cons child rest =>
      obtain ⟨child', rest', hchildren', _, hrest⟩ := h.first hmargins hchildren
      rw [hchildren, List.tail_cons] at hnone
      rw [hchildren', List.tail_cons] at hlast'
      rw [hnone] at hrest
      obtain ⟨c, _, rfl⟩ | ⟨_, hmem, _⟩ := hrest.of_mem (List.mem_of_getLast? hlast')
      . simp [Node.leaf] at hkind
      . simp at hmem
  by_cases hnone : node.children.tail = []
  . refine iff_of_false (hadded hnone) ?_
    simp [EndsWith, hnone]
  . obtain ⟨last', hlast', hcommented⟩ :=
      h.last hmargins (List.getLast?_eq_some_getLast hnone)
    rw [Option.mem_def] at hlast'
    simp [EndsWith, hlast', List.getLast?_eq_some_getLast hnone, hcommented.kind_eq]

/-- Comments neither open nor close anything. -/
theorem isClosed_iff (h : Attached src comments more more' node node') :
    node'.IsClosed src ↔ node.IsClosed src := by
  have hstarts : node.kind.hasMargins = false → ∀ {text},
      StartsWith text node'.children ↔ StartsWith text node.children :=
    fun hmargins _ => h.startsWith_iff hmargins
  have hends : node.kind.hasMargins = false → ∀ {text},
      EndsWith text node'.children.tail ↔ EndsWith text node.children.tail :=
    fun hmargins _ => h.endsWith_iff hmargins
  have hkept : ∀ {isBody : NodeKind → Bool}, isBody .comment = false →
      ((∃ body ∈ node'.children, isBody body.kind) ↔ ∃ body ∈ node.children, isBody body.kind) := by
    intro isBody hcomment
    constructor
    . rintro ⟨body', hbody', hkind⟩
      obtain ⟨c, _, rfl⟩ | ⟨body, hbody, hcommented⟩ := h.adds.of_mem hbody'
      . simp [Node.leaf, hcomment] at hkind
      . exact ⟨body, hbody, by rwa [← hcommented.kind_eq]⟩
    . rintro ⟨body, hbody, hkind⟩
      obtain ⟨body', hbody', hcommented⟩ := h.adds.exists_commented hbody
      exact ⟨body', hbody', by rwa [hcommented.kind_eq]⟩
  obtain ⟨kind, span, children⟩ := node
  obtain ⟨kind', span', children'⟩ := node'
  obtain rfl : kind' = kind := h.kind_eq
  obtain rfl : span' = span := h.span_eq
  cases kind' with
  | ifStatement | caseStatement | compoundStatement | expansion | subshell | array
  | processSubstitution | parenthesizedExpression | parenthesizedArithmeticExpression | string
  | subscript | arithmeticExpansion => exact hends rfl
  | doGroup => exact and_congr (hstarts rfl) (hends rfl)
  | commandSubstitution =>
    exact or_congr (and_congr (hstarts rfl) (hends rfl)) (and_congr (hstarts rfl) (hends rfl))
  | testCommand =>
    exact or_congr (and_congr (hstarts rfl) (hends rfl))
      (or_congr (and_congr (hstarts rfl) (hends rfl)) (and_congr (hstarts rfl) (hends rfl)))
  | forStatement | cStyleForStatement | whileStatement | functionDefinition => exact hkept rfl
  | _ => exact Iff.rfl

/-- A text keeps what fills it. -/
theorem isFilled (h : Attached src comments more more' node node') (hfilled : node.IsFilled) :
    node'.IsFilled := by
  have hfills := fun hkind => h.fills (hfilled.fills h.before hkind)
  unfold IsFilled at hfilled ⊢
  rw [h.kind_eq]
  split
  . next hstring =>
    rw [hstring] at hfilled
    have hstarts := (h.startsWith_iff (by rw [hstring]; rfl)).2 hfilled.1
    exact ⟨hstarts, _, _, hfills (.inl hstring)⟩
  . next hbody => exact hfills (.inr hbody)
  . trivial

theorem assigns (h : Attached src comments more more' node node') {diagnostics : List Diagnostic}
    (hchildren : ∀ child ∈ node.children, child.IsGenuine src)
    (hassigns : Assigns diagnostics node.readChildren) :
    Assigns diagnostics node'.readChildren := by
  have hne : ∀ child ∈ node.children, child.kind ≠ .comment := fun child hchild =>
    (hchildren child hchild).ne_comment
  have hread : node.readChildren = node.children :=
    List.filter_eq_self.2 fun child hchild => by simpa using hne child hchild
  have hpairs := h.readChildren hne
  rw [hread] at hassigns
  obtain ⟨target, operator, value, hnodes, hkind⟩ | ⟨target, hnodes, hkind, hreport⟩ := hassigns
  . rw [hnodes] at hpairs
    obtain ⟨target', _, _, hpairs, hread'⟩ := List.forall₂_cons_left_iff.1 hpairs
    obtain ⟨operator', value', hoperator, _, rfl⟩ := List.forall₂_cons_left_iff.1 hpairs
    rw [← hoperator.kind_eq] at hkind
    exact .inl ⟨target', operator', value', hread', hkind⟩
  . rw [hnodes] at hpairs
    obtain ⟨target', _, htarget, hpairs, hread'⟩ := List.forall₂_cons_left_iff.1 hpairs
    rw [List.forall₂_nil_left_iff.1 hpairs] at hread'
    rw [← htarget.kind_eq] at hkind
    rw [← htarget.span_eq] at hreport
    exact .inr ⟨target', hread', hkind, hreport⟩

end Attached

theorem leavesOf_inner {kind' : NodeKind} {span : Span} (h : nodes ≠ []) :
    leavesOf kind [⟨kind', span, nodes⟩] = leavesOf kind nodes := by
  rw [leavesOf, leavesAll_cons, if_neg (by simpa [isLeaf] using h)]
  simp [leavesOf, leavesAll, preorderAll]

theorem leavesOf_cons :
    leavesOf kind (node :: nodes) = leavesOf kind [node] ++ leavesOf kind nodes := by
  rw [← List.singleton_append, leavesOf_append]

theorem bodyCount_cons : bodyCount (node :: nodes) = bodyCount [node] + bodyCount nodes := by
  rw [← List.singleton_append, bodyCount_append]

namespace AddsComments

theorem leavesOf_eq (h : AddsComments comments nodes nodes') (hkind : kind ≠ .comment) :
    leavesOf kind nodes' = leavesOf kind nodes := by
  induction h with
  | nil => rfl
  | comment _ _ ih =>
    rw [leavesOf_cons, ih, Node.leaf, leavesOf_wrap hkind.symm]
    simp [leavesOf, leavesAll, preorderAll]
  | leaf _ ih => rw [leavesOf_cons, ih, ← leavesOf_cons]
  | inner hne hchildren _ ihchildren ih =>
    rw [leavesOf_cons, ih, leavesOf_inner (hchildren.ne_nil hne), ihchildren, ← leavesOf_inner hne,
      ← leavesOf_cons]

theorem bodyCount_eq (h : AddsComments comments nodes nodes') :
    bodyCount nodes' = bodyCount nodes := by
  induction h with
  | nil => rfl
  | comment _ _ ih =>
    rw [bodyCount_cons, ih, Node.leaf, bodyCount_wrap]
    simp
  | leaf _ ih => rw [bodyCount_cons, ih, ← bodyCount_cons]
  | inner _ _ _ ihchildren ih =>
    rw [bodyCount_cons, ih, bodyCount_wrap, ihchildren, ← bodyCount_wrap, ← bodyCount_cons]

theorem balanced {diagnostics : List Diagnostic} (h : AddsComments comments nodes nodes')
    (hbalanced : Balanced src nodes diagnostics) : Balanced src nodes' diagnostics := by
  have hasked : asked src nodes' = asked src nodes := by
    rw [asked, h.leavesOf_eq (by simp), asked]
  have hanswered : answered src nodes' = answered src nodes := by
    rw [answered, h.leavesOf_eq (by simp), answered]
  refine ⟨?_, ?_⟩
  . rw [hasked, hanswered]
    exact hbalanced.delimiters
  . rw [h.bodyCount_eq, hanswered]
    exact hbalanced.bodies

end AddsComments

end Node

/-! ### Parses -/

variable {src : Source} {options : Options} {token : Option Bool} {tree : Tree}

namespace IsParse

variable {env : Env} {bare : Node} {final : State}

theorem comment_lt (h : IsParse env bare final tree) :
    ∀ c ∈ final.comments.spans, c.start < c.stop :=
  fun c hc => (h.sound.comments.comments c hc).start_lt_stop

/-- What is below the root is a comment, or was read. -/
theorem origin (h : IsParse env bare final tree) {node' : Node}
    (hnode' : node' ∈ Node.preorderAll tree.root.children) :
    (∃ c, env.source.IsComment c ∧ node' = .leaf .comment c) ∨
      ∃ node ∈ Node.preorderAll bare.children,
        Node.Attached env.source final.comments.spans final.comments.spans [] node node' := by
  have hfits := h.fits.tiles
  rw [h.source_eq] at hfits
  obtain ⟨c, hc, rfl⟩ | ⟨node, hnode, hcommented⟩ := h.addsComments.origin hnode'
  . exact .inl ⟨c, h.sound.comments.comments c hc, rfl⟩
  . exact .inr ⟨node, hnode, hcommented, h.comment_lt, h.tiles.of_mem_preorderAll hnode,
      hfits.of_mem_preorderAll hnode'⟩

theorem allSettled (h : IsParse env bare final tree) (hrunning : final.halted = false) :
    Node.AllSettled env.source tree.diagnostics tree.root.children := by
  have hsettled := h.toIsScript.settled hrunning
  rw [← h.diagnostics_eq] at hsettled
  intro node' hnode'
  obtain ⟨c, _, rfl⟩ | ⟨node, hnode, hattached⟩ := h.origin hnode'
  . exact Node.settled_of_standsAlone rfl fun _ => trivial
  . obtain ⟨hclosed, hreported, hassigns, hfilled⟩ := hsettled node hnode
    refine ⟨fun hclean => ?_, ?_, fun hkind => ?_, fun hclean => ?_⟩
    . exact hattached.isClosed_iff.2 (hclosed hclean)
    . rwa [hattached.kind_eq, hattached.span_eq]
    . have hchildren : ∀ child ∈ node.children, child.IsGenuine env.source :=
        fun child hchild => h.genuine child (Node.mem_preorderAll_child hnode hchild)
      exact hattached.assigns hchildren (hassigns (hattached.kind_eq ▸ hkind))
    . exact hattached.isFilled (hfilled hclean)

theorem isBalanced (h : IsParse env bare final tree) (hrunning : final.halted = false) :
    Balanced env.source tree.root.children tree.diagnostics := by
  rw [h.diagnostics_eq]
  exact h.addsComments.balanced (h.toIsScript.balanced hrunning)

/-- The root is neither closed nor an error. -/
theorem of_mem_descendants (h : IsParse env bare final tree) {node : Node}
    (hnode : node ∈ tree.root.descendants) :
    node.kind = .program ∨ node ∈ Node.preorderAll tree.root.children := by
  rw [Node.descendants_eq, List.mem_cons] at hnode
  exact hnode.imp_left fun heq => by rw [heq, h.fits.kind_eq]

theorem isClosed (h : IsParse env bare final tree) (hclean : tree.diagnostics = []) {node : Node}
    (hnode : node ∈ tree.root.descendants) : node.IsClosed env.source := by
  obtain hprogram | hmem := h.of_mem_descendants hnode
  . unfold Node.IsClosed
    rw [hprogram]
    trivial
  . rw [h.diagnostics_eq] at hclean
    have hsettled := h.allSettled (h.running (by simp [hclean])) node hmem
    exact hsettled.closed (by rw [h.diagnostics_eq, hclean])

theorem isFilled (h : IsParse env bare final tree) (hclean : tree.diagnostics = []) {node : Node}
    (hnode : node ∈ Node.preorderAll tree.root.children) : node.IsFilled := by
  have hrunning := h.running (by simp [← h.diagnostics_eq, hclean])
  exact (h.allSettled hrunning node hnode).filled hclean

end IsParse

namespace Tree

def leavesOf (tree : Tree) (kind : NodeKind) : List Node := tree.leaves.filter (·.kind == kind)

def bodies (tree : Tree) : List Node := tree.root.descendants.filter (·.kind == .heredocBody)

theorem Fits.leavesOf_eq (h : tree.Fits) {kind : NodeKind} (hkind : kind ≠ .program) :
    tree.leavesOf kind = Node.leavesOf kind tree.root.children := by
  unfold leavesOf leaves Node.leavesOf
  rw [Node.filter_isLeaf_descendants]
  split
  . next hleaf =>
    have hchildren : tree.root.children = [] := by simpa [Node.isLeaf] using hleaf
    simp [hchildren, h.kind_eq, hkind.symm, Node.leavesAll, Node.preorderAll]
  . rfl

theorem Fits.bodies_length (h : tree.Fits) :
    tree.bodies.length = Node.bodyCount tree.root.children := by
  unfold bodies Node.bodyCount
  rw [Node.descendants_eq, List.filter_cons_of_neg (by simp [h.kind_eq]),
    List.countP_eq_length_filter]

end Tree

/-! ### Main results -/

/-- Without reports everything that opens is closed. -/
theorem parse_closed (h : parse src options token = .ok tree) (hclean : tree.diagnostics = []) :
    ∀ node ∈ tree.root.descendants, node.IsClosed src := by
  obtain ⟨bare, final, _, hparse⟩ := isParse_of_parse h
  intro node hnode
  exact hparse.isClosed hclean hnode

theorem parse_closed_nested :
    ∃ src tree, src = .ofString "if [ a = 'b' ]; then for c in $(d \"${e}\"); do f; done; fi" ∧
      parse src = .ok tree ∧ tree.diagnostics = [] ∧
      ∀ node ∈ tree.root.descendants, node.IsClosed src := by
  have hclean : (parse (.ofString "if [ a = 'b' ]; then for c in $(d \"${e}\"); do f; done; fi")
      ).toOption.map Tree.diagnostics = some [] := by decide +kernel
  obtain ⟨tree, htree, hclean⟩ := exists_of_map hclean
  exact ⟨_, tree, rfl, htree, hclean, parse_closed htree hclean⟩

/-- At every error that covers something there is a report of something wrong there, unless the
parse has halted. Without reports there are no errors at all. -/
theorem parse_errors_reported (h : parse src options token = .ok tree)
    (hreports : ∀ diagnostic ∈ tree.diagnostics, diagnostic.kind.isFinal = false) :
    (∀ node ∈ tree.root.descendants, node.kind = .error → node.span.start < node.span.stop →
      ∃ diagnostic ∈ tree.diagnostics,
        (diagnostic.kind = .syntaxError ∨ diagnostic.kind = .lexFailure) ∧
          node.span.overlaps diagnostic.span) ∧
      (tree.diagnostics = [] → ∀ node ∈ tree.root.descendants, node.kind ≠ .error) := by
  obtain ⟨bare, final, _, hparse⟩ := isParse_of_parse h
  have hrunning := hparse.running (hparse.diagnostics_eq ▸ hreports)
  refine ⟨fun node hnode hkind hspan => ?_, fun hclean node hnode hkind => ?_⟩
  . have hmem := (hparse.of_mem_descendants hnode).resolve_left (by simp [hkind])
    obtain ⟨diagnostic, hdiagnostic, hlocal, hstart, hstop⟩ :=
      (hparse.allSettled hrunning node hmem).reported hkind hspan
    refine ⟨diagnostic, hdiagnostic, ?_, ?_⟩
    . simpa [Cause.isLocal, Diagnostic.kind, or_comm] using hlocal
    . simp only [Span.overlaps, Bool.and_eq_true, decide_eq_true_eq]
      omega
  . have hclosed := hparse.isClosed hclean hnode
    unfold Node.IsClosed at hclosed
    rw [hkind] at hclosed
    exact hclosed

theorem parse_errors_reported_closer :
    ∃ tree, parse (.ofString "a ) b") = .ok tree ∧
      (∀ diagnostic ∈ tree.diagnostics, diagnostic.kind.isFinal = false) ∧
      ∃ node ∈ tree.root.descendants, node.kind = .error ∧ node.span.start < node.span.stop ∧
        ∃ diagnostic ∈ tree.diagnostics,
          (diagnostic.kind = .syntaxError ∨ diagnostic.kind = .lexFailure) ∧
            node.span.overlaps diagnostic.span := by
  have hany : (parse (.ofString "a ) b")).toOption.map (fun tree =>
      tree.diagnostics.all (!·.kind.isFinal) &&
        (Node.preorderAll tree.root.children).any fun node =>
          node.kind == .error && decide (node.span.start < node.span.stop)) = some true := by
    decide +kernel
  obtain ⟨tree, htree, hany⟩ := exists_of_map hany
  simp only [Bool.and_eq_true, List.all_eq_true, List.any_eq_true, Bool.not_eq_eq_eq_not,
    Bool.not_true, beq_iff_eq, decide_eq_true_eq] at hany
  obtain ⟨hreports, node, hmem, hkind, hspan⟩ := hany
  have hnode : node ∈ tree.root.descendants := by
    rw [Node.descendants_eq]
    exact List.mem_cons_of_mem _ hmem
  exact ⟨tree, htree, hreports, node, hnode, hkind, hspan,
    (parse_errors_reported htree hreports).1 node hnode hkind hspan⟩

/-- Every marker has a body, unless the input ends before one, and every body has the delimiter
after it, unless that is reported to be missing. Without reports the delimiters are those that the
markers name. -/
theorem parse_heredocs (h : parse src options token = .ok tree)
    (hreports : ∀ diagnostic ∈ tree.diagnostics, diagnostic.kind.isFinal = false) :
    (tree.leavesOf .heredocStart).length =
        tree.bodies.length + (missingBodies tree.diagnostics).length ∧
      tree.bodies.length =
        (tree.leavesOf .heredocEnd).length + (missingEnds tree.diagnostics).length ∧
      (tree.diagnostics = [] →
        ((tree.leavesOf .heredocStart).map fun leaf =>
            (leaf.text? src).map Heredoc.delimiterOf).Perm
          ((tree.leavesOf .heredocEnd).map (·.text? src))) := by
  obtain ⟨bare, final, _, hparse⟩ := isParse_of_parse h
  have hrunning := hparse.running (hparse.diagnostics_eq ▸ hreports)
  obtain ⟨hdelimiters, hbodies⟩ := hparse.isBalanced hrunning
  have hfits := hparse.fits
  rw [hfits.leavesOf_eq (by simp), hfits.leavesOf_eq (by simp), hfits.bodies_length]
  have hlength := hdelimiters.length_eq
  simp only [Node.asked, Node.answered, List.length_append, List.length_map] at hlength hbodies
  refine ⟨by omega, hbodies, fun hclean => ?_⟩
  have hnone : (missingBodies [] ++ missingEnds []).map some = [] := rfl
  rw [hclean, hnone, List.append_nil] at hdelimiters
  exact hdelimiters

theorem parse_heredocs_nested :
    ∃ src tree, src = .ofString "a <<b <<'c'\n$(d <<e\nf\ne\n)\nb\ng\nc\n" ∧
      parse src = .ok tree ∧ tree.diagnostics = [] ∧ (tree.leavesOf .heredocEnd).length = 3 ∧
      ((tree.leavesOf .heredocStart).map fun leaf =>
          (leaf.text? src).map Heredoc.delimiterOf).Perm
        ((tree.leavesOf .heredocEnd).map (·.text? src)) := by
  have hclean : (parse (.ofString "a <<b <<'c'\n$(d <<e\nf\ne\n)\nb\ng\nc\n")).toOption.map
      (fun tree => (tree.diagnostics, (Node.leavesOf .heredocEnd tree.root.children).length)) =
        some ([], 3) := by
    decide +kernel
  obtain ⟨tree, htree, hclean⟩ := exists_of_map hclean
  rw [Prod.mk.injEq] at hclean
  refine ⟨_, tree, rfl, htree, hclean.1, ?_, ?_⟩
  . obtain ⟨bare, final, _, hparse⟩ := isParse_of_parse htree
    rw [hparse.fits.leavesOf_eq (by simp), hclean.2]
  . exact (parse_heredocs htree (by simp [hclean.1])).2.2 hclean.1

/-- The nesting grows with the text, whatever is tried and read again, so that a limit of twice the
size is never hit. -/
theorem parse_nesting (h : parse src options token = .ok tree)
    (hdepth : 2 * src.size + 2 ≤ options.maxDepth) :
    ∀ diagnostic ∈ tree.diagnostics, diagnostic.kind = .limitExceeded →
      ∃ limit ∈ options.maxStatements, diagnostic.cause = .tooManyStatements limit := by
  obtain ⟨bare, final, _, hparse⟩ := isParse_of_parse h
  intro diagnostic hmem hkind
  rw [hparse.diagnostics_eq] at hmem
  obtain ⟨_, hlt⟩ | hstatements := (hparse.sound.reports diagnostic hmem).limited hkind
  . exact absurd hlt (Nat.not_lt.2 hdepth)
  . exact hstatements

theorem parse_nesting_redirect :
    ∃ tree, parse (.ofString "a>$(b>$(c))") ⟨24, some 4⟩ = .ok tree ∧
      ∃ diagnostic ∈ tree.diagnostics, diagnostic.kind = .limitExceeded ∧
        diagnostic.cause = .tooManyStatements 4 := by
  have hany : (parse (.ofString "a>$(b>$(c))") ⟨24, some 4⟩).toOption.map (fun tree =>
      tree.diagnostics.any (·.kind == .limitExceeded)) = some true := by decide +kernel
  obtain ⟨tree, htree, hany⟩ := exists_of_map hany
  obtain ⟨diagnostic, hmem, hkind⟩ := List.any_eq_true.1 hany
  have hkind : diagnostic.kind = .limitExceeded := by simpa using hkind
  obtain ⟨limit, hlimit, hcause⟩ := parse_nesting htree (by decide +kernel) diagnostic hmem hkind
  cases hlimit
  exact ⟨tree, htree, diagnostic, hmem, hkind, hcause⟩

/-- The boundaries do not: a redirect at the end of a command is tried as one before an argument and
read again, and what it counts is not taken back, so that each level doubles them. -/
theorem parse_boundaries_redirect :
    ∃ src tree, src = .ofString "a>$(a>$(a>$(a>$(a))))" ∧
      parse src ⟨4 * src.size + 8, some (2 * src.size + 2)⟩ = .ok tree ∧
      ∃ diagnostic ∈ tree.diagnostics, diagnostic.kind = .limitExceeded := by
  have hany : (parse (.ofString "a>$(a>$(a>$(a>$(a))))") ⟨92, some 44⟩).toOption.map (fun tree =>
      tree.diagnostics.any (·.kind == .limitExceeded)) = some true := by decide +kernel
  obtain ⟨tree, htree, hany⟩ := exists_of_map hany
  obtain ⟨diagnostic, hmem, hkind⟩ := List.any_eq_true.1 hany
  exact ⟨_, tree, rfl, htree, diagnostic, hmem, by simpa using hkind⟩

end ShellTree
