import ShellTree.Proofs.Precedence
import ShellTree.Proofs.Script

/-!
This module contains the correctness of a parse: it has a result, and the result covers the source.
-/

namespace ShellTree

open Parse

variable {src : Source} {options : Options} {token : Option Bool} {tree : Tree}

structure Tree.Fits (tree : Tree) : Prop where
  kind_eq : tree.root.kind = .program
  span_eq : tree.root.span = ⟨0, tree.source.size, Nat.zero_le _⟩
  tiles : Tiles tree.source [] tree.root.children 0 tree.source.size

def Tree.comments (tree : Tree) : List Span :=
  (tree.root.descendants.filter (·.kind == .comment)).map Node.span

structure IsParse (env : Env) (bare : Node) (final : State) (tree : Tree) : Prop
    extends Grammar.IsScript env bare final where
  source_eq : tree.source = env.source
  root_eq : tree.root = ⟨bare.kind, bare.span,
    Node.insertAllAmong final.comments.spans bare.children⟩
  diagnostics_eq : tree.diagnostics = final.diagnostics

theorem Grammar.IsScript.contains {env : Env} {bare : Node} {final : State}
    (h : IsScript env bare final) : ∀ c ∈ final.comments.spans, bare.span.contains c := by
  intro c hc
  obtain ⟨_, hspells, _⟩ := (h.sound.comments.comments c hc).spells
  rw [h.span_eq, Node.contains_iff]
  exact ⟨Nat.zero_le _, hspells.stop_le_size⟩

theorem parse_eq (src : Source) (options : Options) (token : Option Bool) :
    parse src options token =
      match Grammar.script ⟨src, options, token.getD false⟩ {} with
      | .ok (bare, final) =>
        .ok ⟨src, bare.attachComments final.comments.spans, final.diagnostics⟩
      | .error fault => .error fault := by
  unfold parse Grammar.program
  simp only [Bind.bind, ReaderT.bind, StateT.bind, StateT.run, Except.bind]
  cases Grammar.script ⟨src, options, token.getD false⟩ {} <;> rfl

theorem isParse_of_parse (h : parse src options token = .ok tree) :
    ∃ bare final, Grammar.script ⟨src, options, token.getD false⟩ {} = .ok (bare, final) ∧
      IsParse ⟨src, options, token.getD false⟩ bare final tree := by
  have hmeets := Grammar.script_meets ⟨src, options, token.getD false⟩
  unfold Meets at hmeets
  rw [parse_eq] at h
  cases hscript : Grammar.script ⟨src, options, token.getD false⟩ {} with
  | error fault => simp [hscript] at h
  | ok result =>
    obtain ⟨bare, final⟩ := result
    rw [hscript] at h hmeets
    cases h
    exact ⟨bare, final, rfl, hmeets, rfl, Node.attachComments_eq hmeets.kind_eq hmeets.contains,
      rfl⟩

namespace IsParse

variable {env : Env} {bare : Node} {final : State}

theorem fits (h : IsParse env bare final tree) : tree.Fits where
  kind_eq := by rw [h.root_eq, h.kind_eq]
  span_eq := by rw [h.root_eq, h.source_eq, h.span_eq]
  tiles := by
    have hlog := h.sound.comments
    rw [h.root_eq, h.source_eq]
    apply h.tiles.insertAllAmong hlog.comments hlog.ordered
    intro c hc
    have hcontains := h.contains c hc
    rwa [h.span_eq, Node.contains_iff] at hcontains

/-- The last report of a parse that has halted says so. -/
theorem running (h : IsParse env bare final tree)
    (hreports : ∀ diagnostic ∈ final.diagnostics, diagnostic.kind.isFinal = false) :
    final.halted = false := by
  rw [← Bool.not_eq_true]
  intro hhalted
  obtain ⟨before, last, heq, hfinal, _⟩ := h.sound.halted hhalted
  have hnot := hreports last (by simp [heq])
  rw [hfinal] at hnot
  cases hnot

theorem addsComments (h : IsParse env bare final tree) :
    Node.AddsComments final.comments.spans bare.children tree.root.children := by
  rw [h.root_eq]
  exact Node.addsComments_insertAllAmong (fun _ => id) _

theorem allBound (h : IsParse env bare final tree) : Node.AllBound tree.root.children := by
  have hfits := h.fits.tiles
  rw [h.source_eq] at hfits
  apply h.addsComments.allBound _ h.tiles hfits h.bound
  intro c hc
  exact (h.sound.comments.comments c hc).start_lt_stop

theorem mem_comments {c : Span} (h : .leaf .comment c ∈ Node.preorderAll tree.root.children) :
    c ∈ tree.comments := by
  unfold Tree.comments
  have hmem : .leaf .comment c ∈ tree.root.descendants := by
    rw [Node.descendants_eq]
    exact List.mem_cons_of_mem _ h
  exact List.mem_map.2 ⟨_, List.mem_filter.2 ⟨hmem, rfl⟩, rfl⟩

theorem tiles_comments (h : IsParse env bare final tree) :
    Tiles env.source tree.comments bare.children 0 env.source.size := by
  have hfits := h.fits.tiles
  rw [h.source_eq] at hfits
  exact h.addsComments.tiles h.sound.comments.comments h.tiles.fits hfits fun _ => mem_comments

end IsParse

namespace Tree.Fits

theorem tiles_leaves (h : tree.Fits) : Tiles tree.source [] tree.leaves 0 tree.source.size := by
  unfold Tree.leaves
  rw [Node.filter_isLeaf_descendants]
  split
  . next hleaf =>
    rw [tiles_cons, Node.fits_of_isLeaf hleaf, h.span_eq]
    exact ⟨.done Source.boundary_zero, ⟨_, Source.spells_all⟩,
      tiles_nil.2 (.done Source.boundary_size)⟩
  . exact h.tiles.leaves

theorem isOrdered (h : tree.Fits) : ∀ node ∈ tree.root.descendants, node.IsOrdered := by
  intro node hnode
  rw [Node.descendants_eq, List.mem_cons] at hnode
  cases hnode with
  | inl hroot =>
    subst hroot
    refine ⟨h.tiles.pairwise, ?_, fun hkind => absurd h.kind_eq hkind⟩
    rw [h.span_eq]
    exact h.tiles.within
  | inr hmem => exact (h.tiles.of_mem_preorderAll hmem).isOrdered

end Tree.Fits

theorem exists_eq_ok {result : Except Fault Tree} (h : result.isOk) :
    ∃ tree, result = .ok tree := by
  cases result with
  | ok tree => exact ⟨tree, rfl⟩
  | error fault => simp [Except.isOk, Except.toBool] at h

theorem exists_of_map {α : Type} {result : Except Fault Tree} {f : Tree → α} {a : α}
    (h : result.toOption.map f = some a) : ∃ tree, result = .ok tree ∧ f tree = a := by
  cases result with
  | ok tree => exact ⟨tree, rfl, by simpa [Except.toOption] using h⟩
  | error fault => simp [Except.toOption] at h

theorem exists_node_of_map {result : Except Fault Tree} {p : Node → Bool}
    (h : result.toOption.map (fun tree => (Node.preorderAll tree.root.children).any p) = some true) :
    ∃ tree, result = .ok tree ∧ ∃ node ∈ tree.root.descendants, p node := by
  obtain ⟨tree, htree, hany⟩ := exists_of_map h
  obtain ⟨node, hmem, hnode⟩ := List.any_eq_true.1 hany
  refine ⟨tree, htree, node, ?_, hnode⟩
  rw [Node.descendants_eq]
  exact List.mem_cons_of_mem _ hmem

/-! ### Main results -/

/-- The tree spells its source, also when the script is malformed or the parse has halted. -/
theorem parse_reconstruct (h : parse src options token = .ok tree) :
    tree.reconstruct? = some src.text := by
  obtain ⟨bare, final, _, hparse⟩ := isParse_of_parse h
  have hsource : tree.source = src := hparse.source_eq
  have hleaves : ∀ leaf ∈ tree.leaves, leaf.isLeaf := fun leaf hleaf => (List.mem_filter.1 hleaf).2
  unfold Tree.reconstruct?
  rw [Tree.reconstructFrom?_eq hparse.fits.tiles_leaves hleaves Source.spells_all, hsource,
    String.ofList_toList]

theorem parse_reconstruct_unclosed :
    ∃ tree, parse (.ofString "(a # b") = .ok tree ∧ tree.reconstruct? = some "(a # b" := by
  have hok : (parse (.ofString "(a # b")).isOk := by decide +kernel
  obtain ⟨tree, htree⟩ := exists_eq_ok hok
  exact ⟨tree, htree, parse_reconstruct htree⟩

/-- There is nothing but trivia between the leaves. Attaching the comments keeps all other nodes,
and whatever comments the script was read around are leaves. -/
theorem parse_gaps (h : parse src options token = .ok tree) :
    (∀ gap ∈ tree.gaps, ∃ text, src.textOf? gap = some text ∧ Trivia.isTrivia text.toList) ∧
      ∃ bare final, Grammar.script ⟨src, options, token.getD false⟩ {} = .ok (bare, final) ∧
        tree.root.kind = bare.kind ∧ tree.root.span = bare.span ∧
        Node.AddsComments final.comments.spans bare.children tree.root.children ∧
        Tiles src tree.comments bare.children 0 src.size := by
  obtain ⟨bare, final, hscript, hparse⟩ := isParse_of_parse h
  have hsource : tree.source = src := hparse.source_eq
  refine ⟨?_, bare, final, hscript, ?_, ?_, hparse.addsComments, hparse.tiles_comments⟩
  . intro gap hgap
    obtain ⟨cs, hcs, htrivia⟩ := Tree.gapsFrom_trivia hparse.fits.tiles_leaves gap hgap
    rw [hsource] at hcs
    exact ⟨String.ofList cs, hcs.slice?, by rwa [String.toList_ofList]⟩
  . rw [hparse.root_eq]
  . rw [hparse.root_eq]

theorem parse_gaps_comment :
    ∃ tree, parse (.ofString "a # b\n") = .ok tree ∧
      ∀ gap ∈ tree.gaps, ∃ text, (Source.ofString "a # b\n").textOf? gap = some text ∧
        Trivia.isTrivia text.toList := by
  have hok : (parse (.ofString "a # b\n")).isOk := by decide +kernel
  obtain ⟨tree, htree⟩ := exists_eq_ok hok
  exact ⟨tree, htree, (parse_gaps htree).1⟩

/-- The root covers the source, and the spans below it fit each other. -/
theorem parse_spans (h : parse src options token = .ok tree) :
    tree.root.kind = .program ∧ tree.root.span = ⟨0, src.size, Nat.zero_le _⟩ ∧
      ∀ node ∈ tree.root.descendants, node.IsOrdered := by
  obtain ⟨bare, final, _, hparse⟩ := isParse_of_parse h
  have hfits := hparse.fits
  have hsource : tree.source = src := hparse.source_eq
  refine ⟨hfits.kind_eq, ?_, hfits.isOrdered⟩
  subst hsource
  exact hfits.span_eq

theorem parse_spans_heredoc :
    ∃ tree, parse (.ofString "a <<b\nc\nb\n") = .ok tree ∧
      ∀ node ∈ tree.root.descendants, node.IsOrdered := by
  have hok : (parse (.ofString "a <<b\nc\nb\n")).isOk := by decide +kernel
  obtain ⟨tree, htree⟩ := exists_eq_ok hok
  exact ⟨tree, htree, (parse_spans htree).2.2⟩

/-- Every parse ends. No loop goes round without taking input or halting the parse, which would be
the fault `stalled`, and no recursion is deeper than the text is long, which would be `outOfFuel`:
the one fault there is belongs to a pattern. -/
theorem parse_terminates (src : Source) (options : Options) (token : Option Bool) :
    (∃ tree, parse src options token = .ok tree) ∨
      parse src options token = .error .splitCharacter ∧ src.MayFault := by
  have hmeets := Grammar.script_meets ⟨src, options, token.getD false⟩
  unfold Meets at hmeets
  rw [parse_eq]
  cases hscript : Grammar.script ⟨src, options, token.getD false⟩ {} with
  | ok result => exact .inl ⟨_, rfl⟩
  | error fault =>
    rw [hscript] at hmeets
    obtain ⟨hfault, hpattern⟩ := hmeets
    exact .inr ⟨by rw [hfault], hpattern⟩

/-- Operators bind their operands everywhere in the tree. -/
theorem parse_bound (h : parse src options token = .ok tree) :
    ∀ node ∈ tree.root.descendants, node.IsBound := by
  obtain ⟨bare, final, _, hparse⟩ := isParse_of_parse h
  intro node hnode
  rw [Node.descendants_eq, List.mem_cons] at hnode
  cases hnode with
  | inl hroot =>
    unfold Node.IsBound
    rw [hroot, hparse.fits.kind_eq]
    trivial
  | inr hmem => exact hparse.allBound node hmem

/-- The operands of a pipeline behind its first are statements without operators. Its first operand
is no pipeline either, and a list only where the list lacks its own second operand; but a redirect
behind a list or a pipeline makes it an operand, since pipes are taken after redirects. -/
theorem parse_pipelines (h : parse src options token = .ok tree) :
    ∀ node ∈ tree.root.descendants, node.kind = .pipeline →
      (∀ first ∈ node.children.head?, first.kind ≠ .pipeline ∧
        (first.kind = .list → first.IsCutOff)) ∧
      ∀ operand ∈ node.children.tail, operand.kind.isJoined = false := by
  intro node hnode hkind
  have hbound := parse_bound h node hnode
  unfold Node.IsBound at hbound
  rw [hkind] at hbound
  exact hbound

theorem parse_pipelines_list :
    ∃ tree, parse (.ofString "a && b | c") = .ok tree ∧
      ∃ node ∈ tree.root.descendants, node.kind = .pipeline ∧
        ∀ operand ∈ node.children.tail, operand.kind.isJoined = false := by
  have hany : (parse (.ofString "a && b | c")).toOption.map
      (fun tree => (Node.preorderAll tree.root.children).any (·.kind == .pipeline)) = some true := by
    decide +kernel
  obtain ⟨tree, htree, hany⟩ := exists_of_map hany
  obtain ⟨node, hmem, hkind⟩ := List.any_eq_true.1 hany
  rw [beq_iff_eq] at hkind
  have hnode : node ∈ tree.root.descendants := by
    rw [Node.descendants_eq]
    exact List.mem_cons_of_mem _ hmem
  exact ⟨tree, htree, node, hnode, hkind, (parse_pipelines htree node hnode hkind).2⟩

theorem parse_pipelines_redirect :
    ∃ tree, parse (.ofString "a && b > f | c") = .ok tree ∧ tree.root.sexp =
      "(program (pipeline (redirected_statement (list (command (command_name (word))) " ++
        "(command (command_name (word)))) (file_redirect (word))) " ++
        "(command (command_name (word)))))" :=
  exists_of_map (by decide +kernel)

end ShellTree
