import ShellTree.Proofs.Behind.Statement
import ShellTree.Proofs.Grammar.ListPart
import ShellTree.Proofs.Program

/-!
This module contains the independence of a script from the finished lines before it: behind a line
break that no construct contains the script is read as it is by itself.
-/

namespace ShellTree

/-! ### Trees without comments -/

namespace Node

variable {comments : List Span} {nodes nodes' front back : List Node} {line : Node} {width : Nat}

mutual

/-- The node without the comments below it. -/
def withoutComments : Node → Node
  | ⟨kind, span, children⟩ => ⟨kind, span, withoutCommentsAll children⟩

def withoutCommentsAll : List Node → List Node
  | [] => []
  | node :: nodes =>
    if node.kind = .comment then withoutCommentsAll nodes
    else withoutComments node :: withoutCommentsAll nodes

end

theorem withoutComments_kind (node : Node) : node.withoutComments.kind = node.kind := by
  obtain ⟨kind, span, children⟩ := node
  rw [withoutComments]

theorem withoutComments_span (node : Node) : node.withoutComments.span = node.span := by
  obtain ⟨kind, span, children⟩ := node
  rw [withoutComments]

theorem withoutComments_children (node : Node) :
    node.withoutComments.children = withoutCommentsAll node.children := by
  obtain ⟨kind, span, children⟩ := node
  rw [withoutComments]

theorem AddsComments.withoutCommentsAll_eq (h : AddsComments comments nodes nodes') :
    withoutCommentsAll nodes' = withoutCommentsAll nodes := by
  induction h with
  | nil => rfl
  | comment _ _ ih => rw [withoutCommentsAll, Node.leaf, if_pos rfl, ih]
  | leaf _ ih => rw [withoutCommentsAll, withoutCommentsAll, ih]
  | inner _ _ _ ihchildren ih =>
    rw [withoutCommentsAll, withoutCommentsAll, withoutComments, withoutComments, ihchildren, ih]

mutual

theorem withoutComments_moved (width : Nat) :
    (node : Node) → (moved width node).withoutComments = moved width node.withoutComments
  | ⟨kind, span, children⟩ => by
    rw [moved_mk, withoutComments, withoutComments, moved_mk, withoutCommentsAll_moved]

theorem withoutCommentsAll_moved (width : Nat) : (nodes : List Node) →
    withoutCommentsAll (moved width nodes) = moved width (withoutCommentsAll nodes)
  | [] => by rw [moved_nil, withoutCommentsAll, moved_nil]
  | node :: nodes => by
    rw [moved_cons, withoutCommentsAll, withoutCommentsAll, moved_kind,
      withoutComments_moved, withoutCommentsAll_moved]
    split <;> rfl

end

theorem All.withoutCommentsAll_eq : (nodes : List Node) → All (·.kind ≠ .comment) nodes →
    withoutCommentsAll nodes = nodes
  | [], _ => by rw [withoutCommentsAll]
  | ⟨kind, span, children⟩ :: nodes, h => by
    obtain ⟨hnode, hchildren, hnodes⟩ := all_cons.1 h
    rw [withoutCommentsAll, if_neg hnode, withoutComments, withoutCommentsAll_eq children hchildren,
      withoutCommentsAll_eq nodes hnodes]

theorem exists_of_withoutCommentsAll (h : withoutCommentsAll nodes = front ++ line :: back) :
    ∃ front' line' back', nodes = front' ++ line' :: back' ∧ line = line'.withoutComments ∧
      back = withoutCommentsAll back' := by
  induction nodes generalizing front with
  | nil => simp [withoutCommentsAll] at h
  | cons node nodes ih =>
    have hlater : ∀ {front}, withoutCommentsAll nodes = front ++ line :: back →
        ∃ front' line' back', node :: nodes = front' ++ line' :: back' ∧
          line = line'.withoutComments ∧ back = withoutCommentsAll back' := by
      intro front h
      obtain ⟨front', line', back', rfl, hline, hback⟩ := ih h
      exact ⟨node :: front', line', back', rfl, hline, hback⟩
    rw [withoutCommentsAll] at h
    split at h
    . exact hlater h
    . cases front with
      | nil =>
        cases h
        exact ⟨[], node, nodes, rfl, rfl, rfl⟩
      | cons first front =>
        rw [List.cons_append, List.cons.injEq] at h
        exact hlater h.2

theorem head_withoutCommentsAll
    (h : ∀ node ∈ (withoutCommentsAll nodes).head?, node.kind ≠ .heredocBody) :
    ∀ node ∈ nodes.head?, node.kind ≠ .heredocBody := by
  cases nodes with
  | nil => simp
  | cons node nodes =>
    rintro _ ⟨⟩ hkind
    rw [withoutCommentsAll, if_neg (by simp [hkind])] at h
    exact h _ rfl ((withoutComments_kind node).trans hkind)

end Node

/-! ### Runs of a script -/

namespace Grammar

open Parse

variable {E : Embedding} {env : Env} {s s₁ s₂ s' : State} {root line : Node}
variable {nodes rest front back : List Node}

theorem script_run (h : script env {} = .ok (root, s')) :
    ∃ nodes rest s₁ s₂, root.children = nodes ++ rest ∧
      statements (nested (env.source.size + 1)) { topLevel := true } env {} = .ok (nodes, s₁) ∧
      reportPending env s₁ = .ok (⟨⟩, s₂) ∧ unread env s₂ = .ok (rest, s') := by
  unfold script at h
  obtain ⟨size, s₀, hsize, hrun⟩ := bind_run.1 h
  cases hsize
  obtain ⟨nodes, s₁, hnodes, hrun⟩ := bind_run.1 hrun
  obtain ⟨_, s₂, hreported, hrun⟩ := bind_run.1 hrun
  obtain ⟨rest, s₃, hrest, hrun⟩ := bind_run.1 hrun
  obtain ⟨span, s₄, hspan, hrun⟩ := bind_run.1 hrun
  cases hspan
  cases hrun
  exact ⟨nodes, rest, s₁, s₂, rfl, hnodes, hreported, hrest⟩

theorem unread_run (h : unread env s = .ok (rest, s')) :
    s' = s ∧ (s.halted = false → rest = []) ∧ ∀ node ∈ rest, node.kind = .error := by
  unfold unread at h
  obtain ⟨_, _, hstate, hrun⟩ := bind_run.1 h
  cases hstate
  obtain ⟨_, _, hsize, hrun⟩ := bind_run.1 hrun
  cases hsize
  split at hrun
  . next hunread =>
    obtain ⟨span, _, hspan, hrun⟩ := bind_run.1 hrun
    cases hrun
    refine ⟨spanBetween_run hspan, fun hrunning => ?_, List.forall_mem_singleton.2 rfl⟩
    simp [hrunning] at hunread
  . cases hrun
    exact ⟨rfl, fun _ => rfl, List.forall_mem_nil _⟩

/-! ### Behind a line -/

/-- The parse of the text behind a finished line, by itself and by the parse that has come to the
end of the line. Nothing need be known of the comments. -/
def afterLine {before : List Char} {inner outer : Env}
    (hbehind : inner.source.Behind before outer.source) (hoptions : outer.options = inner.options)
    (hcancelled : outer.cancelled = inner.cancelled) (hlimit : outer.options.maxStatements = none)
    (s : State) : Embedding where
  before := before
  inner := inner
  outer := outer
  behind := hbehind
  reports := s.diagnostics
  boundaries := s.boundaries
  maxDepth_le := Nat.le_of_eq (by rw [hoptions])
  statements_le := by simp [hlimit]
  cancelled_eq := hcancelled
  Logs _ _ := True
  insertAll _ _ _ _ := trivial
  toDepthRelation := .same

theorem EndsLine.report_eq {E : Embedding} {diagnostic : Diagnostic} (hline : EndsLine E.before)
    (h : diagnostic.Sound E.inner) : E.report diagnostic = diagnostic.behind E.before := by
  unfold Embedding.report
  rw [Embedding.width, hline.lineColumn_eq E.behind, ← h.position_eq]
  rfl

theorem endsLine_of_spells {before : List Char} {inner outer : Source} {start : Nat}
    (htext : outer.text.toList = before ++ inner.text.toList)
    (h : outer.Spells start (byteLength before) ['\n']) : EndsLine before := by
  obtain ⟨front, after, hfront, hstart, hstop⟩ := h
  refine .inr ⟨front, ?_⟩
  rw [htext] at hfront
  apply (eq_of_append_eq_append hfront _).1
  rw [byteLength_append, hstart, hstop]

theorem state_of_atLineEnd {E : Embedding} (hreached : Reached env {} s)
    (hline : AtLineEnd env line s) (hstop : line.span.stop = E.width)
    (hreports : E.reports = s.diagnostics) (hboundaries : E.boundaries = s.boundaries) :
    E.state {} ⟨s.comments, 0⟩ = s := by
  obtain ⟨pos, modes, flags, inBacktick, pending, diagnostics, depth, boundaries, halted, log⟩ := s
  have hpos : 0 + E.width = pos := by
    rw [Nat.zero_add, ← hstop]
    exact hline.pos_eq.symm
  unfold Embedding.state
  rw [State.mk.injEq]
  exact ⟨hpos, hreached.modes_eq.symm, hreached.flags_eq.symm, hreached.inBacktick_eq.symm,
    hline.pending_eq.symm, by simpa using hreports, hreached.depth_eq.symm,
    by simpa using hboundaries, hline.running.symm, rfl⟩

/-- The list at the top of the outer script goes on behind the line as the script by itself. -/
theorem statements_after_line {level level' fuel : Nat} {ctx : ListContext}
    (hlevel : level ≤ level') {own : Apart} (hstate : E.state {} own = s) (hown : E.Pairs {} own)
    (hinner : statements (nested level) ctx E.inner {} = .ok (nodes, s'))
    (hrunning : s'.halted = false) (hfuel : fuel ≤ E.outer.source.size + 3)
    (houter : listFrom (nested level') ctx fuel E.outer s = .ok (rest, s₁)) :
    rest = moved E.width nodes ∧ ∃ own', E.Pairs s' own' ∧ s₁ = E.state s' own' := by
  have hcarries := statements_carries (nested_carried (E := E) hlevel) ctx
  obtain ⟨own', hown', hrun⟩ := hcarries.run {} nodes s' hinner (.inr hrunning) own hown
  -- the outer list was read with less fuel, as it had taken parts before
  have hrun' := repeatUpTo_mono houter hfuel
  rw [hstate] at hrun
  cases hrun.symm.trans hrun'
  exact ⟨rfl, own', hown', rfl⟩

/-- The reports after the list and what a halted parse has not read: the outer script ends as the
script by itself does. -/
theorem end_after_line {own : Apart} (hown : E.Pairs s own)
    (hreported : reportPending E.inner s = .ok (⟨⟩, s₁)) (hrunning : s₁.halted = false)
    (houter : reportPending E.outer (E.state s own) = .ok (⟨⟩, s₂))
    (hrest : unread E.outer s₂ = .ok (rest, s')) :
    rest = [] ∧ s'.diagnostics = E.reports ++ s₁.diagnostics.map E.report := by
  obtain ⟨own', _, hrun⟩ := reportPending_carries.run s ⟨⟩ s₁ hreported (.inr hrunning) own hown
  cases hrun.symm.trans houter
  obtain ⟨rfl, hnone, _⟩ := unread_run hrest
  exact ⟨hnone hrunning, rfl⟩

theorem exists_of_append_eq (heq : nodes ++ rest = front ++ line :: back) (hline : IsLineEnd line)
    (hrest : ∀ node ∈ rest, node.kind = .error) :
    ∃ more, nodes = front ++ line :: more ∧ back = more ++ rest := by
  have hnot : line ∉ rest := fun hmem => not_isLineEnd_of_isError (hrest line hmem) hline
  obtain ⟨more, _, hmore⟩ | ⟨found, hfound, hmore⟩ := List.append_eq_append_iff.1 heq
  . simp [hmore] at hnot
  . cases found with
    | nil => simp [show rest = line :: back from hmore.symm] at hnot
    | cons first more =>
      rw [List.cons_append, List.cons.injEq] at hmore
      obtain ⟨rfl, rfl⟩ := hmore
      exact ⟨more, hfound, rfl⟩

theorem script_after_line {inner outer : Env} {before : List Char} {root' : Node} {final : State}
    (h : script outer {} = .ok (root, s')) (hinner : script inner {} = .ok (root', final))
    (htext : outer.source.text.toList = before ++ inner.source.text.toList)
    (hoptions : outer.options = inner.options) (hcancelled : outer.cancelled = inner.cancelled)
    (hlimit : outer.options.maxStatements = none) (hrunning : final.halted = false)
    (hsound : ∀ diagnostic ∈ final.diagnostics, diagnostic.Sound inner)
    (hchildren : root.children = front ++ line :: back) (hline : IsLineEnd line)
    (hstop : line.span.stop = byteLength before)
    (hback : ∀ node ∈ back.head?, node.kind ≠ .heredocBody) :
    back = moved (byteLength before) root'.children ∧
      ∃ reports, s'.diagnostics = reports ++ final.diagnostics.map (Diagnostic.behind before) := by
  obtain ⟨nodes, rest, s₁, s₂, heq, hnodes, hreported, hrest⟩ := script_run h
  obtain ⟨nodes', rest', s₁', s₂', heq', hnodes', hreported', hrest'⟩ := script_run hinner
  obtain ⟨rfl, hnone, _⟩ := unread_run hrest'
  obtain ⟨_, _, herrors⟩ := unread_run hrest
  obtain ⟨more, hfound, hmore⟩ := exists_of_append_eq (heq.symm.trans hchildren) hline herrors
  have hbody : ∀ node ∈ more.head?, node.kind ≠ .heredocBody := by
    intro node hnode
    apply hback node
    rw [hmore, List.head?_append, hnode]
    rfl
  have hwithin : Within outer (outer.source.size + 2) 2 {} :=
    ⟨⟨by simp, by simp⟩, sound_initial outer⟩
  obtain ⟨fuel, hfuel, s, hreached, hends, hspells, hlist⟩ :=
    listFrom_split (nested_fits outer (outer.source.size + 1)) hwithin rfl
      (hfound ▸ hnodes) hline hbody
  rw [hstop] at hspells
  have hends' := endsLine_of_spells htext hspells
  have hbehind := hends'.behind htext
  have hlevel : inner.source.size + 1 ≤ outer.source.size + 1 := by
    rw [hbehind.size_eq]
    omega
  let E := afterLine hbehind hoptions hcancelled hlimit s
  have hrunning₁ : s₁'.halted = false :=
    (reportPending_carries (E := E)).running hreported' hrunning
  have hstate : E.state {} ⟨s.comments, 0⟩ = s := state_of_atLineEnd hreached hends hstop rfl rfl
  obtain ⟨rfl, own, hown, rfl⟩ :=
    statements_after_line hlevel hstate ⟨trivial, rfl⟩ hnodes' hrunning₁ hfuel hlist
  obtain ⟨rfl, hreports⟩ := end_after_line hown hreported' hrunning hreported hrest
  have hreport := fun diagnostic hmem =>
    EndsLine.report_eq (E := E) hends' (hsound diagnostic hmem)
  rw [List.map_congr_left hreport] at hreports
  rw [hmore, List.append_nil, heq', hnone hrunning, List.append_nil]
  exact ⟨rfl, s.diagnostics, hreports⟩

end Grammar

/-! ### Main results -/

open Parse Grammar

variable {options : Options} {token : Option Bool} {tree rest : Tree} {before after : String}
variable {front back : List Node} {line : Node}

theorem IsParse.withoutComments_children {env : Env} {bare : Node} {final : State}
    (h : IsParse env bare final tree) :
    tree.root.withoutComments.children = Node.withoutCommentsAll bare.children := by
  rw [Node.withoutComments_children, h.addsComments.withoutCommentsAll_eq]

/-- What follows a finished line is read as it is by itself: the nodes and reports of the rest of
the script are its own, moved behind the line. -/
theorem parse_after_line (h : parse (.ofString (before ++ after)) options token = .ok tree)
    (hrest : parse (.ofString after) options token = .ok rest)
    (hlimit : options.maxStatements = none)
    (hrunning : ∀ diagnostic ∈ rest.diagnostics, diagnostic.kind.isFinal = false)
    (hchildren : tree.root.withoutComments.children = front ++ line :: back)
    (hline : line.kind = .token "\n") (hstop : line.span.stop = before.utf8ByteSize)
    (hback : ∀ node ∈ back.head?, node.kind ≠ .heredocBody) :
    back = moved before.utf8ByteSize rest.root.withoutComments.children ∧
      ∃ reports, tree.diagnostics =
        reports ++ rest.diagnostics.map (Diagnostic.behind before.toList) := by
  rw [utf8ByteSize_eq_byteLength] at hstop ⊢
  have htext : (Source.ofString (before ++ after)).text.toList =
      before.toList ++ (Source.ofString after).text.toList := String.toList_append
  obtain ⟨bare, final, hscript, hparse⟩ := isParse_of_parse h
  obtain ⟨bare', final', hscript', hparse'⟩ := isParse_of_parse hrest
  rw [hparse.withoutComments_children] at hchildren
  obtain ⟨front', line', back', hbare, rfl, rfl⟩ := Node.exists_of_withoutCommentsAll hchildren
  rw [Node.withoutComments_kind] at hline
  rw [Node.withoutComments_span] at hstop
  rw [hparse'.diagnostics_eq] at hrunning
  obtain ⟨rfl, reports, hreports⟩ :=
    script_after_line hscript hscript' htext rfl rfl hlimit (hparse'.running hrunning)
      hparse'.sound.reports hbare hline hstop (Node.head_withoutCommentsAll hback)
  refine ⟨?_, reports, ?_⟩
  . rw [Node.withoutCommentsAll_moved, hparse'.withoutComments_children]
  . rw [hparse.diagnostics_eq, hparse'.diagnostics_eq, hreports]

theorem parse_after_line_comment :
    ∃ tree rest, parse (.ofString ("a\n" ++ "b # c\n")) { maxStatements := none } = .ok tree ∧
      parse (.ofString "b # c\n") { maxStatements := none } = .ok rest ∧ ∃ front,
        tree.root.withoutComments.children =
          front ++ moved 2 rest.root.withoutComments.children := by
  have hrest : (parse (.ofString "b # c\n") { maxStatements := none }).toOption.map
      (·.diagnostics) = some [] := by
    decide +kernel
  have htree : (parse (.ofString ("a\n" ++ "b # c\n")) { maxStatements := none }).toOption.map
      (·.root.withoutComments.children) = some
        ([⟨.command, .ofWidth 0 1, [⟨.commandName, .ofWidth 0 1, [.leaf .word (.ofWidth 0 1)]⟩]⟩] ++
          .leaf (.token "\n") (.ofWidth 1 1) ::
          [⟨.command, .ofWidth 2 1, [⟨.commandName, .ofWidth 2 1, [.leaf .word (.ofWidth 2 1)]⟩]⟩,
            .leaf (.token "\n") (.ofWidth 7 1)]) := by
    decide +kernel
  obtain ⟨rest, hrest, hreports⟩ := exists_of_map hrest
  obtain ⟨tree, htree, hchildren⟩ := exists_of_map htree
  have hafter := parse_after_line htree hrest rfl (by simp [hreports]) hchildren rfl rfl (by simp)
  rw [hafter.1] at hchildren
  exact ⟨tree, rest, htree, hrest, _, hchildren.trans (List.append_cons _ _ _)⟩

end ShellTree
