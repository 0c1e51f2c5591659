import ShellTree.Proofs.Frame.Statement
import ShellTree.Proofs.Line

/-!
This module contains what the limits of a parse decide. A limit that is not hit changes nothing, so
that greater limits have the same result, and the limit on the nesting bounds how deep the tree is.
-/

namespace ShellTree

/-- The limits of the first options are no greater. No limit on the statements is the greatest. -/
structure Options.IsWithin (options options' : Options) : Prop where
  maxDepth : options.maxDepth ≤ options'.maxDepth
  maxStatements : ∀ limit' ∈ options'.maxStatements, ∃ limit ∈ options.maxStatements,
    limit ≤ limit'

theorem Options.IsWithin.of_eq {options options' : Options} (h : options' = options) :
    options.IsWithin options' := by
  subst h
  exact ⟨Nat.le_refl _, fun limit hlimit => ⟨limit, hlimit, Nat.le_refl _⟩⟩

/-! ### What is not moved -/

theorem moved_zero_list {α : Type} [Moves α] (h : ∀ a : α, moved 0 a = a) (as : List α) :
    moved 0 as = as := List.map_id'' h as

mutual

theorem Node.moved_zero : (node : Node) → moved 0 node = node
  | ⟨kind, span, children⟩ => by
    rw [Node.moved_mk, Node.moved_zero_all children]
    rfl

theorem Node.moved_zero_all : (nodes : List Node) → moved 0 nodes = nodes
  | [] => rfl
  | node :: nodes => by rw [moved_cons, Node.moved_zero node, Node.moved_zero_all nodes]

end

theorem Diagnostic.behind_nil (diagnostics : List Diagnostic) :
    diagnostics.map (behind []) = diagnostics := List.map_id'' (fun _ => rfl) diagnostics

namespace Grammar

open Parse

variable {src : Source} {options options' : Options}

/-! ### Cancelled parses -/

/-- Where a cancelled parse has come to when it stops: it has read nothing. -/
def cancelledState (src : Source) : State where
  halted := true
  diagnostics := [⟨.parseCancelled, ⟨0, src.size, Nat.zero_le _⟩, (src.lineColumn 0).1,
    (src.lineColumn 0).2⟩]

theorem statements_cancelled (inner : Nested) (ctx : ListContext) :
    statements inner ctx ⟨src, options, true⟩ {} = .ok ([], cancelledState src) := rfl

theorem unread_cancelled : unread ⟨src, options, true⟩ (cancelledState src) =
    .ok (if 0 < src.size then [.leaf .error ⟨0, src.size, Nat.zero_le _⟩] else [],
      cancelledState src) := by
  refine bind_run.2 ⟨cancelledState src, cancelledState src, rfl, ?_⟩
  refine bind_run.2 ⟨src, cancelledState src, rfl, ?_⟩
  have hhalted : (cancelledState src).halted = true := rfl
  have hpos : (cancelledState src).pos = 0 := rfl
  by_cases hsize : 0 < src.size
  . simp only [hhalted, hpos, hsize, decide_true, Bool.and_true, if_true]
    rfl
  . simp only [hhalted, hpos, hsize, decide_false, Bool.and_false, if_false]
    rfl

/-- A cancelled parse stops before the first statement, so that it comes to no limit. -/
theorem script_cancelled : script ⟨src, options, true⟩ {} =
    .ok (⟨.program, ⟨0, src.size, Nat.zero_le _⟩,
      if 0 < src.size then [.leaf .error ⟨0, src.size, Nat.zero_le _⟩] else []⟩,
      cancelledState src) := by
  refine bind_run.2 ⟨src, {}, rfl, ?_⟩
  refine bind_run.2 ⟨[], cancelledState src, statements_cancelled _ _, ?_⟩
  refine bind_run.2 ⟨⟨⟩, cancelledState src, rfl, ?_⟩
  exact bind_run.2 ⟨_, cancelledState src, unread_cancelled, rfl⟩

/-! ### Greater limits -/

theorem script_carries {E : Embedding} (hbefore : E.before = []) : Carries E script script := by
  have hsize : E.outer.source.size = E.inner.source.size := by
    rw [E.behind.size_eq, hbefore]
    rfl
  have hwidth : E.width = 0 := by
    rw [Embedding.width, hbefore]
    rfl
  apply carries_bind_source
  rw [hsize]
  apply ((nested_carried (Nat.le_refl _)).statements { topLevel := true }).bind
  intro nodes
  apply reportPending_carries.bind
  intro _
  apply unread_carries.bind
  intro rest
  have hspan := spanBetween_carries (E := E) 0 E.inner.source.size
  rw [hwidth] at hspan
  apply hspan.bind
  intro span
  exact carries_pure (by simp [Node.moved_mk])

/-- The same text under other limits. -/
def sameText (src : Source) {options options' : Options} (c : Bool)
    (h : options.IsWithin options') : Embedding where
  before := []
  inner := ⟨src, options, c⟩
  outer := ⟨src, options', c⟩
  behind := ⟨rfl, .inl rfl⟩
  reports := []
  boundaries := 0
  maxDepth_le := h.maxDepth
  statements_le := h.maxStatements
  cancelled_eq := rfl
  Logs := Eq
  insertAll log log' comments hlogs := by
    rw [hlogs, show moved (byteLength []) comments = comments from
      moved_zero_list (fun _ => rfl) comments]
  toDepthRelation := .same

theorem script_within {c : Bool} {root : Node} {s' : State} (hwithin : options.IsWithin options')
    (h : script ⟨src, options, c⟩ {} = .ok (root, s')) (hrunning : s'.halted = false)
    (hsound : ∀ diagnostic ∈ s'.diagnostics, diagnostic.Sound ⟨src, options, c⟩) :
    ∃ s'', script ⟨src, options', c⟩ {} = .ok (root, s'') ∧ s''.comments = s'.comments ∧
      s''.diagnostics = s'.diagnostics := by
  let E := sameText src c hwithin
  obtain ⟨own, hown, hrun⟩ :=
    (script_carries (E := E) rfl).run {} root s' h (.inr hrunning) {} ⟨rfl, rfl⟩
  rw [show moved E.width root = root from Node.moved_zero root] at hrun
  refine ⟨E.state s' own, hrun, hown.logs.symm, ?_⟩
  have hreport := fun diagnostic hmem =>
    EndsLine.report_eq (E := E) (.inl rfl) (hsound diagnostic hmem)
  calc s'.diagnostics.map E.report
    _ = s'.diagnostics.map (Diagnostic.behind []) := List.map_congr_left hreport
    _ = s'.diagnostics := Diagnostic.behind_nil _

end Grammar

/-! ### Parses with tokens -/

/-- The tree of a parse that its caller has cancelled before it starts. -/
def Tree.cancelled (src : Source) : Tree where
  source := src
  root := ⟨.program, ⟨0, src.size, Nat.zero_le _⟩,
    if 0 < src.size then [.leaf .error ⟨0, src.size, Nat.zero_le _⟩] else []⟩
  diagnostics := [⟨.parseCancelled, ⟨0, src.size, Nat.zero_le _⟩, 1, 1⟩]

theorem Source.lineColumn_zero (src : Source) : src.lineColumn 0 = (1, 1) := by
  unfold lineColumn
  cases src.text.toList <;> simp [lineColumn.go]

theorem parse_cancelled (src : Source) (options : Options) :
    parse src options (some true) = .ok (.cancelled src) := by
  rw [parse_eq, Option.getD_some, Grammar.script_cancelled]
  simp only [Grammar.cancelledState, Source.lineColumn_zero, Tree.cancelled]
  rfl

theorem parse_uncancelled (src : Source) (options : Options) :
    parse src options (some false) = parse src options none := rfl

/-! ### Main results -/

open Parse Grammar

variable {src : Source} {options options' : Options} {token : Option Bool} {tree : Tree}

namespace IsParse

variable {env : Env} {bare : Node} {final : State}

/-- A halt is reported. -/
theorem halted_eq_false (h : IsParse env bare final tree)
    (hscript : script env {} = .ok (bare, final)) (hcancelled : env.cancelled = false)
    (hlimits : ∀ error ∈ tree.errors, error.kind ≠ .limitExceeded) : final.halted = false := by
  refine Bool.eq_false_iff.2 fun hhalted => ?_
  have hframed := (script_frames env {} bare final hscript rfl).1
  obtain ⟨last, hlast, hkind⟩ := hframed.halts rfl hhalted
  rw [← h.diagnostics_eq] at hlast
  have hmem : last.record ∈ tree.errors :=
    List.mem_map_of_mem (List.mem_of_getLast? (Option.mem_def.1 hlast))
  obtain hkind | ⟨_, hcancelled'⟩ := hkind
  . exact hlimits _ hmem hkind
  . simp [hcancelled] at hcancelled'

/-- Comments take no levels, and neither does the root. -/
theorem levels_eq (h : IsParse env bare final tree) :
    tree.root.levels = Node.levelsAll bare.children := by
  rw [Node.levels_eq, h.addsComments.levelsAll_eq, h.root_eq, h.kind_eq]
  exact Nat.zero_add _

end IsParse

/-- A limit that is not hit changes nothing. -/
theorem parse_of_isWithin (h : parse src options token = .ok tree)
    (hwithin : options.IsWithin options')
    (hlimits : ∀ error ∈ tree.errors, error.kind ≠ .limitExceeded) :
    parse src options' token = .ok tree := by
  obtain ⟨bare, final, hscript, hparse⟩ := isParse_of_parse h
  suffices hscript' : ∃ final', script ⟨src, options', token.getD false⟩ {} = .ok (bare, final') ∧
      final'.comments = final.comments ∧ final'.diagnostics = final.diagnostics by
    obtain ⟨final', hscript', hcomments, hdiagnostics⟩ := hscript'
    rw [parse_eq, hscript] at h
    rw [parse_eq, hscript', ← h]
    simp only [hcomments, hdiagnostics]
  cases hcancelled : token.getD false with
  | true =>
    rw [hcancelled, script_cancelled] at hscript
    cases hscript
    exact ⟨_, script_cancelled, rfl, rfl⟩
  | false =>
    have hrunning := hparse.halted_eq_false hscript hcancelled hlimits
    rw [hcancelled] at hscript
    exact script_within hwithin hscript hrunning (hcancelled ▸ hparse.sound.reports)

theorem parse_of_isWithin_unclosed :
    ∃ tree, parse (.ofString "(a") { maxDepth := 3, maxStatements := some 9 } = .ok tree ∧
      (∃ error ∈ tree.errors, error.kind = .unterminatedConstruct) ∧
      parse (.ofString "(a") { maxDepth := 200, maxStatements := none } = .ok tree := by
  have hkinds : (parse (.ofString "(a") { maxDepth := 3, maxStatements := some 9 }).toOption.map
      (·.errors.map (·.kind)) = some [.unterminatedConstruct] := by decide +kernel
  obtain ⟨tree, htree, hkinds⟩ := exists_of_map hkinds
  have hkind (kind : ErrorKind) (hkind : kind ∈ tree.errors.map (·.kind)) :
      kind = .unterminatedConstruct := by simpa [hkinds] using hkind
  refine ⟨tree, htree, List.mem_map.1 (by simp [hkinds]), ?_⟩
  refine parse_of_isWithin htree ⟨by decide, by simp⟩ fun error hmem heq => ?_
  cases (hkind _ (List.mem_map_of_mem hmem)).symm.trans heq

/-- On the way from the root to a leaf there are no more constructs that take a level than the limit
on the nesting says. -/
theorem parse_levels {path : List Node} (h : parse src options token = .ok tree)
    (hpath : tree.root.IsPath path) : path.countP (·.kind.takesLevel) ≤ options.maxDepth := by
  obtain ⟨bare, final, hscript, hparse⟩ := isParse_of_parse h
  have hshallow := (script_frames _ {} bare final hscript rfl).2 (Nat.zero_le _)
  calc path.countP (·.kind.takesLevel)
    _ ≤ tree.root.levels := hpath.countP_le
    _ = Node.levelsAll bare.children := hparse.levels_eq
    _ ≤ bare.levels := by rw [Node.levels_eq]; exact Nat.le_add_left _ _
    _ ≤ options.maxDepth := by simpa [nodesOf, Node.levelsAll] using hshallow

theorem parse_levels_nesting :
    ∃ tree path, parse (.ofString "( ( a") { maxDepth := 2 } = .ok tree ∧
      tree.root.IsPath path ∧ path.countP (·.kind.takesLevel) = 2 := by
  have hany : (parse (.ofString "( ( a") { maxDepth := 2 }).toOption.map (fun tree =>
      tree.root.children.any fun outer => outer.kind.takesLevel && outer.children.any fun inner =>
        inner.kind.takesLevel && inner.children.any (·.isLeaf)) = some true := by decide +kernel
  obtain ⟨tree, htree, hany⟩ := exists_of_map hany
  simp only [List.any_eq_true, Bool.and_eq_true] at hany
  obtain ⟨outer, houter, houterLevel, inner, hinner, hinnerLevel, leaf, hleaf, hisLeaf⟩ := hany
  have hpath : tree.root.IsPath [tree.root, outer, inner, leaf] :=
    .step houter (.step hinner (.step hleaf (.leaf hisLeaf)))
  have hle := parse_levels htree hpath
  refine ⟨tree, _, htree, hpath, Nat.le_antisymm hle ?_⟩
  simp only [List.countP_cons, houterLevel, hinnerLevel, if_true]
  omega

end ShellTree
