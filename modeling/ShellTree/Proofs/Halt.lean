import ShellTree.Proofs.Construct
import ShellTree.Proofs.Line

/-!
This module contains what a halt does to a parse: its report is the last one, and what the parse has
not read becomes an error at the end of the tree.
-/

namespace ShellTree

open Parse Grammar

variable {src : Source} {options : Options} {token : Option Bool} {tree : Tree}

theorem Parse.EndsParse.isFinal {env : Env} {kind : ErrorKind} (h : EndsParse env kind) :
    kind.isFinal = true := by
  obtain rfl | ⟨rfl, _⟩ := h <;> rfl

/-! ### What is not read -/

namespace Grammar

variable {env : Env} {s s' : State} {rest : List Node}

/-- A halted parse has come to the end, or what is left of the input is an error. -/
theorem unread_halted (h : unread env s = .ok (rest, s')) (hs : s.halted = true) :
    env.source.size ≤ s'.pos ∨
      ∃ span, rest = [.leaf .error span] ∧ span.stop = env.source.size := by
  unfold unread at h
  obtain ⟨_, _, hget, h⟩ := bind_run.1 h
  cases hget
  obtain ⟨_, _, hsrc, h⟩ := bind_run.1 h
  cases hsrc
  split at h
  . obtain ⟨span, _, hspan, h⟩ := bind_run.1 h
    cases h
    refine .inr ⟨span, rfl, ?_⟩
    unfold spanBetween Span.between at hspan
    split at hspan <;> cases hspan
    rfl
  . next hread =>
    cases h
    simp only [hs, Bool.true_and, decide_eq_true_eq, Nat.not_lt] at hread
    exact .inl hread

end Grammar

namespace Node.AddsComments

/-- Behind a leaf that is the last node there are comments only. -/
theorem last_leaf {comments : List Span} {nodes nodes' : List Node} {kind : NodeKind} {span : Span}
    (h : AddsComments comments (nodes ++ [.leaf kind span]) nodes') :
    ∃ front back, nodes' = front ++ .leaf kind span :: back ∧
      ∀ node ∈ back, ∃ c ∈ comments, node = .leaf .comment c := by
  generalize hlist : nodes ++ [.leaf kind span] = list at h
  induction h generalizing nodes with
  | nil => simp at hlist
  | comment _ _ ih =>
    obtain ⟨front, back, rfl, hback⟩ := ih hlist
    exact ⟨_ :: front, back, rfl, hback⟩
  | leaf hrest ih =>
    cases nodes with
    | nil =>
      cases hlist
      exact ⟨[], _, rfl, fun node hnode => by simpa using hrest.of_mem hnode⟩
    | cons node nodes =>
      obtain ⟨front, back, rfl, hback⟩ := ih (List.cons.inj hlist).2
      exact ⟨_ :: front, back, rfl, hback⟩
  | inner hchildren _ _ _ ih =>
    cases nodes with
    | nil =>
      cases hlist
      exact absurd rfl hchildren
    | cons node nodes =>
      obtain ⟨front, back, rfl, hback⟩ := ih (List.cons.inj hlist).2
      exact ⟨_ :: front, back, rfl, hback⟩

end Node.AddsComments

namespace IsParse

variable {env : Env} {bare : Node} {final : State}

/-- What has not been read stays the last node, as no comment fits behind it. -/
theorem getLast?_eq (h : IsParse env bare final tree) {nodes : List Node} {span : Span}
    (hchildren : bare.children = nodes ++ [.leaf .error span])
    (hstop : span.stop = env.source.size) :
    tree.root.children.getLast? = some (.leaf .error span) := by
  have hadds := h.addsComments
  rw [hchildren] at hadds
  obtain ⟨front, back, heq, hback⟩ := hadds.last_leaf
  have htiles := h.fits.tiles
  rw [h.source_eq] at htiles
  cases back with
  | nil => simp [heq]
  | cons node back =>
    obtain ⟨c, hc, rfl⟩ := hback node List.mem_cons_self
    have hlt := (h.sound.comments.comments c hc).start_lt_stop
    have hle := (htiles.within (.leaf .comment c) (by simp [heq])).2
    have hordered := htiles.pairwise
    rw [heq, List.pairwise_append, List.pairwise_cons] at hordered
    have hafter := hordered.2.1.1 _ List.mem_cons_self
    dsimp only [Node.leaf] at hle hafter
    omega

theorem ends (h : IsParse env bare final tree) (hscript : script env {} = .ok (bare, final))
    (hhalted : final.halted = true) :
    final.pos = env.source.size ∨ ∃ leaf ∈ tree.root.children.getLast?,
      leaf.kind = .error ∧ leaf.isLeaf ∧ leaf.span.stop = env.source.size := by
  obtain ⟨nodes, rest, _, s, hchildren, _, _, hrest⟩ := script_run hscript
  obtain ⟨rfl, _, _⟩ := unread_run hrest
  obtain hend | ⟨span, rfl, hstop⟩ := unread_halted hrest hhalted
  . exact .inl (Nat.le_antisymm h.sound.pos_le_size hend)
  . exact .inr ⟨_, h.getLast?_eq hchildren hstop, rfl, rfl, hstop⟩

theorem program_run (h : IsParse env bare final tree)
    (hscript : script env {} = .ok (bare, final)) :
    program env {} = .ok (tree.root, final) := by
  have hattach : tree.root = bare.attachComments final.comments.spans := by
    rw [h.root_eq, Node.attachComments_eq h.kind_eq h.contains]
  rw [hattach]
  exact bind_run.2 ⟨bare, final, hscript, rfl⟩

/-- Where a report has stopped the parse, it is the last one. -/
theorem errors_eq (h : IsParse env bare final tree)
    (hfinal : ∃ error ∈ tree.errors, error.kind.isFinal) :
    final.halted = true ∧ ∃ before last, tree.errors = before ++ [last] ∧
      last.kind.isFinal = true ∧ ∀ error ∈ before, error.kind.isFinal = false := by
  have herrors : tree.errors = final.diagnostics.map Diagnostic.record :=
    congrArg (List.map _) h.diagnostics_eq
  cases hs : final.halted with
  | true =>
    obtain ⟨before, last, hreports, hlast, hbefore⟩ := h.sound.halted hs
    refine ⟨rfl, before.map Diagnostic.record, last.record, by simp [herrors, hreports], hlast, ?_⟩
    rw [List.forall_mem_map]
    exact hbefore
  | false =>
    obtain ⟨error, hmem, hkind⟩ := hfinal
    rw [herrors, List.mem_map] at hmem
    obtain ⟨diagnostic, hdiagnostic, rfl⟩ := hmem
    have hnot : diagnostic.record.kind.isFinal = false := h.sound.running hs diagnostic hdiagnostic
    simp [hnot] at hkind

end IsParse

/-! ### Main results -/

/-- A parse halts once. Its report is the last one, whatever the constructs around go on to report,
and what is left of the input is covered. -/
theorem parse_halts (h : parse src options token = .ok tree) :
    tree.errors.countP (·.kind.isFinal) ≤ 1 ∧
    (∀ error ∈ tree.errors, error.kind.isFinal → tree.errors.getLast? = some error) ∧
    (∃ final, program ⟨src, options, token.getD false⟩ {} = .ok (tree.root, final) ∧
      ((∃ error ∈ tree.errors, error.kind.isFinal) →
        final.pos = src.size ∨ ∃ leaf ∈ tree.root.children.getLast?,
          leaf.kind = .error ∧ leaf.isLeaf ∧ leaf.span.stop = src.size)) ∧
    ∀ {level : Nat} {α : Type} {m : Parse α} {s s' : State} {a : α},
      IsConstruct (nested level) m → m ⟨src, options, token.getD false⟩ s = .ok (a, s') →
        (s.halted = true → s'.halted = true ∧ s'.diagnostics = s.diagnostics) ∧
        (s.halted = false → s'.halted = true →
          ∃ last ∈ s'.diagnostics.getLast?, last.kind.isFinal) := by
  obtain ⟨bare, final, hscript, hparse⟩ := isParse_of_parse h
  refine ⟨?_, ?_, ⟨final, hparse.program_run hscript, ?_⟩, ?_⟩
  . by_cases hfinal : ∃ error ∈ tree.errors, error.kind.isFinal
    . obtain ⟨_, before, last, heq, hlast, hbefore⟩ := hparse.errors_eq hfinal
      have hnone : before.countP (·.kind.isFinal) = 0 := by simpa [List.countP_eq_zero] using hbefore
      simp [heq, hnone, hlast]
    . have hnone : tree.errors.countP (·.kind.isFinal) = 0 := by
        simpa [List.countP_eq_zero] using hfinal
      omega
  . intro error hmem hkind
    obtain ⟨_, before, last, heq, _, hbefore⟩ := hparse.errors_eq ⟨error, hmem, hkind⟩
    rw [heq, List.mem_append, List.mem_singleton] at hmem
    obtain hearlier | rfl := hmem
    . simp [hbefore error hearlier] at hkind
    . simp [heq]
  . intro hfinal
    exact hparse.ends hscript (hparse.errors_eq hfinal).1
  . intro level α m s s' a hm hrun
    have hframed := hm.framed (nested_framed _ level) hrun
    refine ⟨hframed.halted, fun hs hs' => ?_⟩
    obtain ⟨last, hmem, hkind⟩ := hframed.halts hs hs'
    exact ⟨last, hmem, hkind.isFinal⟩

theorem parse_halts_nesting :
    ∃ tree error, parse (.ofString "( ( a") { maxDepth := 2 } = .ok tree ∧
      error.kind = .limitExceeded ∧ tree.errors.getLast? = some error := by
  have hany : (parse (.ofString "( ( a") { maxDepth := 2 }).toOption.map
      (·.errors.any (·.kind == .limitExceeded)) = some true := by decide +kernel
  obtain ⟨tree, htree, hany⟩ := exists_of_map hany
  obtain ⟨error, hmem, hkind⟩ := List.any_eq_true.1 hany
  rw [beq_iff_eq] at hkind
  exact ⟨tree, error, htree, hkind, (parse_halts htree).2.1 error hmem (by rw [hkind]; rfl)⟩

end ShellTree
