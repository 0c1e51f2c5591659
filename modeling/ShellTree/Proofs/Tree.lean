import ShellTree.Proofs.Traversal

/-!
This module contains what a tree says about its source when its nodes tile it: the leaves with the
gaps between them spell the source, and the gaps are trivia.
-/

namespace ShellTree

variable {src : Source} {comments : List Span} {start stop : Nat} {leaves nodes : List Node}

theorem Skips.exists_trivia (h : Skips src [] start stop) :
    ∃ cs, src.Spells start stop cs ∧ Trivia.isTrivia cs := by
  induction h with
  | done h => exact ⟨[], h, rfl⟩
  | trivia hspells htrivia _ ih =>
    obtain ⟨cs, hcs, hrest⟩ := ih
    exact ⟨_, hspells.append hcs, Trivia.isTrivia_append htrivia hrest⟩
  | comment hmem _ _ _ => simp at hmem

namespace Tree

/-! ### The text -/

theorem gapText?_eq {cs : List Char} (h : src.Spells start stop cs) :
    gapText? src start stop = some (String.ofList cs) := by
  unfold gapText?
  split
  . exact h.slice?
  . next hlt =>
    have hcs : cs = [] := by
      cases cs with
      | nil => rfl
      | cons c cs => exact absurd (h.lt (by simp)) hlt
    rw [hcs]

theorem reconstructFrom?_eq (h : Tiles src comments leaves start src.size)
    (hleaves : ∀ leaf ∈ leaves, leaf.isLeaf) {cs : List Char}
    (hcs : src.Spells start src.size cs) :
    reconstructFrom? src start leaves = some (String.ofList cs) := by
  induction leaves generalizing start cs with
  | nil => exact gapText?_eq hcs
  | cons leaf leaves ih =>
    obtain ⟨hgap, hleaf, hrest⟩ := tiles_cons.1 h
    simp only [List.mem_cons, forall_eq_or_imp] at hleaves
    obtain ⟨before, hbefore⟩ := hgap.left.exists_spells hgap.right hgap.le
    obtain ⟨text, htext⟩ := (Node.fits_of_isLeaf hleaves.1).1 hleaf
    obtain ⟨rest, hspells⟩ := hrest.left.exists_spells hrest.right hrest.le
    have hall := hcs.unique (hbefore.append (htext.append hspells))
    rw [reconstructFrom?, gapText?_eq hbefore, ih hrest hleaves.2 hspells]
    unfold Node.text? Source.textOf?
    rw [htext.slice?, hall]
    simp [String.ofList_append, String.append_assoc]

/-! ### The gaps -/

theorem gapBetween_trivia (h : Skips src [] start stop) : ∀ gap ∈ gapBetween start stop,
    ∃ cs, src.Spells gap.start gap.stop cs ∧ Trivia.isTrivia cs := by
  intro gap hgap
  unfold gapBetween at hgap
  split at hgap
  . rw [List.mem_singleton] at hgap
    rw [hgap]
    exact h.exists_trivia
  . simp at hgap

theorem gapsFrom_trivia (h : Tiles src [] leaves start src.size) :
    ∀ gap ∈ gapsFrom src.size start leaves,
      ∃ cs, src.Spells gap.start gap.stop cs ∧ Trivia.isTrivia cs := by
  induction leaves generalizing start with
  | nil => exact gapBetween_trivia (tiles_nil.1 h)
  | cons leaf leaves ih =>
    obtain ⟨hgap, _, hrest⟩ := tiles_cons.1 h
    -- the leaves do not overlap, so that the covered offset is the end of the last of them
    have hcovered : max start leaf.span.stop = leaf.span.stop := by
      have := hgap.le
      have := leaf.span.start_le_stop
      omega
    intro gap hmem
    rw [gapsFrom, List.mem_append, hcovered] at hmem
    cases hmem with
    | inl hmem => exact gapBetween_trivia hgap gap hmem
    | inr hmem => exact ih hrest gap hmem

end Tree

/-! ### The spans -/

namespace Tiles

theorem within (h : Tiles src comments nodes start stop) :
    ∀ node ∈ nodes, start ≤ node.span.start ∧ node.span.stop ≤ stop := by
  induction nodes generalizing start with
  | nil => simp
  | cons node nodes ih =>
    obtain ⟨hgap, _, hrest⟩ := tiles_cons.1 h
    have := hgap.le
    have := node.span.start_le_stop
    have := hrest.le
    simp only [List.mem_cons, forall_eq_or_imp]
    refine ⟨by omega, ?_⟩
    intro later hlater
    have := ih hrest later hlater
    omega

theorem pairwise (h : Tiles src comments nodes start stop) :
    nodes.Pairwise fun node later => node.span.stop ≤ later.span.start := by
  induction nodes generalizing start with
  | nil => exact .nil
  | cons node nodes ih =>
    have hrest := (tiles_cons.1 h).2.2
    exact .cons (fun later hlater => (hrest.within later hlater).1) (ih hrest)

end Tiles

mutual

theorem Node.Fits.of_mem_preorder {src : Source} {comments : List Span} {descendant : Node} :
    {node : Node} → node.Fits src comments → descendant ∈ node.preorder →
      descendant.Fits src comments
  | ⟨kind, span, []⟩, h, hmem => by
    rw [Node.preorder, Node.preorderAll, List.mem_singleton] at hmem
    exact hmem ▸ h
  | ⟨kind, span, child :: children⟩, h, hmem => by
    rw [Node.preorder, List.mem_cons] at hmem
    cases hmem with
    | inl hmem => exact hmem ▸ h
    | inr hmem =>
      rw [Node.Fits] at h
      exact h.1.of_mem_preorderAll hmem

theorem Tiles.of_mem_preorderAll {src : Source} {comments : List Span} {descendant : Node} :
    {nodes : List Node} → {start stop : Nat} → Tiles src comments nodes start stop →
      descendant ∈ Node.preorderAll nodes → descendant.Fits src comments
  | [], _, _, _, hmem => by simp [Node.preorderAll] at hmem
  | node :: nodes, _, _, h, hmem => by
    obtain ⟨_, hnode, hrest⟩ := tiles_cons.1 h
    rw [Node.preorderAll, List.mem_append] at hmem
    cases hmem with
    | inl hmem => exact hnode.of_mem_preorder hmem
    | inr hmem => exact hrest.of_mem_preorderAll hmem

end

theorem Node.Fits.child {node child : Node} (h : node.Fits src comments)
    (hchild : child ∈ node.children) : child.Fits src comments :=
  ((Node.fits_of_ne_nil (List.ne_nil_of_mem hchild)).1 h).1.of_mem_preorderAll
    (Node.mem_preorderAll_of_mem hchild)

structure Node.IsOrdered (node : Node) : Prop where
  pairwise : node.children.Pairwise fun child later => child.span.stop ≤ later.span.start
  within : ∀ child ∈ node.children,
    node.span.start ≤ child.span.start ∧ child.span.stop ≤ node.span.stop
  tight : node.kind ≠ .program → node.kind ≠ .heredocBody → node.IsTight

theorem Node.Fits.isOrdered {node : Node} (h : node.Fits src comments) : node.IsOrdered := by
  by_cases hne : node.children = []
  . constructor
    . simp [hne]
    . simp [hne]
    . intro _ _
      simp [Node.IsTight, hne]
  . obtain ⟨htiles, htight⟩ := (Node.fits_of_ne_nil hne).1 h
    refine ⟨htiles.pairwise, htiles.within, ?_⟩
    intro hprogram hbody
    apply htight.resolve_left
    unfold NodeKind.hasMargins
    split <;> simp_all

end ShellTree
