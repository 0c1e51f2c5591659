import ShellTree.Proofs.Closing
import ShellTree.Proofs.Commented

/-!
This module contains what is left of a text after the comments are attached: all of it. Between
nodes that abut there is no place for a comment, so that strings and the bodies of here-documents
stay filled.
-/

namespace ShellTree
namespace Node

variable {src : Source} {comments more more' : List Span} {nodes nodes' : List Node}
variable {node node' : Node} {start stop offset : Nat}

/-! ### Nodes that abut -/

/-- There is no place for a comment between nodes that abut. -/
theorem AddsComments.pairs_of_abuts (h : AddsComments comments nodes nodes')
    (hcomments : ∀ c ∈ comments, c.start < c.stop) (htiles : Tiles src more nodes' start stop)
    (habuts : Abuts start nodes stop) : List.Forall₂ (Commented comments) nodes nodes' := by
  induction h generalizing start with
  | nil => exact .nil
  | @comment c nodes nodes' hmem hrest _ =>
    obtain ⟨hgap, _, htiles⟩ := tiles_cons.1 htiles
    have hlt := hcomments c hmem
    have hstart : start ≤ c.start := hgap.le
    cases nodes with
    | nil =>
      have hempty : start = stop := habuts
      have hstop : c.stop ≤ stop := htiles.le
      omega
    | cons node nodes =>
      obtain ⟨node', hnode', hcommented⟩ := hrest.exists_commented List.mem_cons_self
      have hstop : c.stop ≤ node'.span.start := (htiles.within node' hnode').1
      rw [hcommented.span_eq, habuts.1] at hstop
      omega
  | leaf _ ih => exact .cons commented_leaf (ih (tiles_cons.1 htiles).2.2 habuts.2)
  | inner hne hchildren _ _ ih =>
    exact .cons (commented_inner hne hchildren) (ih (tiles_cons.1 htiles).2.2 habuts.2)

namespace Abuts

theorem commented (h : Abuts start nodes stop)
    (hpairs : List.Forall₂ (Commented comments) nodes nodes') : Abuts start nodes' stop := by
  induction hpairs generalizing start with
  | nil => exact h
  | cons hnode _ ih =>
    obtain ⟨hstart, hrest⟩ := h
    exact ⟨by rw [hnode.span_eq, hstart], ih (by rwa [hnode.span_eq])⟩

theorem exists_last (h : Abuts start nodes stop) (hne : nodes ≠ []) :
    ∃ last ∈ nodes.getLast?, last.span.stop = stop := by
  induction nodes generalizing start with
  | nil => contradiction
  | cons node nodes ih =>
    cases nodes with
    | nil => exact ⟨node, rfl, h.2⟩
    | cons next nodes =>
      rw [List.getLast?_cons_cons]
      exact ih h.2 (by simp)

/-- Nodes that abut in a node without margins reach from its start to its stop. -/
theorem of_isTight (h : Abuts start node.children stop) (htight : node.IsTight)
    (hne : node.children ≠ []) : start = node.span.start ∧ stop = node.span.stop := by
  obtain ⟨first, rest, hchildren⟩ := List.exists_cons_of_ne_nil hne
  obtain ⟨last, hlast, hstop⟩ := h.exists_last hne
  rw [htight.2 last hlast, htight.1 first (by simp [hchildren])]
  rw [hchildren] at h
  exact ⟨h.1.symm, hstop.symm⟩

/-- Between the start and the stop nothing is left out. -/
theorem exists_covering (h : Abuts start nodes stop) (hstart : start ≤ offset)
    (hstop : offset < stop) :
    ∃ node ∈ nodes, node.span.start ≤ offset ∧ offset < node.span.stop := by
  induction nodes generalizing start with
  | nil =>
    obtain rfl : start = stop := h
    omega
  | cons node nodes ih =>
    obtain ⟨rfl, hrest⟩ := h
    by_cases hlt : offset < node.span.stop
    . exact ⟨node, by simp, hstart, hlt⟩
    . obtain ⟨later, hlater, hcovers⟩ := ih hrest (Nat.le_of_not_lt hlt)
      exact ⟨later, List.mem_cons_of_mem _ hlater, hcovers⟩

end Abuts

/-! ### Fillings -/

theorem Fills.commented (h : Fills start nodes stop)
    (hpairs : List.Forall₂ (Commented comments) nodes nodes') : Fills start nodes' stop := by
  obtain ⟨habuts, hcontent⟩ := h
  refine ⟨habuts.commented hpairs, ?_⟩
  clear habuts
  induction hpairs with
  | nil => exact hcontent
  | cons hnode _ ih =>
    rw [List.forall_mem_cons] at hcontent ⊢
    refine ⟨fun hempty => ?_, ih hcontent.2⟩
    rw [hnode.kind_eq]
    exact hcontent.1 (by_contra fun hne => hnode.adds.ne_nil hne hempty)

/-- Strings and the bodies of here-documents are filled from their start to their stop. -/
theorem IsFilled.fills (h : node.IsFilled) (hfits : node.Fits src more)
    (hkind : node.kind = .string ∨ node.kind = .heredocBody) :
    Fills node.span.start node.children node.span.stop := by
  unfold IsFilled at h
  obtain hstring | hbody := hkind
  . rw [hstring] at h
    obtain ⟨⟨first, hfirst, _⟩, start, stop, hfills⟩ := h
    have hne : node.children ≠ [] := List.ne_nil_of_mem (List.mem_of_mem_head? hfirst)
    have htight := ((fits_of_ne_nil hne).1 hfits).2.resolve_left (by rw [hstring]; decide)
    obtain ⟨rfl, rfl⟩ := hfills.abuts.of_isTight htight hne
    exact hfills
  . rw [hbody] at h
    exact h

theorem Attached.fills (h : Attached src comments more more' node node')
    (hfills : Fills node.span.start node.children node.span.stop) :
    Fills node'.span.start node'.children node'.span.stop := by
  rw [h.span_eq]
  by_cases hne : node.children = []
  . rwa [h.leaf hne, ← hne]
  . have htiles := ((fits_of_ne_nil (h.adds.ne_nil hne)).1 h.after).1
    rw [h.span_eq] at htiles
    exact hfills.commented (h.adds.pairs_of_abuts h.lt htiles hfills.abuts)

end Node
end ShellTree
