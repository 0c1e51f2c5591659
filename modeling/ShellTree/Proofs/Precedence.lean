import ShellTree.Proofs.Commented
import ShellTree.Proofs.Operand

/-!
This module contains what attached comments leave of the operands of an operator: comments are
separators, and the operands keep their kinds.
-/

namespace ShellTree

variable {src : Source} {comments more more' : List Span} {nodes nodes' : List Node}
variable {node node' : Node}

theorem Tier.Allows.of_kind {tier : Tier} (h : tier.Allows node) (hkind : node'.kind = node.kind) :
    tier.Allows node' := by
  cases tier with
  | list => trivial
  | pipeline => exact ⟨hkind ▸ h.1, hkind ▸ h.2⟩
  | command => rwa [Tier.Allows, Node.IsPrimary, hkind]

namespace Node

namespace Attached

theorem tail_kind (h : Attached src comments more more' node node')
    (hmargins : node.kind.hasMargins = false) :
    ∀ child' ∈ node'.children.tail, child'.kind = .comment ∨
      ∃ child ∈ node.children.tail, child'.kind = child.kind := by
  intro child' hchild'
  have hkinds : ∀ {nodes nodes'}, AddsComments comments nodes nodes' → child' ∈ nodes' →
      child'.kind = .comment ∨ ∃ child ∈ nodes, child'.kind = child.kind := by
    intro nodes nodes' hadds hmem
    obtain ⟨c, _, rfl⟩ | ⟨child, hchild, hcommented⟩ := hadds.of_mem hmem
    . exact .inl rfl
    . exact .inr ⟨child, hchild, hcommented.kind_eq⟩
  cases hchildren : node.children with
  | nil =>
    have hadds := h.adds
    rw [hchildren] at hadds
    exact hkinds hadds (List.mem_of_mem_tail hchild')
  | cons first rest =>
    obtain ⟨first', rest', hchildren', _, hrest⟩ := h.first hmargins hchildren
    rw [hchildren'] at hchild'
    exact hkinds hrest hchild'

theorem tail_allows (h : Attached src comments more more' node node')
    (hmargins : node.kind.hasMargins = false) {tier : Tier}
    (hallows : ∀ child ∈ node.children.tail, tier.Allows child) :
    ∀ child' ∈ node'.children.tail, tier.Allows child' := by
  intro child' hchild'
  cases h.tail_kind hmargins child' hchild' with
  | inl hcomment =>
    apply IsPrimary.allows
    rw [IsPrimary, hcomment]
    rfl
  | inr hkept =>
    obtain ⟨child, hchild, hkind⟩ := hkept
    exact (hallows child hchild).of_kind hkind

theorem isCutOff (h : Attached src comments more more' node node')
    (hmargins : node.kind.hasMargins = false) (hcut : node.IsCutOff) : node'.IsCutOff := by
  intro child' hchild'
  cases h.tail_kind hmargins child' hchild' with
  | inl hcomment => rw [hcomment]; rfl
  | inr hkept =>
    obtain ⟨child, hchild, hkind⟩ := hkept
    rw [hkind]
    exact hcut child hchild

theorem isBound (h : Attached src comments more more' node node') (hbound : node.IsBound) :
    node'.IsBound := by
  unfold IsBound at hbound ⊢
  rw [h.kind_eq]
  cases hkind : node.kind with
  | pipeline =>
    rw [hkind] at hbound
    have hmargins : node.kind.hasMargins = false := by rw [hkind]; rfl
    refine ⟨?_, h.tail_allows hmargins hbound.2⟩
    intro first' hfirst'
    cases hchildren : node.children with
    | nil =>
      have hadds := h.adds
      rw [hchildren] at hadds
      obtain ⟨c, _, rfl⟩ | ⟨_, hnone, _⟩ := hadds.of_mem (List.mem_of_mem_head? hfirst')
      . simp [Node.leaf]
      . simp at hnone
    | cons first rest =>
      obtain ⟨_, _, hchildren', hfirst, _⟩ := h.first hmargins hchildren
      rw [hchildren'] at hfirst'
      cases hfirst'
      obtain ⟨hpipeline, hlist⟩ := hbound.1 first (by simp [hchildren])
      refine ⟨hfirst.kind_eq ▸ hpipeline, ?_⟩
      intro hkind'
      rw [hfirst.kind_eq] at hkind'
      exact hfirst.isCutOff (by rw [hkind']; rfl) (hlist hkind')
  | list =>
    rw [hkind] at hbound
    exact h.tail_allows (by rw [hkind]; rfl) hbound
  | negatedCommand =>
    rw [hkind] at hbound
    exact h.tail_allows (by rw [hkind]; rfl) hbound
  | _ => trivial

end Attached

theorem AddsComments.allBound {start stop : Nat} (h : AddsComments comments nodes nodes')
    (hcomments : ∀ c ∈ comments, c.start < c.stop) (htiles : Tiles src more nodes start stop)
    (htiles' : Tiles src more' nodes' start stop) (hbound : AllBound nodes) : AllBound nodes' := by
  intro node' hnode'
  obtain ⟨c, _, rfl⟩ | ⟨node, hnode, hcommented⟩ := h.origin hnode'
  . exact NodeKind.binds_nil _
  . have hattached : Attached src comments more more' node node' :=
      ⟨hcommented, hcomments, htiles.of_mem_preorderAll hnode, htiles'.of_mem_preorderAll hnode'⟩
    exact hattached.isBound (hbound node hnode)

end Node
end ShellTree
