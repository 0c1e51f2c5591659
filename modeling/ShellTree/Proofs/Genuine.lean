import Mathlib.Data.List.Chain
import ShellTree.Proofs.Closing

/-!
This module contains what the nodes of a kind have to show for it, as a condition on single nodes:
the text that a leaf stands for, the fragments that a concatenation joins, and that a backtick
closes what a backtick has opened.
-/

namespace ShellTree

namespace NodeKind

/-- Nodes of the kind stand for a text and have no parts. -/
def isText : NodeKind → Bool
  | .token _ | .content | .fileDescriptor => true
  | _ => false

/-- Nodes of the kind can be leaves that cover nothing. -/
def canBeEmpty : NodeKind → Bool
  | .error | .command | .heredocBody | .heredocEnd => true
  | _ => false

end NodeKind

/-- The span is that of digits right before a redirect. -/
def Source.IsDescriptor (src : Source) (span : Span) : Prop :=
  ∃ digits, digits ≠ [] ∧ (∀ c ∈ digits, c.isDigit) ∧ src.Spells span.start span.stop digits ∧
    (src.char? span.stop = some '<' ∨ src.char? span.stop = some '>')

namespace Node

/-- A substitution without its closer. The list in it may have taken line breaks behind its last
statement. -/
def IsOpenSubstitution (src : Source) (node : Node) : Prop :=
  (node.kind = .commandSubstitution ∨ node.kind = .processSubstitution) ∧ ¬node.IsClosed src

/-- There is nothing between the nodes, except behind an open substitution. -/
def Touches (src : Source) (node next : Node) : Prop :=
  node.span.stop = next.span.start ∨ node.IsOpenSubstitution src

def Glued (src : Source) (nodes : List Node) : Prop := nodes.IsChain (Touches src)

/-- The node is a substitution between backticks. -/
def OpensBacktick (node : Node) : Prop :=
  node.kind = .commandSubstitution ∧ StartsWith "`" node.children

instance (node : Node) : Decidable node.OpensBacktick :=
  inferInstanceAs (Decidable (_ ∧ ∃ first ∈ node.children.head?, _))

/-- An expression stands in the node, in which every backtick opens. -/
def HoldsArithmetic (node : Node) : Prop :=
  node.kind = .arithmeticExpansion ∨ node.kind = .cStyleForStatement ∨
    node.kind = .testCommand ∧ StartsWith "((" node.children

mutual

/-- No backtick opens in the node, except below arithmetic. -/
def Flat : Node → Prop
  | ⟨kind, span, children⟩ => ¬OpensBacktick ⟨kind, span, children⟩ ∧
      (HoldsArithmetic ⟨kind, span, children⟩ ∨ AllFlat children)

def AllFlat : List Node → Prop
  | [] => True
  | node :: nodes => Flat node ∧ AllFlat nodes

end

/-- Backticks around the nodes between the first and the last close where they should. -/
structure Delimited (nodes : List Node) : Prop where
  flat : AllFlat nodes
  inside : ∀ node ∈ nodes.tail.dropLast, node.kind ≠ .token "`"

/-- The node shows what its kind says. Comments are attached to what is read, and no part of it. -/
structure IsGenuine (src : Source) (node : Node) : Prop where
  ne_comment : node.kind ≠ .comment
  isLeaf : node.kind.isText → node.children = []
  spelled : ∀ text, node.kind = .token text →
    src.Spells node.span.start node.span.stop text.toList
  descriptor : node.kind = .fileDescriptor → src.IsDescriptor node.span
  covers : node.children = [] → node.kind.canBeEmpty = false → node.span.start < node.span.stop
  joins : node.kind = .concatenation → 2 ≤ node.children.length ∧ Glued src node.children
  delimited : node.OpensBacktick → Delimited node.children

def AllGenuine (src : Source) : List Node → Prop := All (·.IsGenuine src)

variable {src : Source} {node : Node} {nodes : List Node} {kind : NodeKind} {span : Span}

theorem flat_iff :
    node.Flat ↔ ¬node.OpensBacktick ∧ (node.HoldsArithmetic ∨ AllFlat node.children) := by
  obtain ⟨kind, span, children⟩ := node
  rw [Flat]

theorem HoldsArithmetic.flat (h : node.HoldsArithmetic) : node.Flat := by
  refine flat_iff.2 ⟨fun hopens => ?_, .inl h⟩
  unfold HoldsArithmetic at h
  rw [hopens.1] at h
  simp at h

theorem AllFlat.append {siblings : List Node} (h : AllFlat nodes) (h' : AllFlat siblings) :
    AllFlat (nodes ++ siblings) := by
  induction nodes with
  | nil => exact h'
  | cons node nodes ih => exact ⟨h.1, ih h.2⟩

theorem allFlat_singleton : AllFlat [node] ↔ node.Flat := by simp [AllFlat]

theorem AllFlat.wrap (h : AllFlat nodes) (hkind : kind ≠ .commandSubstitution) :
    AllFlat [⟨kind, span, nodes⟩] :=
  allFlat_singleton.2 (flat_iff.2 ⟨fun hopens => hkind hopens.1, .inr h⟩)

theorem AllFlat.children (h : AllFlat [node]) (harithmetic : ¬node.HoldsArithmetic) :
    AllFlat node.children := (flat_iff.1 h.1).2.resolve_left harithmetic

theorem flat_of_nil (h : node.children = []) : node.Flat := by
  refine flat_iff.2 ⟨fun hopens => ?_, .inr ?_⟩
  . obtain ⟨_, hfirst, _⟩ := hopens.2
    simp [h] at hfirst
  . rw [h]
    trivial

theorem allFlat_leaf : AllFlat [.leaf kind span] := allFlat_singleton.2 (flat_of_nil rfl)

theorem Glued.push (h : Glued src nodes) (hlast : ∀ last ∈ nodes.getLast?, last.Touches src node) :
    Glued src (nodes ++ [node]) := by
  refine List.isChain_append.2 ⟨h, .singleton node, fun last hmem next hnext => ?_⟩
  obtain rfl : node = next := by simpa using hnext
  exact hlast last hmem

theorem isGenuine_leaf (htoken : ∀ text, kind = .token text →
      src.Spells span.start span.stop text.toList)
    (hdescriptor : kind = .fileDescriptor → src.IsDescriptor span)
    (hcovers : kind.canBeEmpty = false → span.start < span.stop)
    (hkind : kind ≠ .comment ∧ kind ≠ .concatenation) : IsGenuine src (.leaf kind span) :=
  ⟨hkind.1, fun _ => rfl, htoken, hdescriptor, fun _ => hcovers, fun h => absurd h hkind.2,
    fun _ => ⟨trivial, by simp [leaf]⟩⟩

theorem AllGenuine.readChildren_eq (h : AllGenuine src nodes) :
    readChildren ⟨kind, span, nodes⟩ = nodes := by
  refine List.filter_eq_self.2 fun node hnode => ?_
  simpa using (h node (mem_preorderAll_of_mem hnode)).ne_comment

/-- Of what has parts only concatenations and substitutions have to show something for their
kind. -/
theorem isGenuine_of_parts (hcomment : kind ≠ .comment) (hkind : kind.isText = false)
    (hcovers : nodes = [] → kind.canBeEmpty = true)
    (hjoins : kind = .concatenation → 2 ≤ nodes.length ∧ Glued src nodes)
    (hdelimited : kind = .commandSubstitution → StartsWith "`" nodes → Delimited nodes) :
    IsGenuine src ⟨kind, span, nodes⟩ where
  ne_comment := hcomment
  isLeaf htext := by simp [hkind] at htext
  spelled text heq := by
    dsimp only at heq
    simp [heq, NodeKind.isText] at hkind
  descriptor heq := by
    dsimp only at heq
    simp [heq, NodeKind.isText] at hkind
  covers hempty hcan := by
    dsimp only at hempty hcan
    simp [hcovers hempty] at hcan
  joins := hjoins
  delimited hopens := hdelimited hopens.1 hopens.2

end Node

end ShellTree
