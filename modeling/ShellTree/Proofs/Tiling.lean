import ShellTree.Node.Basic
import ShellTree.Proofs.Heredoc

/-!
This module contains what it means that nodes fit a source: siblings follow each other with nothing
but trivia and comments between them, and a leaf covers whole characters. `Tiles` says it of the
nodes between two offsets and `Node.Fits` of a node with everything below it.
-/

namespace ShellTree

/-- Nodes of the kind may reach over their first and last child. -/
def NodeKind.hasMargins : NodeKind → Bool
  | .program | .heredocBody => true
  | _ => false

/-- The node starts where its first child starts and stops where its last child stops. -/
def Node.IsTight (node : Node) : Prop :=
  (∀ first ∈ node.children.head?, node.span.start = first.span.start) ∧
    ∀ last ∈ node.children.getLast?, node.span.stop = last.span.stop

mutual

/-- The leaves of the subtree cover whole characters, and between the children of a node there is
nothing but trivia and comments of the list. -/
def Node.Fits (src : Source) (comments : List Span) : Node → Prop
  | ⟨_, span, []⟩ => ∃ cs, src.Spells span.start span.stop cs
  | ⟨kind, span, child :: children⟩ =>
    Tiles src comments (child :: children) span.start span.stop ∧
      (kind.hasMargins ∨ Node.IsTight ⟨kind, span, child :: children⟩)

/-- The nodes follow each other between two offsets, with nothing but trivia and comments of the
list around them. -/
def Tiles (src : Source) (comments : List Span) : List Node → Nat → Nat → Prop
  | [], start, stop => Skips src comments start stop
  | node :: nodes, start, stop =>
    Skips src comments start node.span.start ∧ Node.Fits src comments node ∧
      Tiles src comments nodes node.span.stop stop

end

variable {src : Source} {comments more : List Span} {start middle stop : Nat}
variable {node child : Node} {nodes siblings : List Node}

theorem Node.fits_leaf {kind : NodeKind} {span : Span} :
    Node.Fits src comments (.leaf kind span) ↔ ∃ cs, src.Spells span.start span.stop cs := by
  rw [Node.leaf, Node.Fits]

theorem Node.fits_of_isLeaf (h : node.isLeaf) :
    node.Fits src comments ↔ ∃ cs, src.Spells node.span.start node.span.stop cs := by
  obtain ⟨kind, span, children⟩ := node
  rw [Node.isLeaf, List.isEmpty_iff] at h
  simp only at h
  subst h
  rw [Node.Fits]

theorem Node.fits_of_ne_nil (h : node.children ≠ []) :
    node.Fits src comments ↔ Tiles src comments node.children node.span.start node.span.stop ∧
      (node.kind.hasMargins ∨ node.IsTight) := by
  obtain ⟨kind, span, children⟩ := node
  cases children with
  | nil => contradiction
  | cons child children => rw [Node.Fits]

@[simp]
theorem tiles_nil : Tiles src comments [] start stop ↔ Skips src comments start stop := by
  rw [Tiles]

@[simp]
theorem tiles_cons :
    Tiles src comments (node :: nodes) start stop ↔
      Skips src comments start node.span.start ∧ node.Fits src comments ∧
        Tiles src comments nodes node.span.stop stop := by
  rw [Tiles]

theorem Tiles.le (h : Tiles src comments nodes start stop) : start ≤ stop := by
  induction nodes generalizing start with
  | nil => exact (tiles_nil.1 h).le
  | cons node nodes ih =>
    rw [tiles_cons] at h
    have := h.1.le
    have := node.span.start_le_stop
    have := ih h.2.2
    omega

mutual

theorem Node.Fits.mono_within : {node : Node} → node.Fits src comments →
    (∀ c ∈ comments, node.span.start ≤ c.start → c.stop ≤ node.span.stop → c ∈ more) →
      node.Fits src more
  | ⟨_, _, []⟩, h, _ => by
    rw [Node.Fits] at h ⊢
    exact h
  | ⟨_, _, _ :: _⟩, h, hmore => by
    rw [Node.Fits] at h ⊢
    exact ⟨h.1.mono_within hmore, h.2⟩

theorem Tiles.mono_within : {nodes : List Node} → {start stop : Nat} →
    Tiles src comments nodes start stop →
      (∀ c ∈ comments, start ≤ c.start → c.stop ≤ stop → c ∈ more) →
        Tiles src more nodes start stop
  | [], _, _, h, hmore => by
    rw [tiles_nil] at h ⊢
    exact h.mono_within hmore
  | node :: nodes, start, stop, h, hmore => by
    rw [tiles_cons] at h ⊢
    have hle := h.1.le
    have hle' := Tiles.le h.2.2
    have hspan := node.span.start_le_stop
    refine ⟨h.1.mono_within ?_, h.2.1.mono_within ?_, h.2.2.mono_within ?_⟩
    . intro c hc hstart hstop
      exact hmore c hc hstart (by omega)
    . intro c hc hstart hstop
      exact hmore c hc (by omega) (by omega)
    . intro c hc hstart hstop
      exact hmore c hc (by omega) hstop

end

theorem Node.Fits.mono (h : node.Fits src comments) (hmore : ∀ c ∈ comments, c ∈ more) :
    node.Fits src more :=
  h.mono_within fun c hc _ _ => hmore c hc

namespace Tiles

theorem mono (h : Tiles src comments nodes start stop) (hmore : ∀ c ∈ comments, c ∈ more) :
    Tiles src more nodes start stop :=
  h.mono_within fun c hc _ _ => hmore c hc

theorem fits (h : Tiles src comments nodes start stop) :
    ∀ node ∈ nodes, node.Fits src comments := by
  induction nodes generalizing start with
  | nil => simp
  | cons node nodes ih =>
    rw [tiles_cons] at h
    simp only [List.mem_cons, forall_eq_or_imp]
    exact ⟨h.2.1, ih h.2.2⟩

theorem left (h : Tiles src comments nodes start stop) : src.Boundary start := by
  cases nodes with
  | nil => exact (tiles_nil.1 h).left
  | cons node nodes => exact (tiles_cons.1 h).1.left

theorem right (h : Tiles src comments nodes start stop) : src.Boundary stop := by
  induction nodes generalizing start with
  | nil => exact (tiles_nil.1 h).right
  | cons node nodes ih => exact ih (tiles_cons.1 h).2.2

theorem skip_left (hskips : Skips src comments start middle)
    (h : Tiles src comments nodes middle stop) : Tiles src comments nodes start stop := by
  cases nodes with
  | nil => exact tiles_nil.2 (hskips.trans (tiles_nil.1 h))
  | cons node nodes =>
    rw [tiles_cons] at h ⊢
    exact ⟨hskips.trans h.1, h.2⟩

theorem append (h : Tiles src comments nodes start middle)
    (h' : Tiles src comments siblings middle stop) :
    Tiles src comments (nodes ++ siblings) start stop := by
  induction nodes generalizing start with
  | nil => exact h'.skip_left (tiles_nil.1 h)
  | cons node nodes ih =>
    rw [tiles_cons] at h
    rw [List.cons_append, tiles_cons]
    exact ⟨h.1, h.2.1, ih h.2.2⟩

theorem skip_right (h : Tiles src comments nodes start middle)
    (hskips : Skips src comments middle stop) : Tiles src comments nodes start stop := by
  simpa using h.append (tiles_nil.2 hskips)

theorem leaf {kind : NodeKind} {span : Span} {cs : List Char}
    (h : src.Spells span.start span.stop cs) :
    Tiles src comments [.leaf kind span] span.start span.stop :=
  tiles_cons.2 ⟨.done h.left, Node.fits_leaf.2 ⟨cs, h⟩, tiles_nil.2 (.done h.right)⟩

theorem trim_right (h : Tiles src comments nodes start stop) {last : Node}
    (hlast : last ∈ nodes.getLast?) :
    Tiles src comments nodes start last.span.stop ∧ Skips src comments last.span.stop stop := by
  induction nodes generalizing start with
  | nil => simp at hlast
  | cons node nodes ih =>
    rw [tiles_cons] at h
    cases nodes with
    | nil =>
      simp only [List.getLast?_singleton, Option.mem_def, Option.some.injEq] at hlast
      subst hlast
      have hskips := tiles_nil.1 h.2.2
      exact ⟨tiles_cons.2 ⟨h.1, h.2.1, tiles_nil.2 (.done hskips.left)⟩, hskips⟩
    | cons child nodes =>
      rw [List.getLast?_cons_cons] at hlast
      obtain ⟨htiles, hskips⟩ := ih h.2.2 hlast
      exact ⟨tiles_cons.2 ⟨h.1, h.2.1, htiles⟩, hskips⟩

theorem trim_left (h : Tiles src comments nodes start stop) {first : Node}
    (hfirst : first ∈ nodes.head?) :
    Skips src comments start first.span.start ∧ Tiles src comments nodes first.span.start stop := by
  cases nodes with
  | nil => simp at hfirst
  | cons node nodes =>
    simp only [List.head?_cons, Option.mem_def, Option.some.injEq] at hfirst
    subst hfirst
    rw [tiles_cons] at h
    exact ⟨h.1, tiles_cons.2 ⟨.done h.1.right, h.2⟩⟩

theorem first_le_last (h : Tiles src comments nodes start stop) {first last : Node}
    (hfirst : first ∈ nodes.head?) (hlast : last ∈ nodes.getLast?) :
    first.span.start ≤ last.span.stop :=
  ((h.trim_left hfirst).2.trim_right hlast).1.le

theorem wrap (h : Tiles src comments nodes start stop) (kind : NodeKind) {first last : Node}
    (hfirst : first ∈ nodes.head?) (hlast : last ∈ nodes.getLast?) :
    Tiles src comments [⟨kind, ⟨first.span.start, last.span.stop, h.first_le_last hfirst hlast⟩,
      nodes⟩] start stop := by
  obtain ⟨hbefore, htrimmed⟩ := h.trim_left hfirst
  obtain ⟨hnodes, hafter⟩ := htrimmed.trim_right hlast
  have hne : nodes ≠ [] := by
    rintro rfl
    simp at hfirst
  refine tiles_cons.2 ⟨hbefore, (Node.fits_of_ne_nil hne).2 ⟨hnodes, .inr ⟨?_, ?_⟩⟩,
    tiles_nil.2 hafter⟩
  . intro node hnode
    rw [Option.mem_unique hnode hfirst]
  . intro node hnode
    rw [Option.mem_unique hnode hlast]

/-- Nodes that stop before a line starts can be cut off there. -/
theorem cut (h : Tiles src comments nodes start stop) (hline : src.LineStart middle)
    (hstart : start ≤ middle) (hstop : middle ≤ stop)
    (hlast : ∀ last ∈ nodes.getLast?, last.span.stop ≤ middle) :
    Tiles src comments nodes start middle := by
  cases hnodes : nodes.getLast? with
  | none =>
    rw [List.getLast?_eq_none_iff] at hnodes
    subst hnodes
    rw [tiles_nil] at h ⊢
    exact (h.cut hline hstart hstop).1
  | some last =>
    obtain ⟨htiles, hskips⟩ := h.trim_right hnodes
    exact htiles.skip_right (hskips.cut hline (hlast last hnodes) hstop).1

end Tiles

end ShellTree
