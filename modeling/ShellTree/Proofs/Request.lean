import ShellTree.Diagnostic
import ShellTree.Heredoc
import ShellTree.Proofs.Text
import ShellTree.Proofs.Traversal

/-!
This module contains the accounts of here-documents. Every marker in a tree asks for a body, and
every body answers a request with the delimiter on its last line, or is reported to lack one.
`Ledger` says that between two points of a parse no request is lost and none is answered twice.
-/

namespace ShellTree

/-! ### Requests in reports -/

def Unclosed.isHeredoc : Unclosed → Bool
  | .heredocBody _ | .heredocStart _ => true
  | _ => false

namespace Cause

/-- The delimiter that a body lacks. -/
def missingEnd? : Cause → Option String
  | .unterminated (.heredocBody delimiter) => some delimiter
  | _ => none

/-- The delimiter of a request without a body. -/
def missingBody? : Cause → Option String
  | .unterminated (.heredocStart delimiter) => some delimiter
  | _ => none

end Cause

def missingEnds (diagnostics : List Diagnostic) : List String :=
  diagnostics.filterMap (·.cause.missingEnd?)

def missingBodies (diagnostics : List Diagnostic) : List String :=
  diagnostics.filterMap (·.cause.missingBody?)

theorem Unclosed.missing_eq_none {what : Unclosed} (h : what.isHeredoc = false) :
    (Cause.unterminated what).missingEnd? = none ∧
      (Cause.unterminated what).missingBody? = none := by
  cases what <;> simp_all [isHeredoc, Cause.missingEnd?, Cause.missingBody?]

/-! ### Requests in trees -/

/-- The delimiter that a marker names. -/
def Heredoc.delimiterOf (marker : String) : String :=
  String.ofList (unquote none marker.toList)

namespace Node

def leavesOf (kind : NodeKind) (nodes : List Node) : List Node :=
  (leavesAll nodes).filter (·.kind == kind)

/-- The delimiters that the markers name. -/
def asked (src : Source) (nodes : List Node) : List (Option String) :=
  (leavesOf .heredocStart nodes).map fun leaf => (leaf.text? src).map Heredoc.delimiterOf

/-- The texts of the delimiters after the bodies. -/
def answered (src : Source) (nodes : List Node) : List (Option String) :=
  (leavesOf .heredocEnd nodes).map (·.text? src)

def bodyCount (nodes : List Node) : Nat := (preorderAll nodes).countP (·.kind == .heredocBody)

end Node

/-- Nodes of the kind have no part in a here-document and are neither errors nor comments. -/
def NodeKind.isPlain : NodeKind → Bool
  | .heredocStart | .heredocBody | .heredocEnd | .error | .comment => false
  | _ => true

namespace Node

variable {src : Source} {nodes siblings : List Node} {kind kind' : NodeKind} {span : Span}

theorem leavesOf_append :
    leavesOf kind (nodes ++ siblings) = leavesOf kind nodes ++ leavesOf kind siblings := by
  rw [leavesOf, leavesAll, preorderAll_append, List.filter_append, List.filter_append]
  rfl

@[simp]
theorem asked_append : asked src (nodes ++ siblings) = asked src nodes ++ asked src siblings := by
  rw [asked, leavesOf_append, List.map_append]
  rfl

@[simp]
theorem answered_append :
    answered src (nodes ++ siblings) = answered src nodes ++ answered src siblings := by
  rw [answered, leavesOf_append, List.map_append]
  rfl

@[simp]
theorem bodyCount_append :
    bodyCount (nodes ++ siblings) = bodyCount nodes + bodyCount siblings := by
  rw [bodyCount, preorderAll_append, List.countP_append]
  rfl

@[simp]
theorem asked_nil : asked src [] = [] := by
  simp [asked, leavesOf, leavesAll, preorderAll]

@[simp]
theorem answered_nil : answered src [] = [] := by
  simp [answered, leavesOf, leavesAll, preorderAll]

@[simp]
theorem bodyCount_nil : bodyCount [] = 0 := by simp [bodyCount, preorderAll]

theorem leavesOf_wrap (h : kind ≠ kind') :
    leavesOf kind' [⟨kind, span, nodes⟩] = leavesOf kind' nodes := by
  rw [leavesOf, leavesAll_cons]
  split
  . next hleaf =>
    have hnodes : nodes = [] := by simpa [isLeaf] using hleaf
    simp [hnodes, h, leavesOf, leavesAll, preorderAll]
  . simp [leavesOf, leavesAll, preorderAll]

theorem bodyCount_wrap :
    bodyCount [⟨kind, span, nodes⟩] =
      bodyCount nodes + if kind == .heredocBody then 1 else 0 := by
  simp [bodyCount, preorderAll, preorder_eq, List.countP_cons]

theorem asked_wrap (h : kind ≠ .heredocStart) :
    asked src [⟨kind, span, nodes⟩] = asked src nodes := by rw [asked, leavesOf_wrap h, asked]

theorem answered_wrap (h : kind ≠ .heredocEnd) :
    answered src [⟨kind, span, nodes⟩] = answered src nodes := by
  rw [answered, leavesOf_wrap h, answered]

theorem leavesOf_leaf : leavesOf kind [leaf kind span] = [leaf kind span] := by
  simp [leavesOf, leavesAll, preorderAll, preorder_eq, leaf, isLeaf]

end Node

/-! ### The ledger -/

/-- The delimiters that are waited for, and those that were waited for to the end of the text. -/
def owed (pending : List Heredoc.Request) (diagnostics : List Diagnostic) :
    List (Option String) :=
  (pending.map (·.delimiter) ++ missingEnds diagnostics).map some

/-- The nodes are read between two points of a parse. What they ask for is added to the requests,
and what they answer is taken away. -/
structure Ledger (src : Source) (pending : List Heredoc.Request) (diagnostics : List Diagnostic)
    (nodes : List Node) (pending' : List Heredoc.Request) (diagnostics' : List Diagnostic) :
    Prop where
  delimiters : (Node.asked src nodes ++ owed pending diagnostics).Perm
    (Node.answered src nodes ++ owed pending' diagnostics')
  bodies : Node.bodyCount nodes + (missingEnds diagnostics).length =
    (Node.answered src nodes).length + (missingEnds diagnostics').length
  missing : missingBodies diagnostics' = missingBodies diagnostics

namespace Ledger

variable {src : Source} {nodes siblings : List Node} {kind : NodeKind} {span : Span}
variable {pending pending₁ pending₂ pending₃ : List Heredoc.Request}
variable {diagnostics diagnostics₁ diagnostics₂ diagnostics₃ : List Diagnostic}
variable {request : Heredoc.Request}

theorem nil (hends : missingEnds diagnostics₂ = missingEnds diagnostics₁)
    (hbodies : missingBodies diagnostics₂ = missingBodies diagnostics₁) :
    Ledger src pending diagnostics₁ [] pending diagnostics₂ where
  delimiters := by simp [owed, hends]
  bodies := by simp [hends]
  missing := hbodies

theorem trans (h : Ledger src pending₁ diagnostics₁ nodes pending₂ diagnostics₂)
    (h' : Ledger src pending₂ diagnostics₂ siblings pending₃ diagnostics₃) :
    Ledger src pending₁ diagnostics₁ (nodes ++ siblings) pending₃ diagnostics₃ where
  delimiters := by
    have hcount := h.delimiters
    have hcount' := h'.delimiters
    rw [List.perm_iff_count] at hcount hcount' ⊢
    intro delimiter
    have := hcount delimiter
    have := hcount' delimiter
    simp only [Node.asked_append, Node.answered_append, List.count_append] at *
    omega
  bodies := by
    have := h.bodies
    have := h'.bodies
    simp only [Node.bodyCount_append, Node.answered_append, List.length_append]
    omega
  missing := h'.missing.trans h.missing

/-- A plain node or an error stands for its children. -/
theorem wrap_iff (hkind : kind = .error ∨ kind.isPlain) :
    Ledger src pending₁ diagnostics₁ [⟨kind, span, nodes⟩] pending₂ diagnostics₂ ↔
      Ledger src pending₁ diagnostics₁ nodes pending₂ diagnostics₂ := by
  have hne : kind ≠ .heredocStart ∧ kind ≠ .heredocEnd ∧ kind ≠ .heredocBody := by
    obtain rfl | hplain := hkind
    . simp
    . refine ⟨?_, ?_, ?_⟩ <;> rintro rfl <;> simp [NodeKind.isPlain] at hplain
  obtain ⟨hstart, hend, hbody⟩ := hne
  refine ⟨fun h => ⟨?_, ?_, h.missing⟩, fun h => ⟨?_, ?_, h.missing⟩⟩
  . have hdelimiters := h.delimiters
    rwa [Node.asked_wrap hstart, Node.answered_wrap hend] at hdelimiters
  . have hbodies := h.bodies
    rw [Node.bodyCount_wrap, Node.answered_wrap hend] at hbodies
    simpa [hbody] using hbodies
  . rw [Node.asked_wrap hstart, Node.answered_wrap hend]
    exact h.delimiters
  . rw [Node.bodyCount_wrap, Node.answered_wrap hend]
    simpa [hbody] using h.bodies

theorem wrap (h : Ledger src pending₁ diagnostics₁ nodes pending₂ diagnostics₂)
    (hkind : kind = .error ∨ kind.isPlain) :
    Ledger src pending₁ diagnostics₁ [⟨kind, span, nodes⟩] pending₂ diagnostics₂ :=
  (wrap_iff hkind).2 h

theorem children {node : Node}
    (h : Ledger src pending₁ diagnostics₁ [node] pending₂ diagnostics₂)
    (hkind : node.kind = .error ∨ node.kind.isPlain) :
    Ledger src pending₁ diagnostics₁ node.children pending₂ diagnostics₂ := by
  cases node
  exact (wrap_iff hkind).1 h

/-- More requests before the others wait on. -/
theorem frame (h : Ledger src pending₁ diagnostics₁ nodes pending₂ diagnostics₂)
    (pending : List Heredoc.Request) :
    Ledger src (pending ++ pending₁) diagnostics₁ nodes (pending ++ pending₂) diagnostics₂ where
  delimiters := by
    have hcount := h.delimiters
    rw [List.perm_iff_count] at hcount ⊢
    intro delimiter
    have := hcount delimiter
    simp only [owed, List.map_append, List.count_append] at *
    omega
  bodies := h.bodies
  missing := h.missing

/-- A marker asks for a body. -/
theorem ask {marker : String} (hmarker : src.textOf? span = some marker)
    (hrequest : request.delimiter = Heredoc.delimiterOf marker) :
    Ledger src pending diagnostics [.leaf .heredocStart span] (pending ++ [request])
      diagnostics := by
  have hasked : Node.asked src [.leaf .heredocStart span] = [some request.delimiter] := by
    rw [Node.asked, Node.leavesOf_leaf, hrequest]
    simp [Node.text?, Node.leaf, hmarker]
  have hanswered : Node.answered src [.leaf .heredocStart span] = [] := by
    rw [Node.leaf, Node.answered_wrap (by simp), Node.answered_nil]
  refine ⟨?_, ?_, rfl⟩
  . rw [hasked, hanswered, List.perm_iff_count]
    intro delimiter
    simp only [owed, List.map_append, List.map_cons, List.map_nil, List.count_append,
      List.count_nil]
    omega
  . rw [Node.leaf, Node.bodyCount_wrap, Node.bodyCount_nil, ← Node.leaf, hanswered]
    simp

/-- The delimiter after a body answers the first request. -/
theorem answer {body : Span} (h : Ledger src pending₁ diagnostics₁ nodes pending₂ diagnostics₂)
    (hdelimiter : src.textOf? span = some request.delimiter) :
    Ledger src (request :: pending₁) diagnostics₁
      [⟨.heredocBody, body, nodes⟩, .leaf .heredocEnd span] pending₂ diagnostics₂ := by
  have hend : Node.answered src [.leaf .heredocEnd span] = [some request.delimiter] := by
    rw [Node.answered, Node.leavesOf_leaf]
    simp [Node.text?, Node.leaf, hdelimiter]
  have hasked : Node.asked src [⟨.heredocBody, body, nodes⟩, .leaf .heredocEnd span] =
      Node.asked src nodes := by
    rw [← List.singleton_append, Node.asked_append, Node.asked_wrap (by simp), Node.leaf,
      Node.asked_wrap (by simp), Node.asked_nil, List.append_nil]
  have hanswered : Node.answered src [⟨.heredocBody, body, nodes⟩, .leaf .heredocEnd span] =
      Node.answered src nodes ++ [some request.delimiter] := by
    rw [← List.singleton_append, Node.answered_append, Node.answered_wrap (by simp), hend]
  have hcount : Node.bodyCount [⟨.heredocBody, body, nodes⟩, .leaf .heredocEnd span] =
      Node.bodyCount nodes + 1 := by
    rw [← List.singleton_append, Node.bodyCount_append, Node.bodyCount_wrap, Node.leaf,
      Node.bodyCount_wrap, Node.bodyCount_nil]
    simp
  refine ⟨?_, ?_, h.missing⟩
  . have hdelimiters := h.delimiters
    rw [hasked, hanswered]
    rw [List.perm_iff_count] at hdelimiters ⊢
    intro delimiter
    have := hdelimiters delimiter
    simp only [owed, List.map_append, List.map_cons, List.cons_append, List.count_append,
      List.count_cons, List.count_nil] at *
    omega
  . have := h.bodies
    rw [hcount, hanswered]
    simp only [List.length_append, List.length_singleton]
    omega

/-- A body without an end leaves a report in place of the first request. -/
theorem lack {body : Span} (h : Ledger src pending₁ diagnostics₁ nodes pending₂ diagnostics₂)
    (hends : missingEnds diagnostics₃ = missingEnds diagnostics₂ ++ [request.delimiter])
    (hbodies : missingBodies diagnostics₃ = missingBodies diagnostics₂) :
    Ledger src (request :: pending₁) diagnostics₁ [⟨.heredocBody, body, nodes⟩] pending₂
      diagnostics₃ := by
  refine ⟨?_, ?_, hbodies.trans h.missing⟩
  . have hdelimiters := h.delimiters
    rw [Node.asked_wrap (by simp), Node.answered_wrap (by simp)]
    rw [List.perm_iff_count] at hdelimiters ⊢
    intro delimiter
    have := hdelimiters delimiter
    simp only [owed, hends, List.map_append, List.map_cons, List.map_nil, List.cons_append,
      List.count_append, List.count_cons, List.count_nil] at *
    omega
  . have := h.bodies
    rw [Node.bodyCount_wrap, Node.answered_wrap (by simp), hends]
    simp only [List.length_append, List.length_singleton, beq_self_eq_true, if_true]
    omega

end Ledger

/-- Everything that the nodes ask for is answered or reported to be missing. -/
structure Balanced (src : Source) (nodes : List Node) (diagnostics : List Diagnostic) :
    Prop where
  delimiters : (Node.asked src nodes).Perm (Node.answered src nodes ++
    (missingBodies diagnostics ++ missingEnds diagnostics).map some)
  bodies : Node.bodyCount nodes =
    (Node.answered src nodes).length + (missingEnds diagnostics).length

theorem Ledger.balanced {src : Source} {nodes : List Node} {pending : List Heredoc.Request}
    {diagnostics diagnostics' : List Diagnostic} (h : Ledger src [] [] nodes pending diagnostics)
    (hends : missingEnds diagnostics' = missingEnds diagnostics)
    (hbodies : missingBodies diagnostics' =
      missingBodies diagnostics ++ pending.map (·.delimiter)) :
    Balanced src nodes diagnostics' := by
  have hnone : missingBodies diagnostics = [] := h.missing
  have hdelimiters := h.delimiters
  have hcount := h.bodies
  rw [hnone, List.nil_append] at hbodies
  refine ⟨?_, ?_⟩
  . rw [hends, hbodies]
    simpa [owed, missingEnds] using hdelimiters
  . rw [hends]
    simpa [missingEnds] using hcount

end ShellTree
