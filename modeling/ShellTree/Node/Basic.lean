import ShellTree.Node.Kind
import ShellTree.Source

/-!
This module contains the nodes of a concrete syntax tree and the questions one can ask of them.
-/

namespace ShellTree

/-- A node covers a span of the source. A node without children is a leaf. -/
structure Node where
  kind : NodeKind
  span : Span
  children : List Node
deriving Repr

namespace Node

mutual

def decEq : (a b : Node) → Decidable (a = b)
  | ⟨kind, span, children⟩, ⟨kind', span', children'⟩ =>
    if hkind : kind = kind' then
      if hspan : span = span' then
        match decEqAll children children' with
        | isTrue h => isTrue (by subst hkind hspan h; rfl)
        | isFalse h => isFalse (by intro heq; cases heq; exact h rfl)
      else
        isFalse (by intro heq; cases heq; exact hspan rfl)
    else
      isFalse (by intro heq; cases heq; exact hkind rfl)

def decEqAll : (as bs : List Node) → Decidable (as = bs)
  | [], [] => isTrue rfl
  | [], _ :: _ => isFalse nofun
  | _ :: _, [] => isFalse nofun
  | a :: as, b :: bs =>
    match decEq a b with
    | isTrue h =>
      match decEqAll as bs with
      | isTrue hs => isTrue (by rw [h, hs])
      | isFalse hs => isFalse (by intro heq; cases heq; exact hs rfl)
    | isFalse h => isFalse (by intro heq; cases heq; exact h rfl)

end

instance : DecidableEq Node := decEq

def leaf (kind : NodeKind) (span : Span) : Node := ⟨kind, span, []⟩

def isNamed (node : Node) : Bool := node.kind.isNamed

def isLeaf (node : Node) : Bool := node.children.isEmpty

def isError (node : Node) : Bool := node.kind == .error

def text? (node : Node) (src : Source) : Option String := src.textOf? node.span

def namedChildren (node : Node) : List Node := node.children.filter isNamed

def childOfKind? (node : Node) (kind : NodeKind) : Option Node :=
  node.children.find? (·.kind == kind)

mutual

def count : Node → Nat
  | ⟨_, _, children⟩ => 1 + countAll children

def countAll : List Node → Nat
  | [] => 0
  | node :: nodes => count node + countAll nodes

end

mutual

/-- The nodes of the subtree, each before its children. -/
def preorder : Node → List Node
  | ⟨kind, span, children⟩ => ⟨kind, span, children⟩ :: preorderAll children

def preorderAll : List Node → List Node
  | [] => []
  | node :: nodes => preorder node ++ preorderAll nodes

end

theorem countAll_append (xs ys : List Node) : countAll (xs ++ ys) = countAll xs + countAll ys := by
  induction xs with
  | nil => simp [countAll]
  | cons x xs ih => simp [countAll, ih, Nat.add_assoc]

/-- The nodes of the subtrees on a stack. The top of the stack is visited next, and its children
take its place. -/
def visit : List Node → List Node
  | [] => []
  | node :: stack => node :: visit (node.children ++ stack)
termination_by stack => countAll stack
decreasing_by
  obtain ⟨kind, span, children⟩ := node
  simp [countAll_append, countAll, count]

def descendants (node : Node) : List Node := visit [node]

def hasError (node : Node) : Bool := node.descendants.any isError

mutual

def sexp : Node → String
  | ⟨kind, _, children⟩ => "(" ++ kind.name ++ sexpAll children ++ ")"

def sexpAll : List Node → String
  | [] => ""
  | node :: nodes => (if node.isNamed then " " ++ sexp node else "") ++ sexpAll nodes

end

end Node

end ShellTree
