import ShellTree.Grammar.Text
import ShellTree.Node.Basic

/-!
This module contains what is moved when a text stands behind another: offsets grow by the width of
the text before, and all that holds offsets is moved with them.
-/

namespace ShellTree

/-- Data that can hold offsets into a text. -/
class Moves (α : Type) where
  /-- The data with all offsets in it greater by the width. -/
  moved : Nat → α → α

export Moves (moved)

section

variable {α β : Type} [Moves α] [Moves β] {width : Nat}

instance : Moves Unit := ⟨fun _ a => a⟩

instance : Moves Bool := ⟨fun _ a => a⟩

instance : Moves Nat := ⟨fun width offset => offset + width⟩

instance : Moves Span :=
  ⟨fun width s => ⟨s.start + width, s.stop + width, Nat.add_le_add_right s.start_le_stop width⟩⟩

instance : Moves Token := ⟨fun width tok => { tok with span := moved width tok.span }⟩

instance : Moves (Option α) := ⟨fun width => Option.map (moved width)⟩

instance : Moves (List α) := ⟨fun width => List.map (moved width)⟩

instance : Moves (α × β) := ⟨fun width => Prod.map (moved width) (moved width)⟩

instance : Moves (ForInStep α) where
  moved
    | width, .done a => .done (moved width a)
    | width, .yield a => .yield (moved width a)

mutual

def Node.move (width : Nat) : Node → Node
  | ⟨kind, span, children⟩ => ⟨kind, moved width span, moveAll width children⟩

def Node.moveAll (width : Nat) : List Node → List Node
  | [] => []
  | node :: nodes => Node.move width node :: moveAll width nodes

end

instance : Moves Node := ⟨Node.move⟩

instance : Moves Heredoc.Request :=
  ⟨fun width request => { request with redirectStart := request.redirectStart + width }⟩

instance : Moves Heredoc.Extent := ⟨fun width e => ⟨moved width e.body, moved width e.delimiter⟩⟩

instance : Moves Grammar.TextRun :=
  ⟨fun width run => ⟨moved width run.parts, run.start + width, run.place + width⟩⟩

/-! ### The parts of what is moved -/

@[simp]
theorem moved_bool (b : Bool) : moved width b = b := rfl

@[simp]
theorem moved_nat (offset : Nat) : moved width offset = offset + width := rfl

theorem moved_beq (m n : Nat) : (m + width == n + width) = (m == n) := by
  rw [Bool.eq_iff_iff]
  simp

@[simp]
theorem moved_start (s : Span) : (moved width s).start = s.start + width := rfl

@[simp]
theorem moved_stop (s : Span) : (moved width s).stop = s.stop + width := rfl

theorem moved_ofWidth (start length : Nat) :
    moved width (Span.ofWidth start length) = .ofWidth (start + width) length := by
  simp only [Span.ofWidth, moved, Nat.add_right_comm]

theorem moved_empty (offset : Nat) :
    moved width (Span.empty offset) = .empty (offset + width) := rfl

theorem between_moved (start stop : Nat) :
    Span.between (start + width) (stop + width) = (Span.between start stop).map (moved width) := by
  unfold Span.between
  simp only [Nat.add_le_add_iff_right]
  split <;> rfl

theorem moved_isEmpty (s : Span) : (moved width s).isEmpty = s.isEmpty := by
  rw [Bool.eq_iff_iff]
  simp [Span.isEmpty]

@[simp]
theorem moved_none : moved width (none : Option α) = none := rfl

@[simp]
theorem moved_some (a : α) : moved width (some a) = some (moved width a) := rfl

@[simp]
theorem moved_nil : moved width ([] : List α) = [] := rfl

@[simp]
theorem moved_cons (a : α) (as : List α) :
    moved width (a :: as) = moved width a :: moved width as := rfl

@[simp]
theorem moved_append (as bs : List α) :
    moved width (as ++ bs) = moved width as ++ moved width bs := List.map_append

@[simp]
theorem isEmpty_moved (as : List α) : (moved width as).isEmpty = as.isEmpty := List.isEmpty_map

@[simp]
theorem length_moved (as : List α) : (moved width as).length = as.length := List.length_map _

theorem getLast?_moved (as : List α) :
    (moved width as).getLast? = moved width as.getLast? := List.getLast?_map

theorem all_moved {p : α → Bool} (hp : ∀ a, p (moved width a) = p a) (as : List α) :
    (moved width as).all p = as.all p := by
  induction as with
  | nil => rfl
  | cons a as ih => simp [hp, ih]

@[simp]
theorem moved_toList (a : Option α) : moved width a.toList = (moved width a).toList := by
  cases a <;> rfl

@[simp]
theorem moved_pair (a : α) (b : β) : moved width (a, b) = (moved width a, moved width b) := rfl

@[simp]
theorem moved_done (a : α) : moved width (ForInStep.done a) = .done (moved width a) := rfl

@[simp]
theorem moved_yield (a : α) : moved width (ForInStep.yield a) = .yield (moved width a) := rfl

end

namespace Token

variable {width : Nat}

@[simp]
theorem moved_kind (tok : Token) : (moved width tok).kind = tok.kind := rfl

@[simp]
theorem moved_span (tok : Token) : (moved width tok).span = moved width tok.span := rfl

@[simp]
theorem moved_text (tok : Token) : (moved width tok).text = tok.text := rfl

@[simp]
theorem moved_isOneOf (tok : Token) (operators : List String) :
    (moved width tok).isOneOf operators = tok.isOneOf operators := rfl

@[simp]
theorem moved_isEof (tok : Token) : (moved width tok).isEof = tok.isEof := rfl

end Token

namespace Heredoc

variable {width : Nat}

@[simp]
theorem moved_delimiter (request : Request) :
    (moved width request).delimiter = request.delimiter := rfl

@[simp]
theorem moved_stripTabs (request : Request) :
    (moved width request).stripTabs = request.stripTabs := rfl

theorem resumeAt_moved (extent : Extent) :
    (moved width extent).resumeAt = extent.resumeAt + width := by
  obtain ⟨body, delimiter⟩ := extent
  cases delimiter <;> rfl

end Heredoc

namespace Node

variable {width : Nat}

theorem moveAll_eq (nodes : List Node) : moveAll width nodes = moved width nodes := by
  induction nodes with
  | nil => rw [moveAll]; rfl
  | cons node nodes ih => rw [moveAll, ih]; rfl

theorem moved_mk (kind : NodeKind) (span : Span) (children : List Node) :
    moved width (⟨kind, span, children⟩ : Node) =
      ⟨kind, moved width span, moved width children⟩ := by
  rw [← moveAll_eq]
  exact move.eq_1 _ _ _ _

@[simp]
theorem moved_leaf (kind : NodeKind) (span : Span) :
    moved width (leaf kind span) = leaf kind (moved width span) := moved_mk _ _ _

@[simp]
theorem moved_kind (node : Node) : (moved width node).kind = node.kind := by
  obtain ⟨kind, span, children⟩ := node
  rw [moved_mk]

@[simp]
theorem moved_span (node : Node) : (moved width node).span = moved width node.span := by
  obtain ⟨kind, span, children⟩ := node
  rw [moved_mk]

@[simp]
theorem moved_children (node : Node) :
    (moved width node).children = moved width node.children := by
  obtain ⟨kind, span, children⟩ := node
  rw [moved_mk]

@[simp]
theorem moved_isLeaf (node : Node) : (moved width node).isLeaf = node.isLeaf := by
  simp [isLeaf]

@[simp]
theorem moved_isError (node : Node) : (moved width node).isError = node.isError := by
  simp [isError]

end Node

end ShellTree
