import ShellTree.Proofs.Shape

/-!
This module contains the reader of s-expressions. What it reads of the s-expression of a tree is the
tree of the names of its named nodes: nothing named is below an anonymous node, comments included.
-/

namespace ShellTree

/-- A tree of names. -/
structure Skeleton where
  name : String
  children : List Skeleton

namespace Skeleton

/-- Read the rest of an s-expression, of which the nodes are open, the innermost first. -/
def readFrom : List Skeleton → List Char → Option Skeleton
  | [], _ => none
  | _ :: _, [] => none
  | node :: outer, c :: cs =>
    if c == ')' then
      match outer with
      | [] => if cs.isEmpty then some node else none
      | parent :: outer => readFrom (⟨parent.name, parent.children ++ [node]⟩ :: outer) cs
    else if c == ' ' then
      match cs with
      | '(' :: cs => readFrom (⟨"", []⟩ :: node :: outer) cs
      | _ => none
    else if c != '(' && node.children.isEmpty then
      readFrom (⟨node.name.push c, []⟩ :: outer) cs
    else
      none

def ofSexp? (text : String) : Option Skeleton :=
  match text.toList with
  | '(' :: cs => readFrom [⟨"", []⟩] cs
  | _ => none

end Skeleton

namespace Node

mutual

/-- What is left of a node without the anonymous nodes. What is below them takes their place. -/
def skeletons : Node → List Skeleton
  | ⟨kind, _, children⟩ =>
    if kind.isNamed then [⟨kind.name, skeletonsAll children⟩] else skeletonsAll children

def skeletonsAll : List Node → List Skeleton
  | [] => []
  | node :: nodes => skeletons node ++ skeletonsAll nodes

end

/-- Nothing is below the node if it is anonymous. -/
def HidesNothing (node : Node) : Prop := node.isNamed = false → node.children = []

end Node

/-! ### Names -/

/-- The character can stand in the name of a named node. -/
def isSexpNameChar (c : Char) : Bool := c != '(' && c != ')' && c != ' '

theorem NodeKind.all_name {kind : NodeKind} (h : kind.isNamed = true) :
    kind.name.toList.all isSexpNameChar = true := by
  cases kind with
  | token text => simp [isNamed] at h
  | content => simp [isNamed] at h
  | _ => decide +kernel

namespace Skeleton

variable {node parent : Skeleton} {outer : List Skeleton} {name : String} {cs rest : List Char}

theorem readFrom_name (hcs : cs.all isSexpNameChar) :
    readFrom (⟨name, []⟩ :: outer) (cs ++ rest) =
      readFrom (⟨name ++ String.ofList cs, []⟩ :: outer) rest := by
  induction cs generalizing name with
  | nil => simp
  | cons c cs ih =>
    simp only [List.all_cons, Bool.and_eq_true, isSexpNameChar, bne_iff_ne] at hcs
    obtain ⟨⟨⟨hopen, hclose⟩, hspace⟩, hcs⟩ := hcs
    have hname : name.push c ++ String.ofList cs = name ++ String.ofList (c :: cs) := by
      rw [← String.toList_inj]
      simp
    rw [← hname, ← ih hcs, List.cons_append, readFrom.eq_def]
    simp [hopen, hclose, hspace]

theorem readFrom_space :
    readFrom (node :: outer) (' ' :: '(' :: rest) = readFrom (⟨"", []⟩ :: node :: outer) rest := by
  rw [readFrom.eq_def]
  rfl

theorem readFrom_close :
    readFrom (node :: parent :: outer) (')' :: rest) =
      readFrom (⟨parent.name, parent.children ++ [node]⟩ :: outer) rest := by
  rw [readFrom.eq_def]
  rfl

theorem readFrom_last : readFrom [node] [')'] = some node := rfl

end Skeleton

namespace Node

variable {node : Node} {nodes : List Node} {parent : Skeleton} {outer : List Skeleton}
variable {name : String} {children : List Skeleton} {rest : List Char}

theorem skeletons_of_isNamed (h : node.isNamed = true) :
    node.skeletons = [⟨node.kind.name, skeletonsAll node.children⟩] := by
  obtain ⟨kind, span, children⟩ := node
  have h : kind.isNamed = true := h
  rw [skeletons, if_pos h]

/-- An anonymous node leaves nothing where nothing is below it. -/
theorem HidesNothing.skeletons_eq (h : node.HidesNothing) (hnamed : node.isNamed = false) :
    node.skeletons = [] := by
  have hchildren := h hnamed
  obtain ⟨kind, span, children⟩ := node
  dsimp only at hchildren
  rw [skeletons, if_neg (by simpa [isNamed] using hnamed), hchildren, skeletonsAll]

theorem toList_sexp (node : Node) : node.sexp.toList =
    '(' :: (node.kind.name.toList ++ ((sexpAll node.children).toList ++ [')'])) := by
  obtain ⟨kind, span, children⟩ := node
  rw [sexp]
  simp

/-! ### Reading -/

mutual

theorem readFrom_sexp : (node : Node) → node.isNamed = true → All HidesNothing node.children →
    ∀ (parent : Skeleton) (outer : List Skeleton) (rest : List Char),
      Skeleton.readFrom (parent :: outer) (' ' :: (node.sexp.toList ++ rest)) =
        Skeleton.readFrom (⟨parent.name, parent.children ++ node.skeletons⟩ :: outer) rest
  | ⟨kind, span, children⟩, hnamed, hbelow, parent, outer, rest => by
    rw [skeletons_of_isNamed hnamed, toList_sexp, List.cons_append, Skeleton.readFrom_space,
      List.append_assoc, Skeleton.readFrom_name (NodeKind.all_name hnamed), List.append_assoc,
      readFrom_sexpAll children hbelow, List.nil_append, List.singleton_append,
      Skeleton.readFrom_close]
    simp

theorem readFrom_sexpAll : (nodes : List Node) → All HidesNothing nodes →
    ∀ (name : String) (before outer : List Skeleton) (rest : List Char),
      Skeleton.readFrom (⟨name, before⟩ :: outer) ((sexpAll nodes).toList ++ rest) =
        Skeleton.readFrom (⟨name, before ++ skeletonsAll nodes⟩ :: outer) rest
  | [], _, name, before, outer, rest => by simp [sexpAll, skeletonsAll]
  | node :: nodes, h, name, before, outer, rest => by
    obtain ⟨hnode, hbelow, hrest⟩ := all_cons.1 h
    rw [sexpAll, skeletonsAll]
    cases hnamed : node.isNamed with
    | true =>
      have hsexp : (" " ++ node.sexp ++ sexpAll nodes).toList ++ rest =
          ' ' :: (node.sexp.toList ++ ((sexpAll nodes).toList ++ rest)) := by simp
      rw [if_pos rfl, hsexp, readFrom_sexp node hnamed hbelow, readFrom_sexpAll nodes hrest,
        List.append_assoc]
    | false =>
      rw [if_neg (by simp), hnode.skeletons_eq hnamed, List.nil_append, String.empty_append]
      exact readFrom_sexpAll nodes hrest name before outer rest

end

theorem ofSexp?_sexp (hnamed : node.isNamed = true) (hbelow : All HidesNothing node.children) :
    Skeleton.ofSexp? node.sexp = some ⟨node.kind.name, skeletonsAll node.children⟩ := by
  unfold Skeleton.ofSexp?
  simp only [toList_sexp]
  rw [Skeleton.readFrom_name (NodeKind.all_name hnamed), readFrom_sexpAll node.children hbelow,
    Skeleton.readFrom_last, String.empty_append, String.ofList_toList, List.nil_append]

/-! ### Parentheses -/

theorem count_name {kind : NodeKind} (h : kind.isNamed = true) :
    kind.name.toList.count '(' = 0 := by
  rw [List.count_eq_zero]
  intro hmem
  have hc := List.all_eq_true.1 (NodeKind.all_name h) _ hmem
  simp [isSexpNameChar] at hc

mutual

/-- An s-expression has one opening parenthesis for each named node. -/
theorem count_sexp : (node : Node) → node.isNamed = true → All HidesNothing node.children →
    node.sexp.toList.count '(' = node.preorder.countP isNamed
  | ⟨kind, span, children⟩, hnamed, hbelow => by
    have hname := count_name hnamed
    have hchildren := count_sexpAll children hbelow
    rw [preorder, List.countP_cons_of_pos hnamed, ← hchildren, toList_sexp]
    simp [hname]

theorem count_sexpAll : (nodes : List Node) → All HidesNothing nodes →
    (sexpAll nodes).toList.count '(' = (preorderAll nodes).countP isNamed
  | [], _ => by simp [sexpAll, preorderAll]
  | node :: nodes, h => by
    obtain ⟨hnode, hbelow, hrest⟩ := all_cons.1 h
    have ih := count_sexpAll nodes hrest
    rw [sexpAll, preorderAll, List.countP_append, ← ih]
    cases hnamed : node.isNamed with
    | true =>
      rw [← count_sexp node hnamed hbelow]
      simp
    | false =>
      rw [preorder_eq, hnode hnamed, preorderAll]
      simp [hnamed]

end

theorem isText_of_not_isNamed {kind : NodeKind} (h : kind.isNamed = false) :
    kind.isText = true := by
  cases kind <;> first | rfl | simp [NodeKind.isNamed] at h

end Node

/-! ### Main results -/

variable {src : Source} {options : Options} {token : Option Bool} {tree : Tree}

theorem IsParse.hidesNothing {env : Parse.Env} {bare : Node} {final : Parse.State}
    (h : IsParse env bare final tree) : Node.All Node.HidesNothing tree.root.children :=
  fun _ hnode hnamed => (h.isShaped hnode).isLeaf (Node.isText_of_not_isNamed hnamed)

/-- The s-expression of a tree is read as what is left of the tree without its anonymous nodes, of
which nothing is below. -/
theorem parse_skeleton (h : parse src options token = .ok tree) :
    (∃ skeleton, Skeleton.ofSexp? tree.sexp = some skeleton ∧
      tree.root.skeletons = [skeleton]) ∧
    tree.sexp.toList.count '(' = tree.root.descendants.countP Node.isNamed ∧
    ∀ node ∈ tree.root.descendants, node.isNamed = false →
      ∀ below ∈ node.descendants, below.isNamed = false := by
  obtain ⟨bare, final, _, hparse⟩ := isParse_of_parse h
  have hbelow := hparse.hidesNothing
  have hnamed : tree.root.isNamed = true := by
    rw [Node.isNamed, hparse.fits.kind_eq]
    rfl
  refine ⟨⟨_, Node.ofSexp?_sexp hnamed hbelow, Node.skeletons_of_isNamed hnamed⟩, ?_, ?_⟩
  . rw [Node.descendants_eq_preorder]
    exact Node.count_sexp tree.root hnamed hbelow
  . intro node hnode hanonymous below hmem
    have hnode := (hparse.of_mem_descendants hnode).resolve_left fun hkind => by
      simp [Node.isNamed, hkind, NodeKind.isNamed] at hanonymous
    rw [Node.descendants_eq, hbelow node hnode hanonymous, Node.preorderAll,
      List.mem_singleton] at hmem
    rw [hmem, hanonymous]

theorem parse_skeleton_comment :
    ∃ tree, parse (.ofString "a \"b\" # c") = .ok tree ∧
      (∃ skeleton, Skeleton.ofSexp? tree.sexp = some skeleton ∧
        tree.root.skeletons = [skeleton]) ∧
      tree.sexp.toList.count '(' = tree.root.descendants.countP Node.isNamed := by
  have hok : (parse (.ofString "a \"b\" # c")).isOk := by decide +kernel
  obtain ⟨tree, htree⟩ := exists_eq_ok hok
  exact ⟨tree, htree, (parse_skeleton htree).1, (parse_skeleton htree).2.1⟩

end ShellTree
