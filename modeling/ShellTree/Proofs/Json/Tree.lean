import Mathlib.Data.Option.Basic
import ShellTree.Options
import ShellTree.Proofs.Json.Reader
import ShellTree.Tree.Json

/-!
This module contains the way back from the JSON form of a tree. A reader that takes a node without
`children` for one that has none finds the names, the spans and the order of all nodes in the text,
and all reports.
-/

namespace ShellTree

/-! ### Decoders -/

namespace Json

def natural? : Json → Option Nat
  | natural n => some n
  | _ => none

def text? : Json → Option String
  | string value => value.text?
  | _ => none

def items? : Json → Option (List Json)
  | array items => some items
  | _ => none

/-- The value of the only member with the key. Members may come in any order. -/
def member? (key : String) : Json → Option Json
  | object members =>
    match Options.valuesOf key members with
    | [value] => some value
    | _ => none
  | _ => none

end Json

def Span.ofJson? (value : Json) : Option Span := do
  let start ← (← value.member? "start").natural?
  let stop ← (← value.member? "end").natural?
  if h : start ≤ stop then some ⟨start, stop, h⟩ else none

/-- What the JSON form tells of a node: the name of its kind, not the kind. -/
structure Outline where
  name : String
  span : Span
  children : List Outline

namespace Outline

mutual

def ofJson? : Json → Option Outline
  | .object members => do
    let name ← (← Json.member? "kind" (.object members)).text?
    let span ← Span.ofJson? (← Json.member? "span" (.object members))
    let children ← childrenOf? members
    return ⟨name, span, children⟩
  | _ => none

/-- The children among the members of a node. There are none if no member tells them. -/
def childrenOf? : List (JsonString × Json) → Option (List Outline)
  | [] => some []
  | (key, value) :: members =>
    if key = .text "children" then
      match value with
      | .array items => ofJsonAll? items
      | _ => none
    else
      childrenOf? members

def ofJsonAll? : List Json → Option (List Outline)
  | [] => some []
  | item :: items => do return (← ofJson? item) :: (← ofJsonAll? items)

end

end Outline

def ErrorRecord.ofJson? (value : Json) : Option ErrorRecord := do
  let kind ← ErrorKind.ofKey? (← (← value.member? "kind").text?)
  let span ← Span.ofJson? (← value.member? "span")
  let line ← (← value.member? "line").natural?
  let column ← (← value.member? "column").natural?
  let message ← (← value.member? "message").text?
  return ⟨kind, span, line, column, message⟩

/-- What the JSON form tells of a tree. -/
structure Document where
  root : Outline
  errors : List ErrorRecord

namespace Document

def ofJson? (value : Json) : Option Document := do
  let root ← Outline.ofJson? (← value.member? "root")
  let errors ← (← (← value.member? "errors").items?).mapM ErrorRecord.ofJson?
  return ⟨root, errors⟩

def ofText? (text : String) : Option Document := do ofJson? (← Json.parse? text)

end Document

namespace Node

mutual

def outline : Node → Outline
  | ⟨kind, span, children⟩ => ⟨kind.name, span, outlineAll children⟩

def outlineAll : List Node → List Outline
  | [] => []
  | node :: nodes => outline node :: outlineAll nodes

end

end Node

/-! ### Decoding -/

theorem ErrorKind.ofKey?_key (kind : ErrorKind) : ofKey? kind.key = some kind := by
  cases kind <;> rfl

theorem Span.ofJson?_toJson (span : Span) : ofJson? span.toJson = some span := by
  simp [ofJson?, toJson, Json.member?, Options.valuesOf, Json.natural?, span.start_le_stop]

theorem ErrorRecord.ofJson?_toJson (error : ErrorRecord) : ofJson? error.toJson = some error := by
  simp [ofJson?, toJson, Json.member?, Options.valuesOf, Json.natural?, Json.text?,
    JsonString.text?, ErrorKind.ofKey?_key, Span.ofJson?_toJson]

namespace Node

mutual

theorem ofJson?_toJson : ∀ node : Node, Outline.ofJson? node.toJson = some node.outline
  | ⟨kind, span, []⟩ => by
    simp [toJson, outline, outlineAll, Outline.ofJson?, Outline.childrenOf?, Json.member?,
      Options.valuesOf, Json.text?, JsonString.text?, Span.ofJson?_toJson]
  | ⟨kind, span, child :: children⟩ => by
    have hchildren := ofJsonAll?_toJsonAll (child :: children)
    rw [toJsonAll] at hchildren
    simp [toJson, outline, Outline.ofJson?, Outline.childrenOf?, Json.member?,
      Options.valuesOf, Json.text?, JsonString.text?, Span.ofJson?_toJson, hchildren]

theorem ofJsonAll?_toJsonAll :
    ∀ nodes : List Node, Outline.ofJsonAll? (toJsonAll nodes) = some (outlineAll nodes)
  | [] => rfl
  | node :: nodes => by
    simp [toJsonAll, outlineAll, Outline.ofJsonAll?, ofJson?_toJson node,
      ofJsonAll?_toJsonAll nodes]

end

end Node

/-! ### The text -/

theorem Span.toJson_isPlain (span : Span) : span.toJson.IsPlain := by
  simp [toJson, Json.IsPlain, Json.ArePlainMembers, JsonString.text?]

theorem ErrorRecord.toJson_isPlain (error : ErrorRecord) : error.toJson.IsPlain := by
  simp [toJson, Json.IsPlain, Json.ArePlainMembers, JsonString.text?, Span.toJson_isPlain]

namespace Node

mutual

theorem toJson_isPlain : ∀ node : Node, node.toJson.IsPlain
  | ⟨kind, span, []⟩ => by
    simp [toJson, Json.IsPlain, Json.ArePlainMembers, JsonString.text?, Span.toJson_isPlain]
  | ⟨kind, span, child :: children⟩ => by
    have hchildren := toJsonAll_arePlain (child :: children)
    rw [toJsonAll] at hchildren
    simp [toJson, Json.IsPlain, Json.ArePlainMembers, JsonString.text?, Span.toJson_isPlain,
      hchildren]

theorem toJsonAll_arePlain : ∀ nodes : List Node, Json.ArePlain (toJsonAll nodes)
  | [] => trivial
  | node :: nodes => ⟨toJson_isPlain node, toJsonAll_arePlain nodes⟩

end

end Node

theorem Json.arePlain_iff {items : List Json} : ArePlain items ↔ ∀ item ∈ items, item.IsPlain := by
  induction items with
  | nil => simp [ArePlain]
  | cons item items ih => simp [ArePlain, ih]

namespace Tree

variable (tree : Tree)

theorem toJson_isPlain : tree.toJson.IsPlain := by
  simp [toJson, Json.IsPlain, Json.ArePlainMembers, JsonString.text?, Node.toJson_isPlain,
    Json.arePlain_iff, ErrorRecord.toJson_isPlain]

theorem ofJson?_toJson :
    Document.ofJson? tree.toJson = some ⟨tree.root.outline, tree.errors⟩ := by
  have herrors : (tree.errors.map ErrorRecord.toJson).mapM ErrorRecord.ofJson?
      = some tree.errors := by
    induction tree.errors with
    | nil => rfl
    | cons error errors ih => simp [ErrorRecord.ofJson?_toJson, ih]
  simp [Document.ofJson?, toJson, Json.member?, Options.valuesOf, Json.items?,
    Node.ofJson?_toJson, herrors]

/-- The text of the JSON form tells all nodes and all reports of a tree, whatever characters the
names of its nodes and the messages hold. -/
theorem decode_toJson :
    Document.ofText? tree.toJson.render = some ⟨tree.root.outline, tree.errors⟩ := by
  simp [Document.ofText?, Json.parse?_render tree.toJson_isPlain, tree.ofJson?_toJson]

end Tree

end ShellTree
