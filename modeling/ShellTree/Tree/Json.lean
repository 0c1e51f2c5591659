import ShellTree.Json.Basic
import ShellTree.Tree

/-!
This module contains the JSON form of trees and reports.
-/

namespace ShellTree

def Span.toJson (span : Span) : Json :=
  .object [("start", .natural span.start), ("end", .natural span.stop)]

namespace Node

mutual

def toJson : Node → Json
  | ⟨kind, span, []⟩ => .object [("kind", .string kind.name), ("span", span.toJson)]
  | ⟨kind, span, child :: children⟩ =>
    .object
      [("kind", .string kind.name), ("span", span.toJson),
       ("children", .array (toJson child :: toJsonAll children))]

def toJsonAll : List Node → List Json
  | [] => []
  | node :: nodes => toJson node :: toJsonAll nodes

end

end Node

def ErrorRecord.toJson (error : ErrorRecord) : Json :=
  .object
    [("kind", .string error.kind.key), ("span", error.span.toJson), ("line", .natural error.line),
     ("column", .natural error.column), ("message", .string error.message)]

def Tree.toJson (tree : Tree) : Json :=
  .object [("root", tree.root.toJson), ("errors", .array (tree.errors.map ErrorRecord.toJson))]

end ShellTree
