import ShellTree.Json.Reader

/-!
This module contains the limits of a parse and their JSON form.
-/

namespace ShellTree

/-- The limits of a parse. Without a number of statements there is no limit on them. -/
structure Options where
  maxDepth : Nat := 200
  maxStatements : Option Nat := some 100000
deriving DecidableEq, Repr

namespace Options

def word? : Json → Option Nat
  | .natural n => if n < UInt64.size then some n else none
  | _ => none

def valuesOf (key : String) (members : List (JsonString × Json)) : List Json :=
  members.filterMap fun (k, value) => if k == .text key then some value else none

/-- The limits of an object. A missing limit takes its default, and other members do not count. A
key that spells no text is refused, and so is a limit that is given twice. -/
def ofMembers? (members : List (JsonString × Json)) : Option Options := do
  guard (members.all (·.1.text?.isSome))
  let defaults : Options := {}
  let maxDepth ←
    match valuesOf "max_depth" members with
    | [] => some defaults.maxDepth
    | [value] => word? value
    | _ => none
  let maxStatements ←
    match valuesOf "max_statements" members with
    | [] => some defaults.maxStatements
    | [.null] => some none
    | [value] => (word? value).map some
    | _ => none
  return ⟨maxDepth, maxStatements⟩

def ofJson? : Json → Option Options
  | .object members => ofMembers? members
  | _ => none

def toJson (options : Options) : Json :=
  .object
    [("max_depth", .natural options.maxDepth),
     ("max_statements", (options.maxStatements.map Json.natural).getD .null)]

end Options

end ShellTree
