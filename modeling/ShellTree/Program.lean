import ShellTree.Grammar.StatementList
import ShellTree.Tree

/-!
This module contains the parse of a whole script. It ties the constructs of the grammar together,
reports the here-documents that the end of the input cuts off, covers what a halted parse has not
read, and attaches the comments.
-/

namespace ShellTree
namespace Grammar

/-- The constructs around the constructs that they contain. -/
def constructs (inner : Nested) : Nested where
  statements := statements inner
  statement := statement inner
  redirect := redirect inner
  literal := literal inner
  fragment := fragment inner
  arithmetic := arithmetic inner
  arithmeticOperand := arithmeticOperand inner
  test := test inner
  testOperand := testOperand inner

/-- The constructs of which at most as many are nested as the level says. -/
def nested : Nat → Nested
  | 0 => .none
  | level + 1 => constructs (nested level)

open Parse

def reportPending : Parse Unit := do
  let s ← get
  set { s with pending := [] }
  s.pending.forM fun request =>
    reportUnclosed (.heredocStart request.delimiter) request.redirectStart

/-- What a halted parse has not read, as an error. -/
def unread : Parse (List Node) := do
  let s ← get
  let size := (← source).size
  if s.halted && s.pos < size then
    return [.leaf .error (← spanBetween s.pos size)]
  else
    return []

/-- A whole script without its comments. Nested constructs start at different characters, so the
size of the source bounds their depth. -/
def script : Parse Node := do
  let size := (← source).size
  let nodes ← (nested (size + 2)).statements { topLevel := true }
  reportPending
  let rest ← unread
  return ⟨.program, ← spanBetween 0 size, nodes ++ rest⟩

def program : Parse Node := do
  let root ← script
  return root.attachComments (← get).comments.spans

end Grammar

/-- The tree of a script with the reports about it. The parse stops at once when the caller's token
is cancelled; without a token it is not. -/
def parse (src : Source) (options : Options := {}) (token : Option Bool := none) :
    Except Fault Tree := do
  let env : Parse.Env := ⟨src, options, token.getD false⟩
  let (root, final) ← (Grammar.program env).run {}
  return ⟨src, root, final.diagnostics⟩

end ShellTree
