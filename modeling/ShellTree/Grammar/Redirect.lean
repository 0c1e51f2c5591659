import ShellTree.Grammar.Literal

/-!
This module contains redirects, here-documents among them.
-/

namespace ShellTree

def Token.isRedirectStart (tok : Token) : Bool :=
  tok.kind = .fileDescriptor || tok.isOneOf Operator.redirects

namespace Grammar

open Parse

/-- A here-document operator, but not a here-string operator, opens the characters. -/
def opensHeredoc : List Char → Bool
  | '<' :: '<' :: '<' :: _ => false
  | '<' :: '<' :: _ => true
  | _ => false

def isHeredocStart (tok : Token) : Parse Bool := do
  match tok.kind with
  | .operator op => return Operator.heredocs.contains op
  | .fileDescriptor => return opensHeredoc (← charactersAt tok.span.stop)
  | _ => return false

def redirectTarget (inner : Nested) (op : String) : Parse (List Node) := do
  let tok ← peek
  match ← inner.literal with
  | some target => return [target]
  | none =>
    report (.expectedTargetAfter op (if tok.isEof then none else some tok.text)) tok.span
    return []

/-- The delimiter after a here-document operator, which asks for a body after the next line break.
Its absence is reported. -/
def heredocMarker (op : String) (redirectStart : Nat) : Parse (List Node) := do
  match ← peekHeredocMarker with
  | some marker =>
    let request := Heredoc.Request.ofMarker marker.text (op == "<<-") redirectStart
    let leaf ← leafAt .heredocStart marker.span
    modify fun s => { s with pending := s.pending ++ [request] }
    return [leaf]
  | none =>
    let tok ← peek
    report (.expectedDelimiterAfter op) tok.span
    return []

/-- A redirect from its operator on. The file descriptor, if there is one, is taken. -/
def redirectFrom (inner : Nested) (descriptor : List Node) (tok : Token) : Parse Node := do
  if tok.isOneOf Operator.redirects then
    let op := tok.text
    let leaf ← tokenLeaf tok
    if Operator.heredocs.contains op then
      let marker ← heredocMarker op tok.span.start
      node .heredocRedirect (descriptor ++ leaf :: marker)
    else
      let target ← redirectTarget inner op
      let kind := if op = "<<<" then NodeKind.herestringRedirect else .fileRedirect
      node kind (descriptor ++ leaf :: target)
  else
    report (.expectedPart .redirectOperator tok.text) tok.span
    node .fileRedirect descriptor

def redirect (inner : Nested) : Parse (Option Node) := do
  let tok ← peek
  if !tok.isRedirectStart then
    return none
  else if tok.kind = .fileDescriptor then
    let descriptor ← tokenLeaf tok
    return some (← redirectFrom inner [descriptor] (← peek))
  else
    return some (← redirectFrom inner [] tok)

def redirects (inner : Nested) : Parse (List Node) :=
  repeatStep step []
where
  step (nodes : List Node) : Parse (ForInStep (List Node)) := do
    match ← redirect inner with
    | some redirect => return .yield (nodes ++ [redirect])
    | none => return .done nodes

end Grammar
end ShellTree
