import ShellTree.Diagnostic
import ShellTree.Proofs.Text
import ShellTree.Proofs.Traversal
import ShellTree.Token

/-!
This module contains what closes a construct and what fills a text, as conditions on single nodes. A
parse accounts for the nodes that are not closed or filled by its reports: with none, every node is,
and an error stands only where a report begins. It accounts in the same way for the assignments
without an operator.
-/

namespace ShellTree

/-! ### Reports -/

/-- The report is about a place of the text and not about the rest of it. -/
def Cause.isLocal (cause : Cause) : Bool :=
  cause.kind == .lexFailure || cause.kind == .syntaxError

/-- A report begins at the offset and covers something. -/
def ReportedAt (diagnostics : List Diagnostic) (offset : Nat) : Prop :=
  ∃ diagnostic ∈ diagnostics, diagnostic.cause.isLocal ∧ diagnostic.span.start = offset ∧
    offset < diagnostic.span.stop

theorem ReportedAt.mono {diagnostics more : List Diagnostic} {offset : Nat}
    (h : ReportedAt diagnostics offset) (hmore : diagnostics <+: more) :
    ReportedAt more offset := by
  obtain ⟨diagnostic, hmem, hat⟩ := h
  exact ⟨diagnostic, hmore.subset hmem, hat⟩

theorem ReportedAt.ne_nil {diagnostics : List Diagnostic} {offset : Nat}
    (h : ReportedAt diagnostics offset) : diagnostics ≠ [] := by
  obtain ⟨diagnostic, hmem, _⟩ := h
  exact List.ne_nil_of_mem hmem

/-- Something is reported, and where the nodes cover something a report begins with them. -/
structure Explained (diagnostics : List Diagnostic) (nodes : List Node) : Prop where
  ne_nil : diagnostics ≠ []
  reported : ∀ first ∈ nodes.head?, ∀ last ∈ nodes.getLast?, first.span.start < last.span.stop →
    ReportedAt diagnostics first.span.start

theorem ReportedAt.explained {diagnostics : List Diagnostic} {first : Node} {nodes : List Node}
    (h : ReportedAt diagnostics first.span.start) (hfirst : first ∈ nodes.head?) :
    Explained diagnostics nodes := by
  refine ⟨h.ne_nil, fun node hnode _ _ _ => ?_⟩
  rwa [Option.mem_unique hnode hfirst]

/-! ### Closers -/

def StartsWith (text : String) (nodes : List Node) : Prop :=
  ∃ first ∈ nodes.head?, first.kind = .token text

def EndsWith (text : String) (nodes : List Node) : Prop :=
  ∃ last ∈ nodes.getLast?, last.kind = .token text

theorem EndsWith.append {text : String} {nodes : List Node} (h : EndsWith text nodes)
    (front : List Node) : EndsWith text (front ++ nodes) := by
  obtain ⟨last, hlast, hkind⟩ := h
  rw [Option.mem_def] at hlast
  exact ⟨last, by rw [List.getLast?_append, hlast]; rfl, hkind⟩

theorem endsWith_singleton {text : String} {node : Node} (h : node.kind = .token text) :
    EndsWith text [node] := ⟨node, rfl, h⟩

theorem startsWith_cons {text : String} {node : Node} {nodes : List Node}
    (h : node.kind = .token text) : StartsWith text (node :: nodes) := ⟨node, rfl, h⟩

/-- No node is a token that can close a substitution. -/
def NoCloser (nodes : List Node) : Prop :=
  ∀ node ∈ nodes, node.kind ≠ .token ")" ∧ node.kind ≠ .token "`"

theorem NoCloser.append {nodes siblings : List Node} (h : NoCloser nodes)
    (h' : NoCloser siblings) : NoCloser (nodes ++ siblings) :=
  fun node hnode => (List.mem_append.1 hnode).elim (h node) (h' node)

theorem NoCloser.dropLast_append {nodes close : List Node} (h : NoCloser nodes)
    (hclose : close.length ≤ 1) : NoCloser (nodes ++ close).dropLast := by
  cases close with
  | nil =>
    rw [List.append_nil]
    exact fun node hnode => h node (List.dropLast_subset nodes hnode)
  | cons last more =>
    obtain rfl : more = [] := by simpa using hclose
    rwa [List.dropLast_concat]

theorem NoCloser.not_endsWith {nodes : List Node} (h : NoCloser nodes) :
    ¬EndsWith ")" nodes ∧ ¬EndsWith "`" nodes := by
  refine ⟨?_, ?_⟩
  . rintro ⟨last, hlast, hkind⟩
    exact (h last (List.mem_of_getLast? hlast)).1 hkind
  . rintro ⟨last, hlast, hkind⟩
    exact (h last (List.mem_of_getLast? hlast)).2 hkind

/-- The rest of an ANSI-C string up to its closing quote: every quote in it is hidden by a
backslash. -/
inductive AnsiCBody : List Char → Prop where
  | nil : AnsiCBody []
  | escape {c : Char} {cs : List Char} : AnsiCBody cs → AnsiCBody ('\\' :: c :: cs)
  | plain {c : Char} {cs : List Char} :
    c ≠ '\\' → c ≠ '\'' → AnsiCBody cs → AnsiCBody (c :: cs)

namespace NodeKind

def isLoopBody : NodeKind → Bool
  | .doGroup | .compoundStatement => true
  | _ => false

/-- Leaves of the kind open nothing and can be of any text. -/
def isBare : NodeKind → Bool
  | .word | .number | .variableName | .specialVariableName | .testOperator | .regex
  | .content => true
  | _ => false

/-- Nodes of the kind need no children. -/
def standsAlone : NodeKind → Bool
  | .error | .variableAssignment | .string | .heredocBody => false
  | _ => true

/-- Nodes of the kind can be the bodies of functions. -/
def isCompound : NodeKind → Bool
  | .compoundStatement | .subshell | .testCommand | .ifStatement | .whileStatement
  | .forStatement | .cStyleForStatement | .caseStatement => true
  | _ => false

/-- Nodes of the kind can have any children, if they have some. -/
def isLoose : NodeKind → Bool
  | .redirectedStatement | .elifClause | .elseClause | .caseItem | .variableAssignments
  | .declarationCommand | .unsetCommand | .command | .commandName | .fileRedirect
  | .heredocRedirect | .herestringRedirect | .binaryExpression | .unaryExpression
  | .binaryArithmeticExpression | .unaryArithmeticExpression | .postfixArithmeticExpression
  | .ternaryArithmeticExpression | .simpleExpansion | .stringExpansion => true
  | _ => false

end NodeKind

/-- What the node opens it closes. A closer is another child than the first, which may look the
same; tokens and strings in single quotes are leaves and closed by their text. -/
def Node.IsClosed (src : Source) (node : Node) : Prop :=
  match node.kind with
  | .ifStatement => EndsWith "fi" node.children.tail
  | .doGroup => StartsWith "do" node.children ∧ EndsWith "done" node.children.tail
  | .caseStatement => EndsWith "esac" node.children.tail
  | .compoundStatement | .expansion => EndsWith "\x7d" node.children.tail
  | .subshell | .array | .processSubstitution | .parenthesizedExpression
  | .parenthesizedArithmeticExpression => EndsWith ")" node.children.tail
  | .commandSubstitution =>
    StartsWith "$(" node.children ∧ EndsWith ")" node.children.tail ∨
      StartsWith "`" node.children ∧ EndsWith "`" node.children.tail
  | .string => EndsWith "\"" node.children.tail
  | .subscript => EndsWith "]" node.children.tail
  | .arithmeticExpansion => EndsWith "))" node.children.tail
  | .testCommand =>
    StartsWith "[" node.children ∧ EndsWith "]" node.children.tail ∨
      StartsWith "[[" node.children ∧ EndsWith "]]" node.children.tail ∨
      StartsWith "((" node.children ∧ EndsWith "))" node.children.tail
  | .forStatement | .cStyleForStatement | .whileStatement =>
    ∃ body ∈ node.children, body.kind.isLoopBody
  | .functionDefinition => ∃ body ∈ node.children, body.kind.isCompound
  | .rawString => ∃ body, src.Spells node.span.start node.span.stop ('\'' :: body ++ ['\''])
  | .ansiCString => ∃ body, AnsiCBody body ∧
    src.Spells node.span.start node.span.stop ('$' :: '\'' :: body ++ ['\''])
  | .token text => src.Spells node.span.start node.span.stop text.toList
  | .error => False
  | _ => True

/-- The text of the token closes what it opens. The end of the input is no such token. -/
def Token.IsWhole (tok : Token) : Prop :=
  match tok.kind with
  | .eof => False
  | .rawString => ∃ body, tok.text.toList = '\'' :: body ++ ['\'']
  | .ansiCString => ∃ body, AnsiCBody body ∧ tok.text.toList = '$' :: '\'' :: body ++ ['\'']
  | _ => True

/-! ### Assignments -/

namespace Node

variable {diagnostics more : List Diagnostic} {nodes : List Node}

/-- The second of the nodes is the operator of an assignment. -/
def HasOperator (nodes : List Node) : Prop :=
  ∃ target operator value, nodes = target :: operator :: value ∧
    (operator.kind = .token "=" ∨ operator.kind = .token "+=")

/-- The only node is a subscript, and behind it the operator is reported to be missing. -/
def LacksOperator (diagnostics : List Diagnostic) (nodes : List Node) : Prop :=
  ∃ target, nodes = [target] ∧ target.kind = .subscript ∧
    ∃ diagnostic ∈ diagnostics, diagnostic.cause = .expectedEqualsInAssignment ∧
      target.span.stop ≤ diagnostic.span.start

/-- What an assignment is made of. -/
def Assigns (diagnostics : List Diagnostic) (nodes : List Node) : Prop :=
  HasOperator nodes ∨ LacksOperator diagnostics nodes

theorem LacksOperator.mono (h : LacksOperator diagnostics nodes) (hmore : diagnostics <+: more) :
    LacksOperator more nodes := by
  obtain ⟨target, hnodes, hkind, diagnostic, hmem, hcause⟩ := h
  exact ⟨target, hnodes, hkind, diagnostic, hmore.subset hmem, hcause⟩

theorem Assigns.mono (h : Assigns diagnostics nodes) (hmore : diagnostics <+: more) :
    Assigns more nodes := h.imp_right fun hlacks => hlacks.mono hmore

end Node

/-! ### Fillings -/

namespace Node

variable {nodes siblings : List Node} {start middle stop : Nat}

/-- The nodes fill the span from the start to the stop. -/
def Abuts (start : Nat) : List Node → Nat → Prop
  | [], stop => start = stop
  | node :: nodes, stop => node.span.start = start ∧ Abuts node.span.stop nodes stop

theorem Abuts.append (h : Abuts start nodes middle) (h' : Abuts middle siblings stop) :
    Abuts start (nodes ++ siblings) stop := by
  induction nodes generalizing start with
  | nil =>
    obtain rfl : start = middle := h
    exact h'
  | cons node nodes ih => exact ⟨h.1, ih h.2⟩

/-- The nodes leave out nothing of a text: what is no fragment is content or a quote. -/
structure Fills (start : Nat) (nodes : List Node) (stop : Nat) : Prop where
  abuts : Abuts start nodes stop
  content : ∀ node ∈ nodes, node.children = [] → node.kind = .content ∨ node.kind = .token "\""

theorem Fills.append (h : Fills start nodes middle) (h' : Fills middle siblings stop) :
    Fills start (nodes ++ siblings) stop where
  abuts := h.abuts.append h'.abuts
  content node hnode := (List.mem_append.1 hnode).elim (h.content node) (h'.content node)

theorem fills_singleton {node : Node} (hstart : node.span.start = start)
    (hstop : node.span.stop = stop)
    (hcontent : node.children = [] → node.kind = .content ∨ node.kind = .token "\"") :
    Fills start [node] stop :=
  ⟨⟨hstart, hstop⟩, by simpa using hcontent⟩

theorem Abuts.stop_le {bound : Nat} (h : Abuts start nodes stop)
    (hnodes : ∀ node ∈ nodes, node.span.stop ≤ bound) (hstart : start ≤ bound) :
    stop ≤ bound := by
  induction nodes generalizing start with
  | nil =>
    obtain rfl : start = stop := h
    exact hstart
  | cons node nodes ih =>
    rw [List.forall_mem_cons] at hnodes
    exact ih h.2 hnodes.2 hnodes.1

/-- What a text is made of fills it. Where a string begins and ends its quotes say. -/
def IsFilled (node : Node) : Prop :=
  match node.kind with
  | .string => StartsWith "\"" node.children ∧ ∃ start stop, Fills start node.children stop
  | .heredocBody => Fills node.span.start node.children node.span.stop
  | _ => True

end Node

/-! ### Accounts -/

/-- The reports account for the node. Without any it is closed and filled, and at an error there is
one. -/
structure Node.Settled (src : Source) (diagnostics : List Diagnostic) (node : Node) : Prop where
  closed : diagnostics = [] → node.IsClosed src
  reported : node.kind = .error → node.span.start < node.span.stop →
    ReportedAt diagnostics node.span.start
  assigns : node.kind = .variableAssignment → Assigns diagnostics node.readChildren
  filled : diagnostics = [] → node.IsFilled

def Node.AllSettled (src : Source) (diagnostics : List Diagnostic) : List Node → Prop :=
  Node.All (·.Settled src diagnostics)

namespace Node

variable {src : Source} {diagnostics more : List Diagnostic} {node : Node} {kind : NodeKind}
variable {span : Span} {nodes : List Node}

theorem Settled.mono (h : node.Settled src diagnostics) (hmore : diagnostics <+: more) :
    node.Settled src more where
  closed hclean := h.closed (List.prefix_nil.1 (hclean ▸ hmore))
  reported hkind hspan := (h.reported hkind hspan).mono hmore
  assigns hkind := (h.assigns hkind).mono hmore
  filled hclean := h.filled (List.prefix_nil.1 (hclean ▸ hmore))

theorem settled_of_ne_error (hkind : node.kind ≠ .error)
    (hclosed : diagnostics = [] → node.IsClosed src)
    (hassigns : node.kind = .variableAssignment → Assigns diagnostics node.readChildren)
    (hfilled : diagnostics = [] → node.IsFilled) : node.Settled src diagnostics :=
  ⟨hclosed, fun herror => absurd herror hkind, hassigns, hfilled⟩

theorem settled_of_standsAlone (hkind : node.kind.standsAlone)
    (hclosed : diagnostics = [] → node.IsClosed src) : node.Settled src diagnostics := by
  refine settled_of_ne_error ?_ hclosed ?_ fun _ => ?_
  . intro herror
    simp [herror, NodeKind.standsAlone] at hkind
  . intro hassignment
    simp [hassignment, NodeKind.standsAlone] at hkind
  . unfold IsFilled
    split
    . next hstring => simp [hstring, NodeKind.standsAlone] at hkind
    . next hbody => simp [hbody, NodeKind.standsAlone] at hkind
    . trivial

theorem settled_of_reportedAt (hkind : node.kind = .error)
    (hreported : ReportedAt diagnostics node.span.start) : node.Settled src diagnostics :=
  ⟨fun hclean => absurd hclean hreported.ne_nil, fun _ _ => hreported, by simp [hkind],
    fun hclean => absurd hclean hreported.ne_nil⟩

theorem settled_of_explained {first last : Node} (h : Explained diagnostics nodes)
    (hfirst : first ∈ nodes.head?) (hlast : last ∈ nodes.getLast?)
    (hstart : span.start = first.span.start) (hstop : span.stop = last.span.stop) :
    Settled src diagnostics ⟨.error, span, nodes⟩ := by
  refine ⟨fun hclean => absurd hclean h.ne_nil, fun _ hspan => ?_, by simp,
    fun hclean => absurd hclean h.ne_nil⟩
  dsimp only at hspan ⊢
  rw [hstart, hstop] at hspan
  rw [hstart]
  exact h.reported first hfirst last hlast hspan

theorem AllSettled.mono (h : AllSettled src diagnostics nodes) (hmore : diagnostics <+: more) :
    AllSettled src more nodes := h.imp fun _ hsettled => hsettled.mono hmore

end Node

end ShellTree
