import ShellTree.Proofs.Frame.Statement

/-!
This module contains the context of a parse around its constructs: whatever a function of the
grammar changes of the modes, the flags and the depth, it changes back before it returns.
-/

namespace ShellTree
namespace Grammar

open Parse

/-- The functions that read a part of a script, with the nodes and tokens that they are given. -/
inductive IsConstruct (inner : Nested) : {α : Type} → Parse α → Prop where
  -- lists and statements
  | statements (ctx : ListContext) : IsConstruct inner (statements inner ctx)
  | recover (ctx : ListContext) : IsConstruct inner (recover inner ctx)
  | terminator? (ctx : ListContext) : IsConstruct inner (terminator? inner ctx)
  | strayCloser (tok : Token) : IsConstruct inner (strayCloser tok)
  | statement (tier : Tier) : IsConstruct inner (statement inner tier)
  | joined (op : StatementOperator) (tok : Token) (left : Node) :
    IsConstruct inner (joined inner op tok left)
  | primaryStatement : IsConstruct inner (primaryStatement inner)
  | primaryBody : IsConstruct inner (primaryBody inner)
  | wordStatement (text : String) : IsConstruct inner (wordStatement inner text)
  | negation : IsConstruct inner (negation inner)
  | statementAfter (op : String) (tier : Tier) : IsConstruct inner (statementAfter inner op tier)
  -- commands
  | command : IsConstruct inner (command inner)
  | declaration : IsConstruct inner (declaration inner)
  | unset : IsConstruct inner (unset inner)
  | assignment : IsConstruct inner (assignment inner)
  | assignedValue : IsConstruct inner (assignedValue inner)
  | array : IsConstruct inner (array inner)
  | redirects : IsConstruct inner (redirects inner)
  | redirect : IsConstruct inner (redirect inner)
  | redirectFrom (descriptor : List Node) (tok : Token) :
    IsConstruct inner (redirectFrom inner descriptor tok)
  | redirectTarget (op : String) : IsConstruct inner (redirectTarget inner op)
  | heredocMarker (op : String) (start : Nat) : IsConstruct inner (heredocMarker op start)
  -- line breaks and here-documents
  | lineBreaks : IsConstruct inner (lineBreaks inner)
  | lineBreak? (keepLeaf : Bool) : IsConstruct inner (lineBreak? inner keepLeaf)
  | pendingBodies : IsConstruct inner (pendingBodies inner)
  | bodies (requests : List Heredoc.Request) (start : Nat) :
    IsConstruct inner (bodies inner requests start)
  | heredocBody (body : Span) (quoted : Bool) : IsConstruct inner (heredocBody inner body quoted)
  | reportPending : IsConstruct inner reportPending
  -- compound commands
  | braceGroup : IsConstruct inner (braceGroup inner)
  | subshell : IsConstruct inner (subshell inner)
  | arithmeticCommand : IsConstruct inner (arithmeticCommand inner)
  | testCommand : IsConstruct inner (testCommand inner)
  | doGroup (construct : Construct) (start : Nat) :
    IsConstruct inner (doGroup inner construct start)
  | whileLoop : IsConstruct inner (whileLoop inner)
  | forLoop : IsConstruct inner (forLoop inner)
  | valueLoop (keyword : Node) (construct : Construct) (start : Nat) :
    IsConstruct inner (valueLoop inner keyword construct start)
  | loopVariable : IsConstruct inner (loopVariable inner)
  | loopValues : IsConstruct inner (loopValues inner)
  | headerLoop (keyword : Node) (start : Nat) : IsConstruct inner (headerLoop inner keyword start)
  | headerLoopBody (start : Nat) : IsConstruct inner (headerLoopBody inner start)
  | headerClauses (start : Nat) : IsConstruct inner (headerClauses inner start)
  | headerClause (allowAssignment : Bool) : IsConstruct inner (headerClause inner allowAssignment)
  | headerAssignment? (name : Token) : IsConstruct inner (headerAssignment? inner name)
  | ifStatement : IsConstruct inner (ifStatement inner)
  | elifClause (tok : Token) : IsConstruct inner (elifClause inner tok)
  | elseClause (tok : Token) : IsConstruct inner (elseClause inner tok)
  | caseStatement : IsConstruct inner (caseStatement inner)
  | caseSubject : IsConstruct inner (caseSubject inner)
  | caseItem : IsConstruct inner (caseItem inner)
  | caseItemBody : IsConstruct inner (caseItemBody inner)
  | keywordFunction : IsConstruct inner (keywordFunction inner)
  | plainFunction? : IsConstruct inner (plainFunction? inner)
  | functionFrom (head : List Node) : IsConstruct inner (functionFrom inner head)
  | functionBody : IsConstruct inner (functionBody inner)
  -- literals
  | literal : IsConstruct inner (literal inner)
  | fragment : IsConstruct inner (fragment inner)
  | fragmentOf (tok : Token) : IsConstruct inner (fragmentOf inner tok)
  | doubleQuoted : IsConstruct inner (doubleQuoted inner)
  | dollar (tok : Token) : IsConstruct inner (dollar inner tok)
  -- expansions and substitutions
  | expansion : IsConstruct inner (expansion inner)
  | expansionBody (start : Nat) : IsConstruct inner (expansionBody inner start)
  | expansionOperator : IsConstruct inner expansionOperator
  | substitutionPattern : IsConstruct inner substitutionPattern
  | parameter : IsConstruct inner (parameter inner)
  | simpleParameter : IsConstruct inner simpleParameter
  | subscript (name : Node) : IsConstruct inner (subscript inner name)
  | commandSubstitution : IsConstruct inner (commandSubstitution inner)
  | processSubstitution : IsConstruct inner (processSubstitution inner)
  | backtickSubstitution : IsConstruct inner (backtickSubstitution inner)
  | arithmeticExpansion : IsConstruct inner (arithmeticExpansion inner)
  -- arithmetic expressions
  | arithmeticBody (construct : Construct) (start : Nat) :
    IsConstruct inner (arithmeticBody inner construct start)
  | arithmetic (minRow : Nat) : IsConstruct inner (arithmetic inner minRow)
  | arithmeticClimb (minRow : Nat) : IsConstruct inner (arithmeticClimb inner minRow)
  | conditional (condition : Node) (question : Token) :
    IsConstruct inner (conditional inner condition question)
  | arithmeticOperand : IsConstruct inner (arithmeticOperand inner)
  | arithmeticUnary (tok : Token) : IsConstruct inner (arithmeticUnary inner tok)
  | arithmeticPostfix : IsConstruct inner (arithmeticPostfix inner)
  | arithmeticPrimary : IsConstruct inner (arithmeticPrimary inner)
  | arithmeticSubscript (name : Node) : IsConstruct inner (arithmeticSubscript inner name)
  | parenthesizedArithmetic (opener : Token) :
    IsConstruct inner (parenthesizedArithmetic inner opener)
  -- tests
  | test : IsConstruct inner (test inner)
  | testRows (rows : List Operator.Row) : IsConstruct inner (testRows inner rows)
  | testOperand : IsConstruct inner (testOperand inner)
  | testOperandBody : IsConstruct inner (testOperandBody inner)
  | testPrimary : IsConstruct inner (testPrimary inner)
  | regexOperand : IsConstruct inner (regexOperand inner)
  | parenthesizedTest (opener : Token) : IsConstruct inner (parenthesizedTest inner opener)
  | testContent (closer : String) (construct : Construct) :
    IsConstruct inner (testContent inner closer construct)
  | testClose (closer : String) (construct : Construct) (start : Nat) :
    IsConstruct inner (testClose inner closer construct start)
  -- what a construct insists on
  | expectOperator (op : String) (construct : Construct) (start : Nat) :
    IsConstruct inner (expectOperator op construct start)
  | expectKeyword (keyword : String) (construct : Construct) (start : Nat) :
    IsConstruct inner (expectKeyword keyword construct start)
  | reportMissing (tok : Token) (expected : String) (construct : Construct) (start : Nat) :
    IsConstruct inner (reportMissing tok expected construct start)

variable {α : Type} {env : Env} {inner : Nested} {depth : Nat} {s s' : State} {m : Parse α} {a : α}

theorem exists_shallow {β : Type} [HasNodes β] (env : Env) (depth : Nat) (b : β) :
    ∃ extra, Shallow env depth extra b :=
  ⟨Node.levelsAll (nodesOf b) + depth, fun _ => Nat.le_add_left _ _⟩

/-- What a construct returns may take one level more than there are, that of the statement or
fragment that it is, and what the nodes that it is given take besides. -/
theorem IsConstruct.exists_frames (hm : IsConstruct inner m) (h : inner.Framed env) :
    ∃ (_ : HasNodes α) (extra : Nat), Frames env depth extra m := by
  cases hm with
  | statements ctx => exact ⟨_, 1, statements_frames h ctx⟩
  | recover ctx => exact ⟨_, 1, recover_frames h ctx⟩
  | terminator? ctx => exact ⟨_, 1, terminator?_frames h ctx⟩
  | strayCloser tok => exact ⟨_, 1, strayCloser_frames tok⟩
  | statement tier => exact ⟨_, 1, statement_frames h tier⟩
  | joined op tok left =>
    obtain ⟨extra, hleft⟩ := exists_shallow env depth left
    exact ⟨_, extra, joined_frames h op tok hleft⟩
  | primaryStatement => exact ⟨_, 1, primaryStatement_frames h⟩
  | primaryBody => exact ⟨_, 1, primaryBody_frames h⟩
  | wordStatement text => exact ⟨_, 1, wordStatement_frames h text⟩
  | negation => exact ⟨_, 1, negation_frames h⟩
  | statementAfter op tier => exact ⟨_, 1, statementAfter_frames h op tier⟩
  | command => exact ⟨_, 1, command_frames h⟩
  | declaration => exact ⟨_, 1, declaration_frames h⟩
  | unset => exact ⟨_, 1, unset_frames h⟩
  | assignment => exact ⟨_, 1, assignment_frames h⟩
  | assignedValue => exact ⟨_, 1, assignedValue_frames h⟩
  | array => exact ⟨_, 1, array_frames h⟩
  | redirects => exact ⟨_, 1, redirects_frames h⟩
  | redirect => exact ⟨_, 1, redirect_frames h⟩
  | redirectFrom descriptor tok =>
    obtain ⟨extra, hdescriptor⟩ := exists_shallow env depth descriptor
    exact ⟨_, extra, redirectFrom_frames h hdescriptor tok⟩
  | redirectTarget op => exact ⟨_, 1, redirectTarget_frames h op⟩
  | heredocMarker op start => exact ⟨_, 1, heredocMarker_frames op start⟩
  | lineBreaks => exact ⟨_, 1, lineBreaks_frames h⟩
  | lineBreak? keepLeaf => exact ⟨_, 1, lineBreak?_frames h keepLeaf⟩
  | pendingBodies => exact ⟨_, 1, pendingBodies_frames h⟩
  | bodies requests start => exact ⟨_, 1, bodies_frames h requests start⟩
  | heredocBody body quoted => exact ⟨_, 1, heredocBody_frames h body quoted⟩
  | reportPending => exact ⟨_, 1, reportPending_frames⟩
  | braceGroup => exact ⟨_, 1, braceGroup_frames h⟩
  | subshell => exact ⟨_, 1, subshell_frames h⟩
  | arithmeticCommand => exact ⟨_, 1, arithmeticCommand_frames h⟩
  | testCommand => exact ⟨_, 1, testCommand_frames h⟩
  | doGroup construct start => exact ⟨_, 1, doGroup_frames h construct start⟩
  | whileLoop => exact ⟨_, 1, whileLoop_frames h⟩
  | forLoop => exact ⟨_, 1, forLoop_frames h⟩
  | valueLoop keyword construct start =>
    obtain ⟨extra, hkeyword⟩ := exists_shallow env depth keyword
    exact ⟨_, extra, valueLoop_frames h hkeyword construct start⟩
  | loopVariable => exact ⟨_, 1, loopVariable_frames h⟩
  | loopValues => exact ⟨_, 1, loopValues_frames h⟩
  | headerLoop keyword start =>
    obtain ⟨extra, hkeyword⟩ := exists_shallow env depth keyword
    exact ⟨_, extra + 1, headerLoop_frames h (hkeyword.mono (Nat.le_succ extra)) start⟩
  | headerLoopBody start => exact ⟨_, 1, headerLoopBody_frames h start⟩
  | headerClauses start => exact ⟨_, 1, headerClauses_frames h start⟩
  | headerClause allowAssignment => exact ⟨_, 1, headerClause_frames h allowAssignment⟩
  | headerAssignment? name => exact ⟨_, 1, headerAssignment?_frames h name⟩
  | ifStatement => exact ⟨_, 1, ifStatement_frames h⟩
  | elifClause tok => exact ⟨_, 1, elifClause_frames h tok⟩
  | elseClause tok => exact ⟨_, 1, elseClause_frames h tok⟩
  | caseStatement => exact ⟨_, 1, caseStatement_frames h⟩
  | caseSubject => exact ⟨_, 1, caseSubject_frames h⟩
  | caseItem => exact ⟨_, 1, caseItem_frames h⟩
  | caseItemBody => exact ⟨_, 1, caseItemBody_frames h⟩
  | keywordFunction => exact ⟨_, 1, keywordFunction_frames h⟩
  | plainFunction? => exact ⟨_, 1, plainFunction?_frames h⟩
  | functionFrom head =>
    obtain ⟨extra, hhead⟩ := exists_shallow env depth head
    exact ⟨_, extra + 1, functionFrom_frames h (hhead.mono (Nat.le_succ extra))⟩
  | functionBody => exact ⟨_, 1, functionBody_frames h⟩
  | literal => exact ⟨_, 1, literal_frames h⟩
  | fragment => exact ⟨_, 1, fragment_frames h⟩
  | fragmentOf tok => exact ⟨_, 1, fragmentOf_frames h tok⟩
  | doubleQuoted => exact ⟨_, 1, doubleQuoted_frames h⟩
  | dollar tok => exact ⟨_, 1, dollar_frames h tok⟩
  | expansion => exact ⟨_, 1, expansion_frames h⟩
  | expansionBody start => exact ⟨_, 1, expansionBody_frames h start⟩
  | expansionOperator => exact ⟨_, 1, expansionOperator_frames⟩
  | substitutionPattern => exact ⟨_, 1, substitutionPattern_frames⟩
  | parameter => exact ⟨_, 1, parameter_frames h⟩
  | simpleParameter => exact ⟨_, 1, simpleParameter_frames⟩
  | subscript name =>
    obtain ⟨extra, hname⟩ := exists_shallow env depth name
    exact ⟨_, extra, subscript_frames h hname⟩
  | commandSubstitution => exact ⟨_, 1, parenthesizedSubstitution_frames h _ _⟩
  | processSubstitution => exact ⟨_, 1, parenthesizedSubstitution_frames h _ _⟩
  | backtickSubstitution => exact ⟨_, 1, backtickSubstitution_frames h⟩
  | arithmeticExpansion => exact ⟨_, 1, arithmeticExpansion_frames h⟩
  | arithmeticBody construct start => exact ⟨_, 1, arithmeticBody_frames h construct start⟩
  | arithmetic minRow => exact ⟨_, 1, arithmetic_frames h minRow⟩
  | arithmeticClimb minRow => exact ⟨_, 1, arithmeticClimb_frames h minRow⟩
  | conditional condition question =>
    obtain ⟨extra, hcondition⟩ := exists_shallow env depth condition
    exact ⟨_, extra, conditional_frames h hcondition question⟩
  | arithmeticOperand => exact ⟨_, 1, arithmeticOperand_frames h⟩
  | arithmeticUnary tok => exact ⟨_, 1, arithmeticUnary_frames h tok⟩
  | arithmeticPostfix => exact ⟨_, 1, arithmeticPostfix_frames h⟩
  | arithmeticPrimary => exact ⟨_, 1, arithmeticPrimary_frames h⟩
  | arithmeticSubscript name =>
    obtain ⟨extra, hname⟩ := exists_shallow env depth name
    exact ⟨_, extra, arithmeticSubscript_frames h hname⟩
  | parenthesizedArithmetic opener => exact ⟨_, 1, parenthesizedArithmetic_frames h opener⟩
  | test => exact ⟨_, 1, test_frames h⟩
  | testRows rows => exact ⟨_, 1, (testRows_frames h rows).any⟩
  | testOperand => exact ⟨_, 1, testOperand_frames h⟩
  | testOperandBody => exact ⟨_, 1, testOperandBody_frames h⟩
  | testPrimary => exact ⟨_, 1, testPrimary_frames h⟩
  | regexOperand => exact ⟨_, 1, regexOperand_frames h⟩
  | parenthesizedTest opener => exact ⟨_, 1, parenthesizedTest_frames h opener⟩
  | testContent closer construct => exact ⟨_, 1, testContent_frames h closer construct⟩
  | testClose closer construct start => exact ⟨_, 1, testClose_frames h closer construct start⟩
  | expectOperator op construct start => exact ⟨_, 1, expectOperator_frames op construct start⟩
  | expectKeyword keyword construct start =>
    exact ⟨_, 1, expectKeyword_frames keyword construct start⟩
  | reportMissing tok expected construct start =>
    exact ⟨_, 1, reportMissing_frames tok expected construct start⟩

theorem IsConstruct.framed (hm : IsConstruct inner m) (h : inner.Framed env)
    (hrun : m env s = .ok (a, s')) : Framed env s s' := by
  obtain ⟨_, extra, hframes⟩ := hm.exists_frames h
  exact (hframes s a s' hrun rfl).1

theorem exists_of_any_halted (h : (m env s).toOption.any (·.2.halted) = true) :
    ∃ a s', m env s = .ok (a, s') ∧ s'.halted = true := by
  cases hresult : m env s with
  | error fault => simp [hresult, Except.toOption] at h
  | ok result => exact ⟨result.1, result.2, rfl, by simpa [hresult, Except.toOption] using h⟩

/-! ### Main results -/

/-- Every construct gives the context back as it was, whether it has read what it stands for, has
reported what is missing or was cut off by a halt. A parse is always in some mode, since the
outermost one is not left. -/
theorem context_restored {level : Nat} (hm : IsConstruct (nested level) m) (hmodes : s.modes ≠ [])
    (hrun : m env s = .ok (a, s')) :
    s'.modes = s.modes ∧ s'.flags = s.flags ∧ s'.inBacktick = s.inBacktick ∧
      s'.depth = s.depth := by
  have hframed := hm.framed (nested_framed env level) hrun
  exact ⟨hframed.modes_eq hmodes, hframed.flags_eq, hframed.inBacktick_eq, hframed.depth_eq⟩

/-- A limit is hit inside a substitution, which ends in the mode and at the depth of the expansion
around it. -/
theorem context_restored_halted :
    ∃ node s', commandSubstitution (nested 3) ⟨.ofString "$(a", ⟨4, none⟩, false⟩
        { modes := [.arithmetic, .command], inBacktick := true, depth := 3 } = .ok (node, s') ∧
      s'.halted = true ∧ s'.modes = [.arithmetic, .command] ∧ s'.flags = {} ∧
      s'.inBacktick = true ∧ s'.depth = 3 := by
  have hany : (commandSubstitution (nested 3) ⟨.ofString "$(a", ⟨4, none⟩, false⟩
      { modes := [.arithmetic, .command], inBacktick := true, depth := 3 }).toOption.any
      (·.2.halted) = true := by decide +kernel
  obtain ⟨node, s', hrun, hhalted⟩ := exists_of_any_halted hany
  exact ⟨node, s', hrun, hhalted, context_restored .commandSubstitution (by simp) hrun⟩

end Grammar
end ShellTree
