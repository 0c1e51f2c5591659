import ShellTree.Grammar.Arithmetic
import ShellTree.Grammar.Test
import ShellTree.Proofs.Behind.Word

/-!
This module contains arithmetic expressions and tests in an outer parse.
-/

namespace ShellTree
namespace Grammar

open Parse

variable {E : Embedding} {inner outer : Nested}

/-! ### Arithmetic expressions -/

theorem reportOperand_carries (op : String) : Carries E (reportOperand op) (reportOperand op) :=
  peek_carries.bind fun tok => report_carries _ tok.span

theorem operandAfter_carries (op : String) {operand operand' : Parse (Option Node)}
    (h : Carries E operand operand') :
    Carries E (operandAfter op operand) (operandAfter op operand') := by
  apply h.bindOption
  . exact (reportOperand_carries op).bind fun _ => carries_pure rfl
  . intro node
    exact carries_pure rfl

theorem conditional_carries (h : inner.Carried E outer) (condition : Node) (question : Token) :
    Carries E (conditional inner condition question)
      (conditional outer (moved E.width condition) (moved E.width question)) := by
  apply (tokenLeaf_carries question).bind
  intro questionLeaf
  apply (operandAfter_carries "?" (h.arithmetic 0)).bind
  intro whenTrue
  apply peek_carries.bind
  intro colon
  apply carries_ite Iff.rfl
  . intro _
    apply (tokenLeaf_carries colon).bind
    intro colonLeaf
    apply (operandAfter_carries ":" (h.arithmetic Operator.conditionalRow)).bind
    intro whenFalse
    exact node_carries _ (by simp)
  . intro _
    exact (report_carries _ colon.span).bind fun _ => node_carries _ (by simp)

theorem arithmeticSubscript_carries (h : inner.Carried E outer) (name : Node) :
    Carries E (arithmeticSubscript inner name)
      (arithmeticSubscript outer (moved E.width name)) := by
  apply peek_carries.bind
  intro opener
  apply (tokenLeaf_carries opener).bind
  intro leaf
  apply (operandAfter_carries "[" (h.arithmetic 0)).bind
  intro index
  rw [Node.moved_span]
  apply (expectOperator_carries _ _ name.span.start).bind
  intro close
  exact node_carries _ (by simp)

theorem parenthesizedArithmetic_carries (h : inner.Carried E outer) (opener : Token) :
    Carries E (parenthesizedArithmetic inner opener)
      (parenthesizedArithmetic outer (moved E.width opener)) := by
  apply (tokenLeaf_carries opener).bind
  intro leaf
  apply (operandAfter_carries "(" (h.arithmetic 0)).bind
  intro content
  apply (expectOperator_carries _ _ opener.span.start).bind
  intro close
  exact node_carries _ (by simp)

theorem arithmeticWord_carries (h : inner.Carried E outer) (tok : Token) :
    Carries E (arithmeticWord inner tok) (arithmeticWord outer (moved E.width tok)) := by
  apply carries_ite Iff.rfl
  . intro _
    exact leafAt_carries _ rfl
  . intro _
    apply carries_bind_charactersAt
    intro cs
    apply carries_ite Iff.rfl
    . intro _
      exact (leafAt_carries _ rfl).bind (arithmeticSubscript_carries h)
    . intro _
      exact leafAt_carries _ rfl

theorem arithmeticPrimary_carries (h : inner.Carried E outer) :
    Carries E (arithmeticPrimary inner) (arithmeticPrimary outer) := by
  apply peek_carries.bind
  intro tok
  rw [Token.moved_kind]
  split
  . exact (arithmeticWord_carries h tok).bind fun _ => carries_pure rfl
  . exact (parenthesizedArithmetic_carries h tok).bind fun _ => carries_pure rfl
  . exact (tokenLeaf_carries tok).bind fun _ => carries_pure rfl
  . exact fragment_carries h

theorem arithmeticPostfix_carries (h : inner.Carried E outer) :
    Carries E (arithmeticPostfix inner) (arithmeticPostfix outer) := by
  apply (arithmeticPrimary_carries h).bindOption
  . exact carries_pure rfl
  . intro operand
    apply peek_carries.bind
    intro tok
    apply carries_ite Iff.rfl
    . intro _
      apply (tokenLeaf_carries tok).bind
      intro op
      exact (node_carries _ rfl).bind fun _ => carries_pure rfl
    . intro _
      exact carries_pure rfl

theorem arithmeticUnary_carries (h : inner.Carried E outer) (tok : Token) :
    Carries E (arithmeticUnary inner tok) (arithmeticUnary outer (moved E.width tok)) := by
  apply (tokenLeaf_carries tok).bind
  intro op
  apply (operandAfter_carries tok.text (nest_carries h.arithmeticOperand)).bind
  intro operand
  exact node_carries _ rfl

theorem arithmeticOperand_carries (h : inner.Carried E outer) :
    Carries E (arithmeticOperand inner) (arithmeticOperand outer) := by
  apply peek_carries.bind
  intro tok
  apply carries_ite Iff.rfl
  . intro _
    exact (arithmeticUnary_carries h tok).bind fun _ => carries_pure rfl
  . intro _
    exact arithmeticPostfix_carries h

theorem arithmeticStep_carries (h : inner.Carried E outer) (minRow : Nat) (left : Node) :
    Carries E (arithmeticStep inner minRow left)
      (arithmeticStep outer minRow (moved E.width left)) := by
  apply peek_carries.bind
  intro tok
  have hrow : infixRow? (moved E.width tok) minRow = infixRow? tok minRow := rfl
  rw [hrow]
  cases infixRow? tok minRow with
  | none => exact carries_pure rfl
  | some found =>
    obtain ⟨row, op⟩ := found
    apply carries_ite Iff.rfl
    . intro _
      exact (conditional_carries h left tok).bind fun _ => carries_pure rfl
    . intro _
      apply (tokenLeaf_carries tok).bind
      intro leaf
      apply (operandAfter_carries op (h.arithmetic (rightRow row))).bind
      intro right
      exact (node_carries _ rfl).bind fun _ => carries_pure rfl

theorem arithmeticClimb_carries (h : inner.Carried E outer) (minRow : Nat) :
    Carries E (arithmeticClimb inner minRow) (arithmeticClimb outer minRow) := by
  apply (arithmeticOperand_carries h).bindOption
  . exact carries_pure rfl
  . intro left
    exact (loop_carries rfl (arithmeticStep_carries h minRow)).bind fun _ => carries_pure rfl

theorem arithmetic_carries (h : inner.Carried E outer) (minRow : Nat) :
    Carries E (arithmetic inner minRow) (arithmetic outer minRow) :=
  nest_carries (arithmeticClimb_carries h minRow)

/-! ### Tests -/

theorem reportTestOperand_carries (anchor : Anchor) :
    Carries E (reportTestOperand anchor) (reportTestOperand anchor) :=
  peek_carries.bind fun tok => report_carries _ tok.span

theorem testOperandAfter_carries (op : String) {operand operand' : Parse (Option Node)}
    (h : Carries E operand operand') :
    Carries E (testOperandAfter op operand) (testOperandAfter op operand') := by
  apply h.bindOption
  . exact (reportTestOperand_carries _).bind fun _ => carries_pure rfl
  . intro node
    exact carries_pure rfl

theorem isOptionWord_carries (tok : Token) :
    Carries E (isOptionWord tok) (isOptionWord (moved E.width tok)) := by
  apply (lookAhead_carries ((setPosition_carries tok.span.stop).bind fun _ => peek_carries)).bind
  intro following
  exact carries_pure rfl

theorem parenthesizedTest_carries (h : inner.Carried E outer) (opener : Token) :
    Carries E (parenthesizedTest inner opener)
      (parenthesizedTest outer (moved E.width opener)) := by
  apply (tokenLeaf_carries opener).bind
  intro leaf
  apply (testOperandAfter_carries "(" h.test).bind
  intro content
  apply (expectOperator_carries _ _ opener.span.start).bind
  intro close
  exact node_carries _ (by simp)

theorem testPrimary_carries (h : inner.Carried E outer) :
    Carries E (testPrimary inner) (testPrimary outer) := by
  apply peek_carries.bind
  intro tok
  rw [Token.moved_kind]
  split
  . exact (parenthesizedTest_carries h tok).bind fun _ => carries_pure rfl
  . exact (leafAt_carries _ rfl).bind fun _ => carries_pure rfl
  . exact literal_carries h

theorem testUnary_carries (tok : Token) {operand operand' : Parse (Option Node)}
    (h : Carries E operand operand') :
    Carries E (testUnary tok operand) (testUnary (moved E.width tok) operand') := by
  apply (tokenLeaf_carries tok).bind
  intro op
  apply (testOperandAfter_carries tok.text h).bind
  intro operand
  exact node_carries _ rfl

theorem testOperandBody_carries (h : inner.Carried E outer) :
    Carries E (testOperandBody inner) (testOperandBody outer) := by
  apply peek_carries.bind
  intro tok
  apply carries_ite Iff.rfl
  . intro _
    exact (testUnary_carries tok h.testOperand).bind fun _ => carries_pure rfl
  . intro _
    apply carries_ite Iff.rfl
    . intro _
      apply (isOptionWord_carries tok).bind
      intro isWord
      apply carries_ite Iff.rfl
      . intro _
        exact testPrimary_carries h
      . intro _
        exact (testUnary_carries tok (testPrimary_carries h)).bind fun _ => carries_pure rfl
    . intro _
      exact testPrimary_carries h

theorem testOperand_carries (h : inner.Carried E outer) :
    Carries E (testOperand inner) (testOperand outer) := nest_carries (testOperandBody_carries h)

theorem regexOperand_carries (h : inner.Carried E outer) :
    Carries E (regexOperand inner) (regexOperand outer) := by
  apply (peekRegex_carries false).bindOption
  . exact testPrimary_carries h
  . intro regex
    exact (tokenLeaf_carries regex).bind fun _ => carries_pure rfl

theorem testStep_carries (h : inner.Carried E outer) (row : Operator.Row)
    {tighter tighter' : Parse (Option Node)} (htighter : Carries E tighter tighter')
    (left : Node) :
    Carries E (testStep inner row tighter left)
      (testStep outer row tighter' (moved E.width left)) := by
  apply peek_carries.bind
  intro tok
  have hop : rowOperator? row (moved E.width tok) = rowOperator? row tok := rfl
  rw [hop]
  cases rowOperator? row tok with
  | none => exact carries_pure rfl
  | some op =>
    apply (leafAt_carries _ rfl).bind
    intro leaf
    have hoperand : Carries E (if op = "=~" then regexOperand inner else tighter)
        (if op = "=~" then regexOperand outer else tighter') :=
      carries_ite Iff.rfl (fun _ => regexOperand_carries h) fun _ => htighter
    apply (testOperandAfter_carries op hoperand).bind
    intro right
    exact (node_carries _ rfl).bind fun _ => carries_pure rfl

theorem testRows_carries (h : inner.Carried E outer) (rows : List Operator.Row) :
    Carries E (testRows inner rows) (testRows outer rows) := by
  induction rows with
  | nil => exact testOperand_carries h
  | cons row rows ih =>
    apply ih.bindOption
    . exact carries_pure rfl
    . intro left
      exact (loop_carries rfl (testStep_carries h row ih)).bind fun _ => carries_pure rfl

theorem test_carries (h : inner.Carried E outer) : Carries E (test inner) (test outer) :=
  testRows_carries h Operator.testRows

theorem testJunkStep_carries (h : inner.Carried E outer) (closer : String)
    (construct : Construct) (start : Nat) (junk : List Node × List Node) :
    Carries E (testJunkStep inner closer construct start junk)
      (testJunkStep outer closer construct (start + E.width) (moved E.width junk)) := by
  obtain ⟨junk, close⟩ := junk
  apply peek_carries.bind
  intro tok
  apply carries_ite Iff.rfl
  . intro _
    exact (tokenLeaf_carries tok).bind fun _ => carries_pure rfl
  . intro _
    apply carries_ite Iff.rfl
    . intro _
      exact (reportUnclosed_carries _ start).bind fun _ => carries_pure rfl
    . intro _
      apply carries_ite Iff.rfl
      . intro _
        exact (report_carries _ tok.span).bind fun _ => carries_pure rfl
      . intro _
        apply carries_ite_bind _ (report_carries _ tok.span)
        . apply (literal_carries h).bindOption
          . exact (tokenLeaf_carries tok).bind fun _ => carries_pure (by simp)
          . intro literal
            exact carries_pure (by simp)
        . simp

theorem testClose_carries (h : inner.Carried E outer) (closer : String) (construct : Construct)
    (start : Nat) :
    Carries E (testClose inner closer construct start)
      (testClose outer closer construct (start + E.width)) := by
  apply (loop_carries rfl (testJunkStep_carries h closer construct start)).bind
  rintro ⟨junk, close⟩
  exact (errorAround_carries junk).bind fun _ => carries_pure (by simp)

theorem testContent_carries (h : inner.Carried E outer) (closer : String)
    (construct : Construct) :
    Carries E (testContent inner closer construct) (testContent outer closer construct) := by
  apply peek_carries.bind
  intro tok
  apply carries_ite Iff.rfl
  . intro _
    exact carries_pure rfl
  . intro _
    apply (test_carries h).bindOption
    . apply peek_carries.bind
      intro tok
      apply carries_ite Iff.rfl
      . intro _
        exact (reportTestOperand_carries _).bind fun _ => carries_pure rfl
      . intro _
        exact carries_pure rfl
    . intro expression
      exact carries_pure rfl

theorem testCommand_carries (h : inner.Carried E outer) :
    Carries E (testCommand inner) (testCommand outer) := by
  have hparts : ∀ (opener : Token) mode closer construct, Carries E
      (do
        let leaf ← keywordLeaf opener
        let parts ← inMode mode <| withFlags {} do
          let content ← testContent inner closer construct
          let close ← testClose inner closer construct opener.span.start
          return content ++ close
        node .testCommand (leaf :: parts))
      (do
        let leaf ← keywordLeaf (moved E.width opener)
        let parts ← inMode mode <| withFlags {} do
          let content ← testContent outer closer construct
          let close ← testClose outer closer construct (opener.span.start + E.width)
          return content ++ close
        node .testCommand (leaf :: parts)) := by
    intro opener mode closer construct
    apply (keywordLeaf_carries opener).bind
    intro leaf
    apply (inMode_carries (withFlags_carries _)).bind
    . intro parts
      exact node_carries _ rfl
    . apply (testContent_carries h closer construct).bind
      intro content
      exact (testClose_carries h closer construct opener.span.start).bind fun _ =>
        carries_pure (by simp)
  apply (peekWith_carries _).bind
  intro opener
  dsimp only [Token.moved_text]
  split
  . exact hparts opener _ _ _
  . exact hparts opener _ _ _

end Grammar

end ShellTree
