import ShellTree.Grammar.Arithmetic
import ShellTree.Grammar.Test
import ShellTree.Proofs.Frame.Pattern
import ShellTree.Proofs.Frame.Word

/-!
This module contains the frame of arithmetic expressions and tests.
-/

namespace ShellTree
namespace Grammar

open Parse

variable {env : Env} {inner : Nested} {depth extra : Nat}

/-! ### Arithmetic expressions -/

theorem reportOperand_frames (op : String) : Frames env depth extra (reportOperand op) :=
  peek_frames.seq fun tok _ => report_frames _ tok.span

theorem operandAfter_frames (op : String) {operand : Parse (Option Node)}
    (h : Frames env depth extra operand) : Frames env depth extra (operandAfter op operand) := by
  apply h.bind
  intro result hresult
  cases result with
  | none => exact (reportOperand_frames op).map fun _ _ => shallow_nil
  | some node => exact frames_pure (by simpa using hresult)

theorem conditional_frames (h : inner.Framed env) {condition : Node}
    (hcondition : Shallow env depth extra condition) (question : Token) :
    Frames env depth extra (conditional inner condition question) := by
  apply (tokenLeaf_frames question).seq
  intro questionLeaf hquestion
  apply (operandAfter_frames "?" (h.arithmetic depth 0)).seq
  intro whenTrue htrue
  apply peek_frames.seq
  intro colon _
  apply frames_ite
  . intro _
    apply (tokenLeaf_frames colon).seq
    intro colonLeaf hcolon
    apply (operandAfter_frames ":" (h.arithmetic depth Operator.conditionalRow)).seq
    intro whenFalse hfalse
    exact node_frames rfl (by simp [hcondition, hquestion, htrue, hcolon, hfalse])
  . intro _
    apply (report_frames _ colon.span).seq
    intro _ _
    exact node_frames rfl (by simp [hcondition, hquestion, htrue])

theorem arithmeticSubscript_frames (h : inner.Framed env) {name : Node}
    (hname : Shallow env depth extra name) :
    Frames env depth extra (arithmeticSubscript inner name) := by
  apply peek_frames.seq
  intro opener _
  apply (tokenLeaf_frames opener).seq
  intro leaf hleaf
  apply (operandAfter_frames "[" (h.arithmetic depth 0)).seq
  intro index hindex
  apply (expectOperator_frames _ _ name.span.start).seq
  intro close hclose
  exact node_frames rfl (by simp [hname, hleaf, hindex, hclose])

theorem parenthesizedArithmetic_frames (h : inner.Framed env) (opener : Token) :
    Frames env depth 1 (parenthesizedArithmetic inner opener) := by
  apply (tokenLeaf_frames opener).seq
  intro leaf hleaf
  apply (operandAfter_frames "(" (h.arithmetic depth 0)).seq
  intro content hcontent
  apply (expectOperator_frames _ _ opener.span.start).seq
  intro close hclose
  exact levelNode_frames (by simp [hleaf, hcontent, hclose])

theorem arithmeticWord_frames (h : inner.Framed env) (tok : Token) :
    Frames env depth extra (arithmeticWord inner tok) := by
  apply frames_ite
  . intro _
    exact leafAt_frames rfl tok.span
  . intro _
    apply frames_bind_charactersAt
    intro cs
    apply frames_ite
    . intro _
      exact (leafAt_frames rfl tok.span).bind fun _ hname => arithmeticSubscript_frames h hname
    . intro _
      exact leafAt_frames rfl tok.span

/-- An operand may be an expression in parentheses. -/
theorem arithmeticPrimary_frames (h : inner.Framed env) :
    Frames env depth 1 (arithmeticPrimary inner) := by
  apply peek_frames.seq
  intro tok _
  split
  . exact (arithmeticWord_frames h tok).map fun _ => shallow_some.2
  . exact (parenthesizedArithmetic_frames h tok).map fun _ => shallow_some.2
  . exact (tokenLeaf_frames tok).map fun _ => shallow_some.2
  . exact fragment_frames h

theorem arithmeticPostfix_frames (h : inner.Framed env) :
    Frames env depth 1 (arithmeticPostfix inner) := by
  apply (arithmeticPrimary_frames h).bind
  intro operand hoperand
  cases operand with
  | none => exact frames_pure shallow_none
  | some operand =>
    rw [shallow_some] at hoperand
    apply peek_frames.seq
    intro tok _
    apply frames_ite
    . intro _
      apply (tokenLeaf_frames tok).seq
      intro op hop
      exact (node_frames rfl (by simp [hoperand, hop])).map fun _ => shallow_some.2
    . intro _
      exact frames_pure (shallow_some.2 hoperand)

theorem arithmeticUnary_frames (h : inner.Framed env) (tok : Token) :
    Frames env depth extra (arithmeticUnary inner tok) := by
  apply (tokenLeaf_frames tok).seq
  intro op hop
  apply (operandAfter_frames tok.text (nest_frames (h.arithmeticOperand (depth + 1)))).seq
  intro operand hoperand
  exact node_frames rfl (by simp [hop, hoperand])

theorem arithmeticOperand_frames (h : inner.Framed env) :
    Frames env depth 1 (arithmeticOperand inner) := by
  apply peek_frames.seq
  intro tok _
  apply frames_ite
  . intro _
    exact (arithmeticUnary_frames h tok).map fun _ => shallow_some.2
  . intro _
    exact arithmeticPostfix_frames h

theorem arithmeticStep_frames (h : inner.Framed env) (minRow : Nat) {left : Node}
    (hleft : Shallow env depth extra left) :
    Frames env depth extra (arithmeticStep inner minRow left) := by
  apply peek_frames.seq
  intro tok _
  cases infixRow? tok minRow with
  | none => exact frames_pure hleft
  | some operator =>
    obtain ⟨row, op⟩ := operator
    apply frames_ite
    . intro _
      exact (conditional_frames h hleft tok).map fun _ => shallow_yield.2
    . intro _
      apply (tokenLeaf_frames tok).seq
      intro leaf hleaf
      apply (operandAfter_frames op (h.arithmetic depth (rightRow row))).seq
      intro right hright
      exact (node_frames rfl (by simp [hleft, hleaf, hright])).map fun _ => shallow_yield.2

theorem arithmeticClimb_frames (h : inner.Framed env) (minRow : Nat) :
    Frames env depth 1 (arithmeticClimb inner minRow) := by
  apply (arithmeticOperand_frames h).bind
  intro left hleft
  cases left with
  | none => exact frames_pure shallow_none
  | some left =>
    exact (loop_frames (shallow_some.1 hleft) fun _ => arithmeticStep_frames h minRow).map
      fun _ => shallow_some.2

theorem arithmetic_frames (h : inner.Framed env) (minRow : Nat) :
    Frames env depth extra (arithmetic inner minRow) :=
  nest_frames (arithmeticClimb_frames h minRow)

/-! ### Operands of tests -/

theorem reportTestOperand_frames (anchor : Anchor) :
    Frames env depth extra (reportTestOperand anchor) :=
  peek_frames.seq fun tok _ => report_frames _ tok.span

theorem testOperandAfter_frames (op : String) {operand : Parse (Option Node)}
    (h : Frames env depth extra operand) :
    Frames env depth extra (testOperandAfter op operand) := by
  apply h.bind
  intro result hresult
  cases result with
  | none => exact (reportTestOperand_frames _).map fun _ _ => shallow_nil
  | some node => exact frames_pure (by simpa using hresult)

theorem isOptionWord_frames (tok : Token) : Frames env depth extra (isOptionWord tok) := by
  apply (lookAhead_frames _).map fun _ _ => shallow_bool _
  exact (setPosition_frames tok.span.stop).seq fun _ _ => peek_frames

theorem parenthesizedTest_frames (h : inner.Framed env) (opener : Token) :
    Frames env depth 1 (parenthesizedTest inner opener) := by
  apply (tokenLeaf_frames opener).seq
  intro leaf hleaf
  apply (testOperandAfter_frames "(" (h.test depth)).seq
  intro content hcontent
  apply (expectOperator_frames _ _ opener.span.start).seq
  intro close hclose
  exact levelNode_frames (by simp [hleaf, hcontent, hclose])

/-- An operand takes a level where a parenthesis opens it. -/
theorem testPrimary_run (h : inner.Framed env) {s s' : State} {result : Option Node}
    (hrun : testPrimary inner env s = .ok (result, s')) (hdepth : s.depth = depth)
    (hopen : ∀ tok s₁, peek env s = .ok (tok, s₁) → tok.kind = .operator "(" → extra = 1) :
    Framed env s s' ∧ Shallow env depth extra result := by
  obtain ⟨tok, s₁, hpeek, hrun⟩ := bind_run.1 hrun
  have hframed := peek_frames.framed hpeek hdepth
  have hdepth₁ := hframed.depth_eq.trans hdepth
  refine And.imp_left hframed.trans ((?_ : Frames env depth extra _) s₁ result s' hrun hdepth₁)
  split
  . next hkind =>
    rw [hopen tok s₁ hpeek hkind]
    exact (parenthesizedTest_frames h tok).map fun _ => shallow_some.2
  . exact (leafAt_frames rfl tok.span).map fun _ => shallow_some.2
  . exact literal_frames h

theorem testPrimary_frames (h : inner.Framed env) : Frames env depth 1 (testPrimary inner) :=
  fun _ _ _ hrun hdepth => testPrimary_run h hrun hdepth fun _ _ _ _ => rfl

theorem testUnary_frames (tok : Token) {operand : Parse (Option Node)}
    (h : Frames env depth extra operand) : Frames env depth extra (testUnary tok operand) := by
  apply (tokenLeaf_frames tok).seq
  intro op hop
  apply (testOperandAfter_frames tok.text h).bind
  intro content hcontent
  exact node_frames rfl (by simp [hop, hcontent])

theorem testOperandBody_frames (h : inner.Framed env) :
    Frames env depth 1 (testOperandBody inner) := by
  apply peek_frames.seq
  intro tok _
  apply frames_ite
  . intro _
    exact (testUnary_frames tok (h.testOperand depth).any).map fun _ => shallow_some.2
  . intro _
    apply frames_ite
    . intro _
      apply (isOptionWord_frames tok).seq
      intro isWord _
      apply frames_ite
      . intro _
        exact testPrimary_frames h
      . intro _
        exact (testUnary_frames tok (testPrimary_frames h)).map fun _ => shallow_some.2
    . intro _
      exact testPrimary_frames h

theorem testOperand_frames (h : inner.Framed env) : Frames env depth extra (testOperand inner) :=
  nest_frames (testOperandBody_frames h)

/-- An operand in the place of a pattern has no parentheses around it, so that it takes no level
although none is entered for it. -/
theorem regexOperand_frames (h : inner.Framed env) :
    Frames env depth extra (regexOperand inner) := by
  intro s result s' hrun hdepth
  obtain ⟨regex, s₁, hpeek, hrun⟩ := bind_run.1 hrun
  have hframed := (peekRegex_frames false).framed hpeek hdepth
  have hdepth₁ := hframed.depth_eq.trans hdepth
  cases regex with
  | some regex =>
    have htaken : Frames env depth extra (do return some (← tokenLeaf regex)) :=
      (tokenLeaf_frames regex).map fun _ => shallow_some.2
    obtain ⟨hframed', hresult⟩ := htaken s₁ result s' hrun hdepth₁
    exact ⟨hframed.trans hframed', hresult⟩
  | none =>
    obtain ⟨hframed', hresult⟩ := testPrimary_run h hrun hdepth₁ fun tok s₂ htok hkind =>
      absurd hkind (ne_parenthesis_of_peekRegex hpeek htok)
    exact ⟨hframed.trans hframed', hresult⟩

/-! ### Tests -/

theorem testStep_frames (h : inner.Framed env) (row : Operator.Row)
    {tighter : Parse (Option Node)} (htighter : Frames env depth 0 tighter) {left : Node}
    (hleft : Shallow env depth extra left) :
    Frames env depth extra (testStep inner row tighter left) := by
  apply peek_frames.seq
  intro tok _
  cases rowOperator? row tok with
  | none => exact frames_pure hleft
  | some op =>
    have hoperand : Frames env depth 0 (if op = "=~" then regexOperand inner else tighter) :=
      frames_ite (fun _ => regexOperand_frames h) fun _ => htighter
    apply (leafAt_frames rfl tok.span).seq
    intro leaf hleaf
    apply (testOperandAfter_frames op hoperand).seq
    intro right hright
    exact (node_frames rfl (by simp [hleft, hleaf, hright])).map fun _ => shallow_yield.2

theorem testRows_frames (h : inner.Framed env) (rows : List Operator.Row) :
    Frames env depth 0 (testRows inner rows) := by
  induction rows with
  | nil => exact testOperand_frames h
  | cons row rows ih =>
    apply ih.seq
    intro left hleft
    cases left with
    | none => exact frames_pure shallow_none
    | some left =>
      exact (loop_frames (shallow_some.1 (hleft 0)) fun _ => testStep_frames h row ih).map
        fun _ => shallow_some.2

theorem test_frames (h : inner.Framed env) : Frames env depth extra (test inner) :=
  (testRows_frames h _).any

theorem testJunkStep_frames (h : inner.Framed env) (closer : String) (construct : Construct)
    (start : Nat) {junk : List Node × List Node} (hjunk : Shallow env depth extra junk) :
    Frames env depth extra (testJunkStep inner closer construct start junk) := by
  have htaken : Shallow env depth extra junk.1 := (shallow_pair.1 hjunk).1
  apply peek_frames.seq
  intro tok _
  apply frames_ite
  . intro _
    exact (tokenLeaf_frames tok).map fun _ hclose => by simp [htaken, hclose]
  . intro _
    apply frames_ite
    . intro _
      exact (reportUnclosed_frames _ start).map fun _ _ => hjunk
    . intro _
      apply frames_ite
      . intro _
        exact (report_frames _ tok.span).map fun _ _ => hjunk
      . intro _
        apply frames_ite_seq (report_frames _ tok.span)
        apply (literal_frames h).seq
        intro literal hliteral
        cases literal with
        | none => exact (tokenLeaf_frames tok).map fun _ hleaf => by simp [htaken, hleaf]
        | some literal => exact frames_pure (by simpa [htaken] using hliteral extra)

theorem testClose_frames (h : inner.Framed env) (closer : String) (construct : Construct)
    (start : Nat) : Frames env depth extra (testClose inner closer construct start) := by
  apply (loop_frames (by simp) fun _ => testJunkStep_frames h closer construct start).seq
  rintro ⟨junk, close⟩ hresult
  obtain ⟨hjunk, hclose⟩ := shallow_pair.1 (hresult extra)
  exact (errorAround_frames hjunk).map fun _ herrors => by simp [herrors, hclose]

theorem testContent_frames (h : inner.Framed env) (closer : String) (construct : Construct) :
    Frames env depth extra (testContent inner closer construct) := by
  apply peek_frames.seq
  intro opening _
  apply frames_ite
  . intro _
    exact frames_pure shallow_nil
  . intro _
    apply (test_frames h).seq
    intro expression hexpression
    cases expression with
    | none =>
      apply peek_frames.seq
      intro tok _
      apply frames_ite_seq (reportTestOperand_frames _)
      exact frames_pure shallow_nil
    | some expression => exact frames_pure (by simpa using hexpression extra)

theorem testCommand_frames (h : inner.Framed env) :
    Frames env depth extra (testCommand inner) := by
  apply (peekWith_frames _).seq
  intro opener _
  split
  next mode closer construct _ =>
    apply (keywordLeaf_frames opener).seq
    intro leaf hleaf
    apply (inMode_frames (withFlags_frames _)).seq
    . intro parts hparts
      exact node_frames rfl (by simp [hleaf, hparts])
    . apply (testContent_frames h closer construct).seq
      intro content hcontent
      exact (testClose_frames h closer construct opener.span.start).map fun _ hclose => by
        simp [hcontent, hclose]

end Grammar
end ShellTree
