import ShellTree.Grammar.Function
import ShellTree.Proofs.Behind.Command
import ShellTree.Proofs.Behind.Expression

/-!
This module contains line breaks and compound commands in an outer parse.
-/

namespace ShellTree
namespace Grammar

open Parse

variable {E : Embedding} {inner outer : Nested}

/-! ### Line breaks -/

theorem bodies_carries (h : inner.Carried E outer) (requests : List Heredoc.Request)
    (start : Nat) :
    Carries E (bodies inner requests start)
      (bodies outer (moved E.width requests) (start + E.width)) := by
  induction requests generalizing start with
  | nil => exact carries_pure rfl
  | cons request requests ih =>
    have hrest : ∀ (extent : Heredoc.Extent) (body : Node) (delimiter : List Node), Carries E
        (do
          setPosition extent.resumeAt
          let rest ← bodies inner requests (afterLineBreak (← source) extent.resumeAt)
          return body :: delimiter ++ rest)
        (do
          setPosition (moved E.width extent).resumeAt
          let rest ← bodies outer (moved E.width requests)
            (afterLineBreak (← source) (moved E.width extent).resumeAt)
          return moved E.width body :: moved E.width delimiter ++ rest) := by
      intro extent body delimiter
      rw [Heredoc.resumeAt_moved]
      apply (setPosition_carries _).bind
      intro _
      apply carries_bind_source
      have hstart : afterLineBreak E.outer.source (extent.resumeAt + E.width) =
          afterLineBreak E.inner.source extent.resumeAt + E.width :=
        afterLineBreak_moved E.behind extent.resumeAt
      rw [hstart]
      exact (ih _).bind fun _ => carries_pure (by simp)
    apply carries_bind_source
    apply (liftM_carries (Heredoc.scanBody_moved E.behind start request)).bind
    intro extent
    apply (heredocBody_carries h extent.body request.quoted).bind
    intro body
    obtain ⟨extentBody, delimiter⟩ := extent
    cases delimiter with
    | none =>
      apply (reportUnclosed_carries _ request.redirectStart).bind
      intro _
      exact hrest ⟨extentBody, none⟩ body []
    | some span =>
      apply (leafAt_carries _ rfl).bind
      intro leaf
      exact hrest ⟨extentBody, some span⟩ body [leaf]

theorem pendingBodies_carries (h : inner.Carried E outer) :
    Carries E (pendingBodies inner) (pendingBodies outer) := by
  have hmodify : ∀ nested : Nested, pendingBodies nested = (do
      let s ← get
      modify fun s => { s with pending := [] }
      bodies nested s.pending s.pos) := fun _ => rfl
  rw [hmodify, hmodify]
  apply carries_bind_get
  intro s own
  apply carries_bind_modify
  . exact fun _ _ => ⟨id, rfl, rfl, rfl⟩
  . exact bodies_carries h s.pending s.pos

theorem lineBreak?_carries (h : inner.Carried E outer) (keepLeaf : Bool) :
    Carries E (lineBreak? inner keepLeaf) (lineBreak? outer keepLeaf) := by
  apply (peekWith_carries _).bind
  intro tok
  apply carries_ite Iff.rfl
  . intro _
    apply (tokenLeaf_carries tok).bind
    intro leaf
    apply (pendingBodies_carries h).bind
    intro nodes
    apply carries_pure
    cases keepLeaf <;> rfl
  . intro _
    exact carries_pure rfl

theorem lineBreaks_carries (h : inner.Carried E outer) :
    Carries E (lineBreaks inner) (lineBreaks outer) := by
  apply loop_carries rfl
  intro nodes
  apply (lineBreak?_carries h false).bindOption
  . exact carries_pure rfl
  . intro more
    exact carries_pure (by simp)

/-! ### Groups and loops -/

theorem braceGroup_carries (h : inner.Carried E outer) :
    Carries E (braceGroup inner) (braceGroup outer) := by
  apply (peekWith_carries _).bind
  intro opener
  apply (keywordLeaf_carries opener).bind
  intro leaf
  apply (h.statements {}).bind
  intro body
  apply (expectKeyword_carries _ _ opener.span.start).bind
  intro close
  exact node_carries _ (by simp)

theorem subshell_carries (h : inner.Carried E outer) :
    Carries E (subshell inner) (subshell outer) := by
  apply (peekWith_carries _).bind
  intro opener
  apply (tokenLeaf_carries opener).bind
  intro leaf
  apply (h.statements {}).bind
  intro body
  apply (expectOperator_carries _ _ opener.span.start).bind
  intro close
  exact node_carries _ (by simp)

theorem doGroup_carries (h : inner.Carried E outer) (construct : Construct) (start : Nat) :
    Carries E (doGroup inner construct start) (doGroup outer construct (start + E.width)) := by
  apply (peekWith_carries _).bind
  intro tok
  apply carries_bind_source
  apply carries_ite
  . rw [isKeyword_moved]
  . intro _
    apply (keywordLeaf_carries tok).bind
    intro leaf
    apply (h.statements {}).bind
    intro body
    apply (expectKeyword_carries _ _ start).bind
    intro close
    exact (node_carries _ (by simp)).bind fun _ => carries_pure rfl
  . intro _
    exact (reportMissing_carries tok _ _ start).bind fun _ => carries_pure rfl

theorem whileLoop_carries (h : inner.Carried E outer) :
    Carries E (whileLoop inner) (whileLoop outer) := by
  apply (peekWith_carries _).bind
  intro tok
  apply (keywordLeaf_carries tok).bind
  intro leaf
  apply (h.statements {}).bind
  intro condition
  apply (doGroup_carries h _ tok.span.start).bind
  intro body
  exact node_carries _ (by simp)

theorem headerAssignment?_carries (h : inner.Carried E outer) (name : Token) :
    Carries E (headerAssignment? inner name) (headerAssignment? outer (moved E.width name)) := by
  apply (leafAt_carries _ rfl).bind
  intro nameLeaf
  apply peek_carries.bind
  intro equals
  apply carries_ite Iff.rfl
  . intro _
    apply (tokenLeaf_carries equals).bind
    intro equalsLeaf
    apply (h.arithmetic Operator.conditionalRow).bindOption
    . exact carries_pure rfl
    . intro value
      apply peek_carries.bind
      intro semicolon
      apply carries_ite Iff.rfl
      . intro _
        exact (node_carries _ rfl).bind fun _ => carries_pure rfl
      . intro _
        exact carries_pure rfl
  . intro _
    exact carries_pure rfl

theorem headerClause_carries (h : inner.Carried E outer) (allowAssignment : Bool) :
    Carries E (headerClause inner allowAssignment) (headerClause outer allowAssignment) := by
  apply peek_carries.bind
  intro tok
  apply carries_ite Iff.rfl
  . intro _
    exact carries_pure rfl
  . intro _
    apply atArithmeticClose_carries.bind
    intro close
    apply carries_ite Iff.rfl
    . intro _
      exact carries_pure rfl
    . intro _
      apply carries_ite Iff.rfl
      . intro _
        apply (attempt_carries (headerAssignment?_carries h tok)).bindOption
        . exact requiredExpression_carries h
        . intro assignment
          exact carries_pure rfl
      . intro _
        exact requiredExpression_carries h

theorem headerClauses_carries (h : inner.Carried E outer) (start : Nat) :
    Carries E (headerClauses inner start) (headerClauses outer (start + E.width)) := by
  apply (headerClause_carries h true).bind
  intro first
  apply (expectOperator_carries _ _ start).bind
  intro semicolon
  apply carries_ite
  . rw [isEmpty_moved]
  . intro _
    exact carries_pure rfl
  . intro _
    apply (headerClause_carries h false).bind
    intro second
    apply (expectOperator_carries _ _ start).bind
    intro nextSemicolon
    apply carries_ite
    . rw [isEmpty_moved]
    . intro _
      exact carries_pure (by simp)
    . intro _
      exact (headerClause_carries h false).bind fun _ => carries_pure (by simp)

theorem headerLoopBody_carries (h : inner.Carried E outer) (start : Nat) :
    Carries E (headerLoopBody inner start) (headerLoopBody outer (start + E.width)) := by
  apply (peekWith_carries _).bind
  intro tok
  apply carries_bind_source
  apply carries_ite
  . rw [isKeyword_moved]
  . intro _
    exact (braceGroup_carries h).bind fun _ => carries_pure rfl
  . intro _
    exact doGroup_carries h _ start

theorem headerLoop_carries (h : inner.Carried E outer) (keyword : Node) (start : Nat) :
    Carries E (headerLoop inner keyword start)
      (headerLoop outer (moved E.width keyword) (start + E.width)) := by
  apply (peekWith_carries _).bind
  intro opener
  apply (tokenLeaf_carries opener).bind
  intro leaf
  apply (inMode_carries (withFlags_carries _)).bind
  . intro header
    apply (acceptOperator_carries ";").bind
    intro semicolon
    apply (lineBreaks_carries h).bind
    intro breaks
    apply (headerLoopBody_carries h start).bind
    intro body
    exact node_carries _ (by simp)
  . apply (headerClauses_carries h start).bind
    intro clauses
    exact (arithmeticClose_carries _ start).bind fun _ => carries_pure (by simp)

theorem loopVariable_carries (h : inner.Carried E outer) :
    Carries E (loopVariable inner) (loopVariable outer) := by
  apply peek_carries.bind
  intro tok
  apply carries_ite Iff.rfl
  . intro _
    exact (leafAt_carries _ rfl).bind fun _ => carries_pure rfl
  . intro _
    apply (report_carries _ tok.span).bind
    intro _
    exact (literal_carries h).bind fun _ => carries_pure (moved_toList _).symm

theorem loopValueStep_carries (h : inner.Carried E outer) (values : List Node) :
    Carries E (loopValueStep inner values) (loopValueStep outer (moved E.width values)) := by
  apply (literal_carries h).bindOption
  . exact carries_pure rfl
  . intro value
    exact carries_pure (by simp)

theorem loopValues_carries (h : inner.Carried E outer) :
    Carries E (loopValues inner) (loopValues outer) := by
  apply peek_carries.bind
  intro tok
  apply carries_bind_source
  apply carries_ite
  . rw [isKeyword_moved]
  . intro _
    apply (keywordLeaf_carries tok).bind
    intro keyword
    exact loop_carries rfl (loopValueStep_carries h)
  . intro _
    exact carries_pure rfl

theorem valueLoop_carries (h : inner.Carried E outer) (keyword : Node) (construct : Construct)
    (start : Nat) :
    Carries E (valueLoop inner keyword construct start)
      (valueLoop outer (moved E.width keyword) construct (start + E.width)) := by
  apply (loopVariable_carries h).bind
  intro name
  apply (loopValues_carries h).bind
  intro values
  apply (acceptOperator_carries ";").bind
  intro semicolon
  apply (lineBreaks_carries h).bind
  intro breaks
  apply (doGroup_carries h construct start).bind
  intro body
  exact node_carries _ (by simp)

theorem forLoop_carries (h : inner.Carried E outer) :
    Carries E (forLoop inner) (forLoop outer) := by
  apply (peekWith_carries _).bind
  intro tok
  apply (keywordLeaf_carries tok).bind
  intro keyword
  apply carries_ite Iff.rfl
  . intro _
    exact valueLoop_carries h keyword _ tok.span.start
  . intro _
    apply (peekWith_carries _).bind
    intro opener
    apply carries_ite Iff.rfl
    . intro _
      exact headerLoop_carries h keyword tok.span.start
    . intro _
      exact valueLoop_carries h keyword _ tok.span.start

/-! ### Choices -/

theorem elifClause_carries (h : inner.Carried E outer) (tok : Token) :
    Carries E (elifClause inner tok) (elifClause outer (moved E.width tok)) := by
  apply (keywordLeaf_carries tok).bind
  intro leaf
  apply (h.statements {}).bind
  intro condition
  apply (expectKeyword_carries _ _ tok.span.start).bind
  intro keyword
  apply (h.statements {}).bind
  intro body
  exact node_carries _ (by simp)

theorem elseClause_carries (h : inner.Carried E outer) (tok : Token) :
    Carries E (elseClause inner tok) (elseClause outer (moved E.width tok)) := by
  apply (keywordLeaf_carries tok).bind
  intro leaf
  exact (h.statements {}).bind fun _ => node_carries _ rfl

theorem alternativeStep_carries (h : inner.Carried E outer) (clauses : List Node) :
    Carries E (alternativeStep inner clauses) (alternativeStep outer (moved E.width clauses)) := by
  apply (peekWith_carries _).bind
  intro tok
  apply carries_bind_source
  apply carries_ite
  . rw [isKeyword_moved]
  . intro _
    exact (elifClause_carries h tok).bind fun _ => carries_pure (by simp)
  . intro _
    apply carries_bind_source
    apply carries_ite
    . rw [isKeyword_moved]
    . intro _
      exact (elseClause_carries h tok).bind fun _ => carries_pure (by simp)
    . intro _
      exact carries_pure rfl

theorem ifStatement_carries (h : inner.Carried E outer) :
    Carries E (ifStatement inner) (ifStatement outer) := by
  apply (peekWith_carries _).bind
  intro tok
  apply (keywordLeaf_carries tok).bind
  intro leaf
  apply (h.statements {}).bind
  intro condition
  apply (expectKeyword_carries _ _ tok.span.start).bind
  intro keyword
  apply (h.statements {}).bind
  intro body
  apply (loop_carries rfl (alternativeStep_carries h)).bind
  intro clauses
  apply (expectKeyword_carries _ _ tok.span.start).bind
  intro close
  exact node_carries _ (by simp)

theorem patternStep_carries (h : inner.Carried E outer) (patterns : List Node) :
    Carries E (patternStep inner patterns) (patternStep outer (moved E.width patterns)) := by
  apply peek_carries.bind
  intro tok
  apply (literal_carries h).bindOption
  . exact (report_carries _ tok.span).bind fun _ => carries_pure rfl
  . intro pattern
    apply (acceptOperator_carries "|").bind
    intro bar
    apply carries_pure
    rw [isEmpty_moved]
    split <;> simp

theorem caseItemBody_carries (h : inner.Carried E outer) :
    Carries E (caseItemBody inner) (caseItemBody outer) := by
  apply (h.statements { inCaseItem := true }).bind
  intro body
  apply peek_carries.bind
  intro tok
  apply carries_ite Iff.rfl
  . intro _
    exact (tokenLeaf_carries tok).bind fun _ => carries_pure (by simp)
  . intro _
    exact carries_pure rfl

theorem caseItem_carries (h : inner.Carried E outer) :
    Carries E (caseItem inner) (caseItem outer) := by
  apply peek_carries.bind
  intro first
  apply (acceptOperator_carries "(").bind
  intro opener
  apply (loop_carries rfl (patternStep_carries h)).bind
  intro patterns
  dsimp only
  rw [← moved_append]
  apply carries_ite
  . rw [isEmpty_moved]
  . intro _
    exact carries_pure rfl
  . intro _
    apply (expectOperator_carries _ _ first.span.start).bind
    intro close
    apply carries_ite
    . rw [isEmpty_moved]
    . intro _
      exact (node_carries _ rfl).bind fun _ => carries_pure rfl
    . intro _
      apply (caseItemBody_carries h).bind
      intro body
      exact (node_carries _ (by simp)).bind fun _ => carries_pure rfl

theorem caseItemStep_carries (h : inner.Carried E outer) (items : List Node) :
    Carries E (caseItemStep inner items) (caseItemStep outer (moved E.width items)) := by
  apply (peekWith_carries _).bind
  intro tok
  apply carries_bind_source
  apply carries_bind_isHalted
  intro halted
  apply carries_ite
  . rw [isKeyword_moved, Token.moved_isEof]
  . intro _
    exact carries_pure rfl
  . intro _
    apply position_carries.bind
    intro start
    apply (caseItem_carries h).bind
    intro item
    apply (lineBreaks_carries h).bind
    intro breaks
    apply position_carries.bind
    intro stop
    apply carries_pure
    simp only [moved_nat, Nat.add_right_cancel_iff]
    split <;> simp

theorem caseSubject_carries (h : inner.Carried E outer) :
    Carries E (caseSubject inner) (caseSubject outer) := by
  apply peek_carries.bind
  intro tok
  apply (literal_carries h).bindOption
  . exact (report_carries _ tok.span).bind fun _ => carries_pure rfl
  . intro subject
    exact carries_pure rfl

theorem caseStatement_carries (h : inner.Carried E outer) :
    Carries E (caseStatement inner) (caseStatement outer) := by
  apply (peekWith_carries _).bind
  intro tok
  apply (keywordLeaf_carries tok).bind
  intro leaf
  apply (caseSubject_carries h).bind
  intro subject
  apply (acceptOperator_carries ";").bind
  intro semicolon
  apply (lineBreaks_carries h).bind
  intro breaks
  apply (expectKeyword_carries _ _ tok.span.start).bind
  intro keyword
  apply (lineBreaks_carries h).bind
  intro moreBreaks
  apply (loop_carries rfl (caseItemStep_carries h)).bind
  intro items
  apply (expectKeyword_carries _ _ tok.span.start).bind
  intro close
  exact node_carries _ (by simp)

/-! ### Functions -/

theorem arithmeticCommand_carries (h : inner.Carried E outer) :
    Carries E (arithmeticCommand inner) (arithmeticCommand outer) := by
  apply (peekWith_carries _).bind
  intro opener
  apply (tokenLeaf_carries opener).bind
  intro leaf
  apply (inMode_carries
    (withFlags_carries (arithmeticBody_carries h _ opener.span.start))).bind
  intro parts
  exact node_carries _ rfl

/-- The compound command that a word opens, if it opens one. -/
theorem compoundOf?_carries (h : inner.Carried E outer) (text : String) :
    compoundOf? inner text = none ∧ compoundOf? outer text = none ∨
      ∃ m m', compoundOf? inner text = some m ∧ compoundOf? outer text = some m' ∧
        Carries E m m' := by
  unfold compoundOf?
  split
  . exact .inr ⟨_, _, rfl, rfl, braceGroup_carries h⟩
  . exact .inr ⟨_, _, rfl, rfl, testCommand_carries h⟩
  . exact .inr ⟨_, _, rfl, rfl, testCommand_carries h⟩
  . exact .inr ⟨_, _, rfl, rfl, ifStatement_carries h⟩
  . exact .inr ⟨_, _, rfl, rfl, whileLoop_carries h⟩
  . exact .inr ⟨_, _, rfl, rfl, whileLoop_carries h⟩
  . exact .inr ⟨_, _, rfl, rfl, forLoop_carries h⟩
  . exact .inr ⟨_, _, rfl, rfl, forLoop_carries h⟩
  . exact .inr ⟨_, _, rfl, rfl, caseStatement_carries h⟩
  . exact .inl ⟨rfl, rfl⟩

theorem functionBody_carries (h : inner.Carried E outer) :
    Carries E (functionBody inner) (functionBody outer) := by
  apply (peekWith_carries _).bind
  intro tok
  rw [Token.moved_kind]
  split
  . exact (subshell_carries h).bind fun _ => carries_pure rfl
  . exact (arithmeticCommand_carries h).bind fun _ => carries_pure rfl
  . apply carries_bind_source
    rw [isBareWord_moved, Token.moved_text]
    obtain ⟨hinner, houter⟩ | ⟨m, m', hinner, houter, hcarries⟩ :=
      compoundOf?_carries h tok.text
    . rw [hinner, houter, ite_self]
      exact carries_pure rfl
    . rw [hinner, houter]
      cases isBareWord E.inner.source tok with
      | true => exact hcarries.bind fun _ => carries_pure rfl
      | false => exact carries_pure rfl
  . exact carries_pure rfl

theorem functionFrom_carries (h : inner.Carried E outer) (head : List Node) :
    Carries E (functionFrom inner head) (functionFrom outer (moved E.width head)) := by
  apply (lineBreaks_carries h).bind
  intro breaks
  apply (functionBody_carries h).bindOption
  . apply (peekWith_carries _).bind
    intro tok
    exact (report_carries _ tok.span).bind fun _ => node_carries _ (by simp)
  . intro body
    exact (redirects_carries h).bind fun _ => node_carries _ (by simp)

theorem functionName_carries : Carries E functionName functionName := by
  apply peek_carries.bind
  intro tok
  apply carries_ite Iff.rfl
  . intro _
    exact (leafAt_carries _ rfl).bind fun _ => carries_pure rfl
  . intro _
    exact (report_carries _ tok.span).bind fun _ => carries_pure rfl

theorem functionParentheses_carries : Carries E functionParentheses functionParentheses := by
  apply peek_carries.bind
  intro tok
  apply (acceptOperator_carries "(").bind
  intro opener
  apply carries_ite
  . rw [isEmpty_moved]
  . intro _
    exact carries_pure rfl
  . intro _
    exact (expectOperator_carries _ _ tok.span.start).bind fun _ => carries_pure (by simp)

theorem keywordFunction_carries (h : inner.Carried E outer) :
    Carries E (keywordFunction inner) (keywordFunction outer) := by
  apply (peekWith_carries _).bind
  intro tok
  apply (keywordLeaf_carries tok).bind
  intro keyword
  apply functionName_carries.bind
  intro name
  apply functionParentheses_carries.bind
  intro parentheses
  rw [← moved_cons, ← moved_append]
  exact functionFrom_carries h _

theorem functionHead?_carries : Carries E functionHead? functionHead? := by
  apply (peekWith_carries _).bind
  intro tok
  apply (leafAt_carries _ rfl).bind
  intro name
  apply (peekWith_carries _).bind
  intro opener
  apply carries_ite Iff.rfl
  . intro _
    apply (tokenLeaf_carries opener).bind
    intro openerLeaf
    apply (peekWith_carries _).bind
    intro close
    apply carries_ite Iff.rfl
    . intro _
      exact (tokenLeaf_carries close).bind fun _ => carries_pure rfl
    . intro _
      exact carries_pure rfl
  . intro _
    exact carries_pure rfl

theorem plainFunction?_carries (h : inner.Carried E outer) :
    Carries E (plainFunction? inner) (plainFunction? outer) := by
  apply (attempt_carries functionHead?_carries).bindOption
  . exact carries_pure rfl
  . intro head
    exact (functionFrom_carries h head).bind fun _ => carries_pure rfl

end Grammar

end ShellTree
