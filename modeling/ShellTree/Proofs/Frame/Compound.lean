import ShellTree.Grammar.Function
import ShellTree.Proofs.Frame.Command
import ShellTree.Proofs.Frame.Expression

/-!
This module contains the frame of line breaks and compound commands. A group takes the level of the
statement that it is or is a part of.
-/

namespace ShellTree
namespace Grammar

open Parse

variable {env : Env} {inner : Nested} {depth extra : Nat}

/-! ### Line breaks -/

theorem bodies_frames (h : inner.Framed env) (requests : List Heredoc.Request) (start : Nat) :
    Frames env depth extra (bodies inner requests start) := by
  induction requests generalizing start with
  | nil => exact frames_pure shallow_nil
  | cons request requests ih =>
    have hrest : ∀ (extent : Heredoc.Extent) (body : Node) (delimiter : List Node),
        Shallow env depth extra body → Shallow env depth extra delimiter →
        Frames env depth extra (do
          setPosition extent.resumeAt
          let rest ← bodies inner requests (afterLineBreak (← source) extent.resumeAt)
          return body :: delimiter ++ rest) := by
      intro extent body delimiter hbody hdelimiter
      apply (setPosition_frames _).seq
      intro _ _
      apply frames_bind_source
      exact (ih _).map fun _ hrest => by simp [hbody, hdelimiter, hrest]
    apply frames_bind_source
    apply frames_bind_liftM
    intro extent
    apply (heredocBody_frames h extent.body request.quoted).seq
    intro body hbody
    obtain ⟨extentBody, delimiter⟩ := extent
    cases delimiter with
    | none =>
      apply (reportUnclosed_frames _ request.redirectStart).seq
      intro _ _
      exact hrest ⟨extentBody, none⟩ body [] (hbody extra) shallow_nil
    | some span =>
      apply (leafAt_frames rfl span).seq
      intro leaf hleaf
      exact hrest ⟨extentBody, some span⟩ body [leaf] (hbody extra) (by simp [hleaf])

theorem pendingBodies_frames (h : inner.Framed env) :
    Frames env depth extra (pendingBodies inner) := by
  have hmodify : pendingBodies inner = (do
      let s ← get
      modify fun s => { s with pending := [] }
      bodies inner s.pending s.pos) := rfl
  rw [hmodify]
  apply frames_bind_get
  intro s
  apply Frames.seq
  . exact frames_modify fun s => { Framed.refl env s with }
  . intro _ _
    exact bodies_frames h s.pending s.pos

theorem lineBreak?_frames (h : inner.Framed env) (keepLeaf : Bool) :
    Frames env depth extra (lineBreak? inner keepLeaf) := by
  apply (peekWith_frames _).seq
  intro tok _
  apply frames_ite
  . intro _
    apply (tokenLeaf_frames tok).seq
    intro leaf hleaf
    apply (pendingBodies_frames h).map
    intro nodes hnodes
    cases keepLeaf <;> simp [hleaf, hnodes]
  . intro _
    exact frames_pure shallow_none

theorem lineBreaksStep_frames (h : inner.Framed env) {nodes : List Node}
    (hnodes : Shallow env depth extra nodes) :
    Frames env depth extra (lineBreaks.step inner nodes) := by
  apply (lineBreak?_frames h false).seq
  intro more hmore
  cases more with
  | none => exact frames_pure hnodes
  | some more => exact frames_pure (by simpa [hnodes] using hmore extra)

theorem lineBreaks_frames (h : inner.Framed env) : Frames env depth extra (lineBreaks inner) :=
  loop_frames shallow_nil fun _ => lineBreaksStep_frames h

/-! ### Groups and loops -/

theorem braceGroup_frames (h : inner.Framed env) : Frames env depth 1 (braceGroup inner) := by
  apply (peekWith_frames _).seq
  intro opener _
  apply (keywordLeaf_frames opener).seq
  intro leaf hleaf
  apply (h.statements depth {}).seq
  intro body hbody
  apply (expectKeyword_frames _ _ opener.span.start).seq
  intro close hclose
  exact levelNode_frames (by simp [hleaf, hbody, hclose])

theorem subshell_frames (h : inner.Framed env) : Frames env depth 1 (subshell inner) := by
  apply (peekWith_frames _).seq
  intro opener _
  apply (tokenLeaf_frames opener).seq
  intro leaf hleaf
  apply (h.statements depth {}).seq
  intro body hbody
  apply (expectOperator_frames _ _ opener.span.start).seq
  intro close hclose
  exact levelNode_frames (by simp [hleaf, hbody, hclose])

theorem doGroup_frames (h : inner.Framed env) (construct : Construct) (start : Nat) :
    Frames env depth extra (doGroup inner construct start) := by
  apply (peekWith_frames _).seq
  intro tok _
  apply frames_bind_source
  apply frames_ite
  . intro _
    apply (keywordLeaf_frames tok).seq
    intro leaf hleaf
    apply (h.statements depth {}).seq
    intro body hbody
    apply (expectKeyword_frames _ _ start).seq
    intro close hclose
    exact (node_frames rfl (by simp [hleaf, hbody, hclose])).inList
  . intro _
    exact (reportMissing_frames tok _ _ start).map fun _ _ => shallow_nil

theorem whileLoop_frames (h : inner.Framed env) : Frames env depth extra (whileLoop inner) := by
  apply (peekWith_frames _).seq
  intro tok _
  apply (keywordLeaf_frames tok).seq
  intro leaf hleaf
  apply (h.statements depth {}).seq
  intro condition hcondition
  apply (doGroup_frames h _ tok.span.start).seq
  intro body hbody
  exact node_frames rfl (by simp [hleaf, hcondition, hbody])

theorem headerAssignment?_frames (h : inner.Framed env) (name : Token) :
    Frames env depth extra (headerAssignment? inner name) := by
  apply (leafAt_frames rfl name.span).seq
  intro nameLeaf hname
  apply peek_frames.seq
  intro equals _
  apply frames_ite
  . intro _
    apply (tokenLeaf_frames equals).seq
    intro equalsLeaf hequals
    apply (h.arithmetic depth Operator.conditionalRow).seq
    intro value hvalue
    cases value with
    | none => exact frames_pure shallow_none
    | some value =>
      simp only [shallow_some] at hvalue
      apply peek_frames.seq
      intro semicolon _
      apply frames_ite
      . intro _
        exact (node_frames rfl (by simp [hname, hequals, hvalue])).map fun _ => shallow_some.2
      . intro _
        exact frames_pure shallow_none
  . intro _
    exact frames_pure shallow_none

theorem headerClause_frames (h : inner.Framed env) (allowAssignment : Bool) :
    Frames env depth extra (headerClause inner allowAssignment) := by
  apply peek_frames.seq
  intro tok _
  apply frames_ite
  . intro _
    exact frames_pure shallow_nil
  . intro _
    apply atArithmeticClose_frames.seq
    intro close _
    apply frames_ite
    . intro _
      exact frames_pure shallow_nil
    . intro _
      apply frames_ite
      . intro _
        apply (attempt_frames (headerAssignment?_frames h tok)).seq
        intro assignment hassignment
        cases assignment with
        | none => exact requiredExpression_frames h
        | some assignment => exact frames_pure (by simpa using hassignment extra)
      . intro _
        exact requiredExpression_frames h

theorem headerClauses_frames (h : inner.Framed env) (start : Nat) :
    Frames env depth extra (headerClauses inner start) := by
  apply (headerClause_frames h true).seq
  intro first hfirst
  apply (expectOperator_frames _ _ start).seq
  intro semicolon hsemicolon
  apply frames_ite
  . intro _
    exact frames_pure (hfirst extra)
  . intro _
    apply (headerClause_frames h false).seq
    intro second hsecond
    apply (expectOperator_frames _ _ start).seq
    intro nextSemicolon hnext
    apply frames_ite
    . intro _
      exact frames_pure (by simp [hfirst, hsemicolon, hsecond])
    . intro _
      exact (headerClause_frames h false).map fun _ hthird => by
        simp [hfirst, hsemicolon, hsecond, hnext, hthird]

theorem headerLoopBody_frames (h : inner.Framed env) (start : Nat) :
    Frames env depth 1 (headerLoopBody inner start) := by
  apply (peekWith_frames _).seq
  intro tok _
  apply frames_bind_source
  apply frames_ite
  . intro _
    exact (braceGroup_frames h).inList
  . intro _
    exact doGroup_frames h _ start

theorem headerLoop_frames (h : inner.Framed env) {keyword : Node}
    (hkeyword : Shallow env depth (extra + 1) keyword) (start : Nat) :
    Frames env depth (extra + 1) (headerLoop inner keyword start) := by
  apply (peekWith_frames _).seq
  intro opener _
  apply (tokenLeaf_frames opener).seq
  intro leaf hleaf
  apply (inMode_frames (withFlags_frames _)).seq
  . intro header hheader
    apply (acceptOperator_frames ";").seq
    intro semicolon hsemicolon
    apply (lineBreaks_frames h).seq
    intro breaks hbreaks
    apply ((headerLoopBody_frames h start).mono (Nat.le_add_left 1 extra)).bind
    intro body hbody
    exact node_frames rfl (by simp [hkeyword, hleaf, hheader, hsemicolon, hbreaks, hbody])
  . apply (headerClauses_frames h start).seq
    intro clauses hclauses
    exact (arithmeticClose_frames _ start).map fun _ hclose => by simp [hclauses, hclose]

theorem loopVariable_frames (h : inner.Framed env) :
    Frames env depth extra (loopVariable inner) := by
  apply peek_frames.seq
  intro tok _
  apply frames_ite
  . intro _
    exact (leafAt_frames rfl tok.span).inList
  . intro _
    apply (report_frames _ tok.span).seq
    intro _ _
    exact (literal_frames h).map fun _ => shallow_toList.2

theorem loopValueStep_frames (h : inner.Framed env) {values : List Node}
    (hvalues : Shallow env depth extra values) :
    Frames env depth extra (loopValueStep inner values) := by
  apply (literal_frames h).seq
  intro value hvalue
  cases value with
  | none => exact frames_pure hvalues
  | some value => exact frames_pure (by simpa [hvalues] using hvalue extra)

theorem loopValues_frames (h : inner.Framed env) : Frames env depth extra (loopValues inner) := by
  apply peek_frames.seq
  intro tok _
  apply frames_bind_source
  apply frames_ite
  . intro _
    apply (keywordLeaf_frames tok).seq
    intro keyword hkeyword
    exact loop_frames (by simp [hkeyword]) fun _ => loopValueStep_frames h
  . intro _
    exact frames_pure shallow_nil

theorem valueLoop_frames (h : inner.Framed env) {keyword : Node}
    (hkeyword : Shallow env depth extra keyword) (construct : Construct) (start : Nat) :
    Frames env depth extra (valueLoop inner keyword construct start) := by
  apply (loopVariable_frames h).seq
  intro name hname
  apply (loopValues_frames h).seq
  intro values hvalues
  apply (acceptOperator_frames ";").seq
  intro semicolon hsemicolon
  apply (lineBreaks_frames h).seq
  intro breaks hbreaks
  apply (doGroup_frames h construct start).seq
  intro body hbody
  exact node_frames rfl (by simp [hkeyword, hname, hvalues, hsemicolon, hbreaks, hbody])

/-- The body of a loop with an arithmetic header may be a group in braces. -/
theorem forLoop_frames (h : inner.Framed env) : Frames env depth 1 (forLoop inner) := by
  apply (peekWith_frames _).seq
  intro tok _
  apply (keywordLeaf_frames tok).seq
  intro keyword hkeyword
  apply frames_ite
  . intro _
    exact valueLoop_frames h (hkeyword 1) _ tok.span.start
  . intro _
    apply (peekWith_frames _).seq
    intro opener _
    apply frames_ite
    . intro _
      exact headerLoop_frames h (hkeyword 1) tok.span.start
    . intro _
      exact valueLoop_frames h (hkeyword 1) _ tok.span.start

/-! ### Choices -/

theorem elifClause_frames (h : inner.Framed env) (tok : Token) :
    Frames env depth extra (elifClause inner tok) := by
  apply (keywordLeaf_frames tok).seq
  intro leaf hleaf
  apply (h.statements depth {}).seq
  intro condition hcondition
  apply (expectKeyword_frames _ _ tok.span.start).seq
  intro keyword hkeyword
  apply (h.statements depth {}).seq
  intro body hbody
  exact node_frames rfl (by simp [hleaf, hcondition, hkeyword, hbody])

theorem elseClause_frames (h : inner.Framed env) (tok : Token) :
    Frames env depth extra (elseClause inner tok) := by
  apply (keywordLeaf_frames tok).seq
  intro leaf hleaf
  apply (h.statements depth {}).seq
  intro body hbody
  exact node_frames rfl (by simp [hleaf, hbody])

theorem alternativeStep_frames (h : inner.Framed env) {clauses : List Node}
    (hclauses : Shallow env depth extra clauses) :
    Frames env depth extra (alternativeStep inner clauses) := by
  apply (peekWith_frames _).seq
  intro tok _
  apply frames_bind_source
  apply frames_ite
  . intro _
    exact (elifClause_frames h tok).map fun _ hclause => by simp [hclauses, hclause]
  . intro _
    apply frames_bind_source
    apply frames_ite
    . intro _
      exact (elseClause_frames h tok).map fun _ hclause => by simp [hclauses, hclause]
    . intro _
      exact frames_pure hclauses

theorem ifStatement_frames (h : inner.Framed env) :
    Frames env depth extra (ifStatement inner) := by
  apply (peekWith_frames _).seq
  intro tok _
  apply (keywordLeaf_frames tok).seq
  intro leaf hleaf
  apply (h.statements depth {}).seq
  intro condition hcondition
  apply (expectKeyword_frames _ _ tok.span.start).seq
  intro keyword hkeyword
  apply (h.statements depth {}).seq
  intro body hbody
  apply (loop_frames shallow_nil fun _ => alternativeStep_frames h).seq
  intro clauses hclauses
  apply (expectKeyword_frames _ _ tok.span.start).seq
  intro close hclose
  exact node_frames rfl (by simp [hleaf, hcondition, hkeyword, hbody, hclauses, hclose])

theorem patternStep_frames (h : inner.Framed env) {patterns : List Node}
    (hpatterns : Shallow env depth extra patterns) :
    Frames env depth extra (patternStep inner patterns) := by
  apply peek_frames.seq
  intro tok _
  apply (literal_frames h).seq
  intro pattern hpattern
  cases pattern with
  | none => exact (report_frames _ tok.span).map fun _ _ => hpatterns
  | some pattern =>
    simp only [shallow_some] at hpattern
    apply (acceptOperator_frames "|").map
    intro bar hbar
    split <;> simp [hpatterns, hpattern, hbar]

theorem caseItemBody_frames (h : inner.Framed env) :
    Frames env depth extra (caseItemBody inner) := by
  apply (h.statements depth { inCaseItem := true }).seq
  intro body hbody
  apply peek_frames.seq
  intro tok _
  apply frames_ite
  . intro _
    exact (tokenLeaf_frames tok).map fun _ hleaf => by simp [hbody, hleaf]
  . intro _
    exact frames_pure (hbody extra)

theorem caseItem_frames (h : inner.Framed env) : Frames env depth extra (caseItem inner) := by
  apply peek_frames.seq
  intro first _
  apply (acceptOperator_frames "(").seq
  intro opener hopener
  apply (loop_frames shallow_nil fun _ => patternStep_frames h).seq
  intro patterns hpatterns
  apply frames_ite
  . intro _
    exact frames_pure shallow_none
  . intro _
    apply (expectOperator_frames _ _ first.span.start).seq
    intro close hclose
    apply frames_ite
    . intro _
      exact (node_frames rfl (by simp [hopener, hpatterns])).map fun _ => shallow_some.2
    . intro _
      apply (caseItemBody_frames h).seq
      intro body hbody
      exact (node_frames rfl (by simp [hopener, hpatterns, hclose, hbody])).map
        fun _ => shallow_some.2

theorem caseItemStep_frames (h : inner.Framed env) {items : List Node}
    (hitems : Shallow env depth extra items) :
    Frames env depth extra (caseItemStep inner items) := by
  apply (peekWith_frames _).seq
  intro tok _
  apply frames_bind_source
  apply frames_bind_isHalted
  intro halted
  apply frames_ite
  . intro _
    exact frames_pure hitems
  . intro _
    apply frames_bind_position
    intro start
    apply (caseItem_frames h).seq
    intro item hitem
    apply (lineBreaks_frames h).seq
    intro breaks hbreaks
    apply frames_bind_position
    intro stop
    apply frames_pure
    split <;> simp [hitems, hitem, hbreaks]

theorem caseSubject_frames (h : inner.Framed env) :
    Frames env depth extra (caseSubject inner) := by
  apply peek_frames.seq
  intro tok _
  apply (literal_frames h).seq
  intro subject hsubject
  cases subject with
  | none => exact (report_frames _ tok.span).map fun _ _ => shallow_nil
  | some subject => exact frames_pure (by simpa using hsubject extra)

theorem caseStatement_frames (h : inner.Framed env) :
    Frames env depth extra (caseStatement inner) := by
  apply (peekWith_frames _).seq
  intro tok _
  apply (keywordLeaf_frames tok).seq
  intro leaf hleaf
  apply (caseSubject_frames h).seq
  intro subject hsubject
  apply (acceptOperator_frames ";").seq
  intro semicolon hsemicolon
  apply (lineBreaks_frames h).seq
  intro breaks hbreaks
  apply (expectKeyword_frames _ _ tok.span.start).seq
  intro keyword hkeyword
  apply (lineBreaks_frames h).seq
  intro moreBreaks hmore
  apply (loop_frames shallow_nil fun _ => caseItemStep_frames h).seq
  intro items hitems
  apply (expectKeyword_frames _ _ tok.span.start).seq
  intro close hclose
  exact node_frames rfl (by
    simp [hleaf, hsubject, hsemicolon, hbreaks, hkeyword, hmore, hitems, hclose])

/-! ### Functions -/

theorem arithmeticCommand_frames (h : inner.Framed env) :
    Frames env depth extra (arithmeticCommand inner) := by
  apply (peekWith_frames _).seq
  intro opener _
  apply (tokenLeaf_frames opener).seq
  intro leaf hleaf
  apply (inMode_frames (withFlags_frames (arithmeticBody_frames h _ opener.span.start))).seq
  intro parts hparts
  exact node_frames rfl (by simp [hleaf, hparts])

theorem compoundOf?_frames (h : inner.Framed env) (text : String) :
    ∀ m ∈ compoundOf? inner text, Frames env depth 1 m := by
  intro m hm
  unfold compoundOf? at hm
  split at hm <;> cases hm
  . exact braceGroup_frames h
  . exact testCommand_frames h
  . exact testCommand_frames h
  . exact ifStatement_frames h
  . exact whileLoop_frames h
  . exact whileLoop_frames h
  . exact forLoop_frames h
  . exact forLoop_frames h
  . exact caseStatement_frames h

theorem functionBody_frames (h : inner.Framed env) : Frames env depth 1 (functionBody inner) := by
  apply (peekWith_frames _).seq
  intro tok _
  split
  . exact (subshell_frames h).map fun _ => shallow_some.2
  . exact (arithmeticCommand_frames h).map fun _ => shallow_some.2
  . apply frames_bind_source
    split
    . next compound heq =>
      have hcompound : compound ∈ compoundOf? inner tok.text := by
        split at heq
        . exact heq
        . cases heq
      exact (compoundOf?_frames h tok.text compound hcompound).map fun _ => shallow_some.2
    . exact frames_pure shallow_none
  . exact frames_pure shallow_none

/-- The body takes the level of the definition. -/
theorem functionFrom_frames (h : inner.Framed env) {head : List Node}
    (hhead : Shallow env depth (extra + 1) head) :
    Frames env depth (extra + 1) (functionFrom inner head) := by
  apply (lineBreaks_frames h).seq
  intro breaks hbreaks
  apply ((functionBody_frames h).mono (Nat.le_add_left 1 extra)).bind
  intro body hbody
  cases body with
  | none =>
    apply (peekWith_frames _).seq
    intro tok _
    apply (report_frames _ tok.span).seq
    intro _ _
    exact node_frames rfl (by simp [hhead, hbreaks])
  | some body =>
    rw [shallow_some] at hbody
    apply (redirects_frames h).seq
    intro targets htargets
    exact node_frames rfl (by simp [hhead, hbreaks, hbody, htargets])

theorem functionName_frames : Frames env depth extra functionName := by
  apply peek_frames.seq
  intro tok _
  apply frames_ite
  . intro _
    exact (leafAt_frames rfl tok.span).inList
  . intro _
    exact (report_frames _ tok.span).map fun _ _ => shallow_nil

theorem functionParentheses_frames : Frames env depth extra functionParentheses := by
  apply peek_frames.seq
  intro tok _
  apply (acceptOperator_frames "(").seq
  intro opener hopener
  apply frames_ite
  . intro _
    exact frames_pure shallow_nil
  . intro _
    exact (expectOperator_frames _ _ tok.span.start).map fun _ hclose => by simp [hopener, hclose]

theorem keywordFunction_frames (h : inner.Framed env) :
    Frames env depth 1 (keywordFunction inner) := by
  apply (peekWith_frames _).seq
  intro tok _
  apply (keywordLeaf_frames tok).seq
  intro keyword hkeyword
  apply functionName_frames.seq
  intro name hname
  apply functionParentheses_frames.seq
  intro parentheses hparentheses
  exact functionFrom_frames h (by simp [hkeyword, hname, hparentheses])

theorem functionHead?_frames : Frames env depth extra functionHead? := by
  apply (peekWith_frames _).seq
  intro tok _
  apply (leafAt_frames rfl tok.span).seq
  intro name hname
  apply (peekWith_frames _).seq
  intro opener _
  apply frames_ite
  . intro _
    apply (tokenLeaf_frames opener).seq
    intro openerLeaf hopener
    apply (peekWith_frames _).seq
    intro close _
    apply frames_ite
    . intro _
      exact (tokenLeaf_frames close).map fun _ hclose => by simp [hname, hopener, hclose]
    . intro _
      exact frames_pure shallow_none
  . intro _
    exact frames_pure shallow_none

theorem plainFunction?_frames (h : inner.Framed env) :
    Frames env depth 1 (plainFunction? inner) := by
  apply (attempt_frames functionHead?_frames).seq
  intro head hhead
  cases head with
  | none => exact frames_pure shallow_none
  | some head =>
    exact (functionFrom_frames h (shallow_some.1 (hhead 1))).map fun _ => shallow_some.2

end Grammar
end ShellTree
