import ShellTree.Program
import ShellTree.Proofs.Frame.Compound

/-!
This module contains the frame of statements and their lists, and that of all constructs.
-/

namespace ShellTree
namespace Grammar

open Parse

variable {env : Env} {inner : Nested} {depth extra : Nat}

/-! ### Statements -/

theorem statementAfter_frames (h : inner.Framed env) (op : String) (tier : Tier) :
    Frames env depth extra (statementAfter inner op tier) := by
  apply (h.statement depth tier).seq
  intro statement hstatement
  cases statement with
  | none =>
    apply (peekWith_frames _).seq
    intro tok _
    exact (report_frames _ tok.span).map fun _ _ => shallow_nil
  | some statement => exact frames_pure (by simpa using hstatement extra)

theorem negation_frames (h : inner.Framed env) : Frames env depth extra (negation inner) := by
  apply (peekWith_frames _).seq
  intro tok _
  apply (keywordLeaf_frames tok).seq
  intro keyword hkeyword
  apply (statementAfter_frames h "!" .pipeline).seq
  intro content hcontent
  exact node_frames rfl (by simp [hkeyword, hcontent])

theorem wordStatement_frames (h : inner.Framed env) (text : String) :
    Frames env depth 1 (wordStatement inner text) := by
  unfold wordStatement
  cases hcompound : compoundOf? inner text with
  | some compound =>
    exact (compoundOf?_frames h text compound hcompound).map fun _ => shallow_some.2
  | none =>
    apply frames_ite
    . intro _
      exact (keywordFunction_frames h).map fun _ => shallow_some.2
    . intro _
      apply frames_ite
      . intro _
        exact (negation_frames h).map fun _ => shallow_some.2
      . intro _
        apply frames_ite
        . intro _
          exact frames_pure shallow_none
        . intro _
          apply frames_ite
          . intro _
            exact (declaration_frames h).map fun _ => shallow_some.2
          . intro _
            apply frames_ite
            . intro _
              exact (unset_frames h).map fun _ => shallow_some.2
            . intro _
              apply (plainFunction?_frames h).bind
              intro definition hdefinition
              cases definition with
              | none => exact (command_frames h).map fun _ => shallow_some.2
              | some definition => exact frames_pure hdefinition

/-- A statement may be a group itself. -/
theorem primaryBody_frames (h : inner.Framed env) : Frames env depth 1 (primaryBody inner) := by
  apply (peekWith_frames _).seq
  intro tok _
  split
  . apply frames_bind_source
    apply frames_ite
    . intro _
      exact wordStatement_frames h tok.text
    . intro _
      exact (command_frames h).map fun _ => shallow_some.2
  . exact (command_frames h).map fun _ => shallow_some.2
  . exact (subshell_frames h).map fun _ => shallow_some.2
  . exact (arithmeticCommand_frames h).map fun _ => shallow_some.2
  . apply frames_ite
    . intro _
      exact (command_frames h).map fun _ => shallow_some.2
    . intro _
      exact frames_pure shallow_none

theorem primaryStatement_frames (h : inner.Framed env) :
    Frames env depth extra (primaryStatement inner) := nest_frames (primaryBody_frames h)

theorem shallow_leftOperands {left : Node} (h : Shallow env depth extra left)
    (op : StatementOperator) : Shallow env depth extra (leftOperands op left) := by
  unfold leftOperands
  split
  . exact h.children
  . simp [h]

theorem joined_frames (h : inner.Framed env) (op : StatementOperator) (tok : Token) {left : Node}
    (hleft : Shallow env depth extra left) :
    Frames env depth extra (joined inner op tok left) := by
  apply (tokenLeaf_frames tok).seq
  intro leaf hleaf
  apply (lineBreaks_frames h).seq
  intro breaks hbreaks
  apply (statementAfter_frames h _ _).seq
  intro right hright
  apply node_frames
  . split <;> rfl
  . simp [shallow_leftOperands hleft, hleaf, hbreaks, hright]

theorem statementStep_frames (h : inner.Framed env) (tier : Tier) {left : Node}
    (hleft : Shallow env depth extra left) :
    Frames env depth extra (statementStep inner tier left) := by
  apply (peekWith_frames _).seq
  intro tok _
  cases StatementOperator.ofToken? tok with
  | none => exact frames_pure hleft
  | some op =>
    apply frames_ite
    . intro _
      exact frames_pure hleft
    . intro _
      apply frames_ite
      . intro _
        apply (redirects_frames h).seq
        intro targets htargets
        exact (node_frames rfl (by simp [hleft, htargets])).map fun _ => shallow_yield.2
      . intro _
        exact (joined_frames h op tok hleft).map fun _ => shallow_yield.2

theorem statement_frames (h : inner.Framed env) (tier : Tier) :
    Frames env depth extra (statement inner tier) := by
  apply (primaryStatement_frames h).seq
  intro left hleft
  cases left with
  | none => exact frames_pure shallow_none
  | some left =>
    exact (loop_frames (shallow_some.1 (hleft extra)) fun _ => statementStep_frames h tier).map
      fun _ => shallow_some.2

/-! ### Lists of statements -/

theorem recoveryStep_frames (h : inner.Framed env) (ctx : ListContext) {junk : List Node}
    (hjunk : Shallow env depth extra junk) :
    Frames env depth extra (recoveryStep inner ctx junk) := by
  have htake : ∀ node, Shallow env depth extra node → Frames env depth extra
      (do return if ← isHalted then ForInStep.done (junk ++ [node]) else .yield (junk ++ [node])) :=
    fun node hnode => doneIfHalted_frames (by simp [hjunk, hnode])
  apply (peekWith_frames _).seq
  intro tok _
  apply frames_ite
  . intro _
    exact frames_pure hjunk
  . intro _
    apply frames_bind_source
    apply frames_ite
    . intro _
      exact frames_pure hjunk
    . intro _
      apply frames_ite
      . intro _
        apply (literal_frames h).seq
        intro literal hliteral
        cases literal with
        | none => exact frames_pure hjunk
        | some literal => exact htake literal (shallow_some.1 (hliteral extra))
      . intro _
        exact (tokenLeaf_frames tok).bind htake

theorem recover_frames (h : inner.Framed env) (ctx : ListContext) :
    Frames env depth extra (recover inner ctx) := by
  apply (peekWith_frames _).seq
  intro first _
  apply frames_ite
  . intro _
    exact frames_pure shallow_nil
  . intro _
    apply (loop_frames shallow_nil fun _ => recoveryStep_frames h ctx).seq
    intro junk hjunk
    have hrest : Frames env depth extra
        (if junk.length = 1 && junk.all (fun only => only.isError && only.isLeaf) then return junk
          else errorAround junk) :=
      frames_ite (fun _ => frames_pure (hjunk extra)) fun _ => errorAround_frames (hjunk extra)
    apply frames_ite
    . intro _
      apply frames_bind_liftM
      intro span
      exact (report_frames _ span).seq fun _ _ => hrest
    . intro _
      exact hrest

theorem strayCloser_frames (tok : Token) : Frames env depth extra (strayCloser tok) := by
  apply (report_frames _ tok.span).seq
  intro _ _
  apply (keywordLeaf_frames tok).seq
  intro leaf hleaf
  exact node_frames rfl (by simp [hleaf])

theorem terminator?_frames (h : inner.Framed env) (ctx : ListContext) :
    Frames env depth extra (terminator? inner ctx) := by
  apply (peekWith_frames _).seq
  intro tok _
  apply frames_ite
  . intro _
    exact (tokenLeaf_frames tok).map fun _ hleaf => by simp [hleaf]
  . intro _
    apply frames_ite
    . intro _
      apply (lineBreak?_frames h true).map
      intro nodes hnodes
      cases nodes with
      | none => simp
      | some nodes => simpa using hnodes
    . intro _
      apply frames_ite
      . intro _
        exact frames_pure shallow_none
      . intro _
        apply frames_bind_source
        apply frames_ite
        . intro _
          exact frames_pure (by simp)
        . intro _
          exact (recover_frames h ctx).map fun _ => shallow_some.2

theorem forceProgress_frames {nodes : List Node} (hnodes : Shallow env depth extra nodes) :
    Frames env depth extra (forceProgress nodes) := by
  apply peek_frames.seq
  intro tok _
  apply frames_ite
  . intro _
    exact frames_pure hnodes
  . intro _
    apply (tokenLeaf_frames tok).seq
    intro leaf hleaf
    exact (node_frames rfl (by simp [hleaf])).map fun _ herror => by simp [hnodes, herror]

theorem listItemStep_frames (h : inner.Framed env) (ctx : ListContext) {nodes : List Node}
    (hnodes : Shallow env depth extra nodes) :
    Frames env depth extra (listItemStep inner ctx nodes) := by
  apply frames_bind_position
  intro start
  apply (statement_frames h .list).seq
  intro statement hstatement
  cases statement with
  | none => exact (recover_frames h ctx).map fun _ herrors => by simp [hnodes, herrors]
  | some statement =>
    simp only [shallow_some] at hstatement
    apply (terminator?_frames h ctx).seq
    intro terminator hterminator
    cases terminator with
    | none => exact frames_pure (by simp [hnodes, hstatement])
    | some terminator =>
      simp only [shallow_some] at hterminator
      have htaken : Shallow env depth extra (nodes ++ statement :: terminator) := by
        simp [hnodes, hstatement, hterminator]
      apply frames_bind_position
      intro stop
      apply frames_bind_isHalted
      intro halted
      apply frames_ite
      . intro _
        exact forceProgress_frames htaken
      . intro _
        exact frames_pure htaken

theorem listStep_frames (h : inner.Framed env) (ctx : ListContext) {nodes : List Node}
    (hnodes : Shallow env depth extra nodes) :
    Frames env depth extra (listStep inner ctx nodes) := by
  apply tick_frames.seq
  intro proceeds _
  apply frames_ite
  . intro _
    apply (peekWith_frames _).seq
    intro tok _
    apply frames_ite
    . intro _
      exact frames_pure hnodes
    . intro _
      apply frames_ite
      . intro _
        apply (lineBreak?_frames h false).map
        intro more hmore
        cases more with
        | none => simpa using hnodes
        | some more => simpa [hnodes] using hmore
      . intro _
        apply frames_bind_source
        apply frames_ite
        . intro _
          apply frames_ite
          . intro _
            exact (strayCloser_frames tok).map fun _ hcloser => by simp [hnodes, hcloser]
          . intro _
            exact frames_pure hnodes
        . intro _
          exact listItemStep_frames h ctx hnodes
  . intro _
    exact frames_pure hnodes

theorem statements_frames (h : inner.Framed env) (ctx : ListContext) :
    Frames env depth extra (statements inner ctx) :=
  loop_frames shallow_nil fun _ => listStep_frames h ctx

/-! ### All constructs -/

theorem constructs_framed (h : inner.Framed env) : (constructs inner).Framed env where
  statements _ := statements_frames h
  statement _ := statement_frames h
  redirect _ := redirect_frames h
  literal _ := literal_frames h
  fragment _ := fragment_frames h
  arithmetic _ := arithmetic_frames h
  arithmeticOperand _ := arithmeticOperand_frames h
  test _ := test_frames h
  testOperand _ := testOperand_frames h

theorem none_framed (env : Env) : Nested.none.Framed env where
  statements _ _ := frames_of_fault fun _ => rfl
  statement _ _ := frames_of_fault fun _ => rfl
  redirect _ := frames_of_fault fun _ => rfl
  literal _ := frames_of_fault fun _ => rfl
  fragment _ := frames_of_fault fun _ => rfl
  arithmetic _ _ := frames_of_fault fun _ => rfl
  arithmeticOperand _ := frames_of_fault fun _ => rfl
  test _ := frames_of_fault fun _ => rfl
  testOperand _ := frames_of_fault fun _ => rfl

theorem nested_framed (env : Env) (level : Nat) : (nested level).Framed env := by
  induction level with
  | zero => exact none_framed env
  | succ level ih => exact constructs_framed ih

/-! ### Scripts -/

theorem reportPending_frames : Frames env depth extra reportPending := by
  have hreports : ∀ requests : List Heredoc.Request, Frames env depth extra
      (requests.forM fun request =>
        reportUnclosed (.heredocStart request.delimiter) request.redirectStart) := by
    intro requests
    induction requests with
    | nil => exact frames_pure (shallow_unit _)
    | cons request requests ih => exact (reportUnclosed_frames _ _).seq fun _ _ => ih
  have hmodify : reportPending = (do
      let s ← get
      modify fun s => { s with pending := [] }
      s.pending.forM fun request =>
        reportUnclosed (.heredocStart request.delimiter) request.redirectStart) := rfl
  rw [hmodify]
  apply frames_bind_get
  intro s
  apply Frames.seq
  . exact frames_modify fun s => { Framed.refl env s with }
  . intro _ _
    exact hreports s.pending

theorem unread_frames : Frames env depth extra unread := by
  apply frames_bind_get
  intro s
  apply frames_bind_source
  apply frames_ite
  . intro _
    apply frames_bind_liftM
    intro span
    exact frames_pure (shallow_cons.2 ⟨shallow_leaf rfl span, shallow_nil⟩)
  . intro _
    exact frames_pure shallow_nil

theorem script_frames (env : Env) : Frames env depth 0 script := by
  apply frames_bind_source
  apply ((nested_framed env _).statements depth { topLevel := true }).seq
  intro nodes hnodes
  apply reportPending_frames.seq
  intro _ _
  apply unread_frames.seq
  intro rest hrest
  apply frames_bind_liftM
  intro span
  exact frames_pure (.plainNode rfl (by simp [hnodes, hrest]))

end Grammar
end ShellTree
