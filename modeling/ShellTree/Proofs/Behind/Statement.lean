import ShellTree.Program
import ShellTree.Proofs.Behind.Compound

/-!
This module contains statements and their lists in an outer parse.
-/

namespace ShellTree
namespace Grammar

open Parse

variable {E : Embedding} {inner outer : Nested}

/-! ### Statements -/

theorem statementAfter_carries (h : inner.Carried E outer) (op : String) (tier : Tier) :
    Carries E (statementAfter inner op tier) (statementAfter outer op tier) := by
  apply (h.statement tier).bindOption
  . apply (peekWith_carries _).bind
    intro tok
    exact (report_carries _ tok.span).bind fun _ => carries_pure rfl
  . intro statement
    exact carries_pure rfl

theorem negation_carries (h : inner.Carried E outer) :
    Carries E (negation inner) (negation outer) := by
  apply (peekWith_carries _).bind
  intro tok
  apply (keywordLeaf_carries tok).bind
  intro keyword
  exact (statementAfter_carries h "!" .pipeline).bind fun _ => node_carries _ rfl

theorem wordStatement_carries (h : inner.Carried E outer) (text : String) :
    Carries E (wordStatement inner text) (wordStatement outer text) := by
  unfold wordStatement
  obtain ⟨hinner, houter⟩ | ⟨m, m', hinner, houter, hcarries⟩ := compoundOf?_carries h text
  . rw [hinner, houter]
    apply carries_ite Iff.rfl
    . intro _
      exact (keywordFunction_carries h).bind fun _ => carries_pure rfl
    . intro _
      apply carries_ite Iff.rfl
      . intro _
        exact (negation_carries h).bind fun _ => carries_pure rfl
      . intro _
        apply carries_ite Iff.rfl
        . intro _
          exact carries_pure rfl
        . intro _
          apply carries_ite Iff.rfl
          . intro _
            exact (declaration_carries h).bind fun _ => carries_pure rfl
          . intro _
            apply carries_ite Iff.rfl
            . intro _
              exact (unset_carries h).bind fun _ => carries_pure rfl
            . intro _
              apply (plainFunction?_carries h).bindOption
              . exact (command_carries h).bind fun _ => carries_pure rfl
              . intro definition
                exact carries_pure rfl
  . rw [hinner, houter]
    exact hcarries.bind fun _ => carries_pure rfl

theorem primaryBody_carries (h : inner.Carried E outer) :
    Carries E (primaryBody inner) (primaryBody outer) := by
  apply (peekWith_carries _).bind
  intro tok
  rw [Token.moved_kind]
  split
  . apply carries_bind_source
    apply carries_ite
    . rw [isBareWord_moved]
    . intro _
      exact wordStatement_carries h tok.text
    . intro _
      exact (command_carries h).bind fun _ => carries_pure rfl
  . exact (command_carries h).bind fun _ => carries_pure rfl
  . exact (subshell_carries h).bind fun _ => carries_pure rfl
  . exact (arithmeticCommand_carries h).bind fun _ => carries_pure rfl
  . apply carries_ite Iff.rfl
    . intro _
      exact (command_carries h).bind fun _ => carries_pure rfl
    . intro _
      exact carries_pure rfl

theorem primaryStatement_carries (h : inner.Carried E outer) :
    Carries E (primaryStatement inner) (primaryStatement outer) :=
  nest_carries (primaryBody_carries h)

theorem leftOperands_moved (op : StatementOperator) (left : Node) {width : Nat} :
    leftOperands op (moved width left) = moved width (leftOperands op left) := by
  unfold leftOperands
  rw [Node.moved_kind, Node.moved_children]
  split <;> rfl

theorem joined_carries (h : inner.Carried E outer) (op : StatementOperator) (tok : Token)
    (left : Node) :
    Carries E (joined inner op tok left)
      (joined outer op (moved E.width tok) (moved E.width left)) := by
  apply (tokenLeaf_carries tok).bind
  intro leaf
  apply (lineBreaks_carries h).bind
  intro breaks
  apply (statementAfter_carries h _ _).bind
  intro right
  exact node_carries _ (by simp [leftOperands_moved])

theorem statementStep_carries (h : inner.Carried E outer) (tier : Tier) (left : Node) :
    Carries E (statementStep inner tier left)
      (statementStep outer tier (moved E.width left)) := by
  apply (peekWith_carries _).bind
  intro tok
  have hop : StatementOperator.ofToken? (moved E.width tok) = StatementOperator.ofToken? tok := rfl
  rw [hop]
  cases StatementOperator.ofToken? tok with
  | none => exact carries_pure rfl
  | some op =>
    apply carries_ite Iff.rfl
    . intro _
      exact carries_pure rfl
    . intro _
      apply carries_ite Iff.rfl
      . intro _
        apply (redirects_carries h).bind
        intro targets
        exact (node_carries _ rfl).bind fun _ => carries_pure rfl
      . intro _
        exact (joined_carries h op tok left).bind fun _ => carries_pure rfl

theorem statement_carries (h : inner.Carried E outer) (tier : Tier) :
    Carries E (statement inner tier) (statement outer tier) := by
  apply (primaryStatement_carries h).bindOption
  . exact carries_pure rfl
  . intro left
    exact (loop_carries rfl (statementStep_carries h tier)).bind fun _ => carries_pure rfl

/-! ### Lists of statements -/

theorem endsList_moved (ctx : ListContext) (tok : Token) :
    endsList E.outer.source ctx (moved E.width tok) = endsList E.inner.source ctx tok := by
  unfold endsList
  rw [Token.moved_kind, isBareWord_moved, Token.moved_text]

theorem recoveryStep_carries (h : inner.Carried E outer) (ctx : ListContext) (junk : List Node) :
    Carries E (recoveryStep inner ctx junk) (recoveryStep outer ctx (moved E.width junk)) := by
  apply (peekWith_carries _).bind
  intro tok
  apply carries_ite Iff.rfl
  . intro _
    exact carries_pure rfl
  . intro _
    apply carries_bind_source
    apply carries_ite
    . rw [isEmpty_moved, endsList_moved, Token.moved_isOneOf]
    . intro _
      exact carries_pure rfl
    . intro _
      have htake : ∀ node : Node, Carries E
          (do return if ← isHalted then ForInStep.done (junk ++ [node])
            else .yield (junk ++ [node]))
          (do return if ← isHalted then .done (moved E.width junk ++ [moved E.width node])
            else .yield (moved E.width junk ++ [moved E.width node])) := by
        intro node
        rw [← moved_nil, ← moved_cons, ← moved_append]
        exact doneIfHalted_carries _
      apply carries_ite Iff.rfl
      . intro _
        apply (literal_carries h).bindOption
        . exact carries_pure rfl
        . exact htake
      . intro _
        exact (tokenLeaf_carries tok).bind htake

theorem recover_carries (h : inner.Carried E outer) (ctx : ListContext) :
    Carries E (recover inner ctx) (recover outer ctx) := by
  apply (peekWith_carries _).bind
  intro first
  apply carries_ite Iff.rfl
  . intro _
    exact carries_pure rfl
  . intro _
    apply (loop_carries rfl (recoveryStep_carries h ctx)).bind
    intro junk
    have hrest : Carries E
        (if junk.length = 1 && junk.all (fun only => only.isError && only.isLeaf) then return junk
          else errorAround junk)
        (if (moved E.width junk).length = 1 &&
            (moved E.width junk).all (fun only => only.isError && only.isLeaf) then
          return moved E.width junk
        else errorAround (moved E.width junk)) := by
      apply carries_ite
      . rw [length_moved, all_moved (by simp)]
      . intro _
        exact carries_pure rfl
      . intro _
        exact errorAround_carries junk
    have hstop : ((moved E.width junk).getLast?.map (·.span.stop)).getD
        (moved E.width first).span.stop =
        (junk.getLast?.map (·.span.stop)).getD first.span.stop + E.width := by
      rw [getLast?_moved]
      cases junk.getLast? with
      | none => rfl
      | some last => simp
    apply carries_ite Iff.rfl
    . intro _
      rw [hstop]
      apply (spanBetween_carries first.span.start _).bind
      intro span
      exact (report_carries _ span).bind fun _ => hrest
    . intro _
      exact hrest

theorem strayCloser_carries (tok : Token) :
    Carries E (strayCloser tok) (strayCloser (moved E.width tok)) := by
  apply (report_carries _ tok.span).bind
  intro _
  apply (keywordLeaf_carries tok).bind
  intro leaf
  exact node_carries _ rfl

theorem terminator?_carries (h : inner.Carried E outer) (ctx : ListContext) :
    Carries E (terminator? inner ctx) (terminator? outer ctx) := by
  apply (peekWith_carries _).bind
  intro tok
  apply carries_ite Iff.rfl
  . intro _
    exact (tokenLeaf_carries tok).bind fun _ => carries_pure rfl
  . intro _
    apply carries_ite Iff.rfl
    . intro _
      apply (lineBreak?_carries h true).bindOption
      . exact carries_pure rfl
      . intro nodes
        exact carries_pure rfl
    . intro _
      apply carries_ite Iff.rfl
      . intro _
        exact carries_pure rfl
      . intro _
        apply carries_bind_source
        apply carries_ite
        . rw [endsList_moved]
        . intro _
          exact carries_pure rfl
        . intro _
          exact (recover_carries h ctx).bind fun _ => carries_pure rfl

theorem forceProgress_carries (nodes : List Node) :
    Carries E (forceProgress nodes) (forceProgress (moved E.width nodes)) := by
  apply peek_carries.bind
  intro tok
  apply carries_ite Iff.rfl
  . intro _
    exact carries_pure rfl
  . intro _
    apply (tokenLeaf_carries tok).bind
    intro leaf
    exact (node_carries _ rfl).bind fun _ => carries_pure (by simp)

theorem listItemStep_carries (h : inner.Carried E outer) (ctx : ListContext)
    (nodes : List Node) :
    Carries E (listItemStep inner ctx nodes) (listItemStep outer ctx (moved E.width nodes)) := by
  apply position_carries.bind
  intro start
  apply (statement_carries h .list).bindOption
  . exact (recover_carries h ctx).bind fun _ => carries_pure (by simp)
  . intro statement
    apply (terminator?_carries h ctx).bindOption
    . exact carries_pure (by simp)
    . intro terminator
      apply position_carries.bind
      intro stop
      apply carries_bind_isHalted
      intro halted
      rw [← moved_cons, ← moved_append]
      apply carries_ite
      . simp
      . intro _
        exact forceProgress_carries _
      . intro _
        exact carries_pure rfl

theorem listStep_carries (h : inner.Carried E outer) (ctx : ListContext) (nodes : List Node) :
    Carries E (listStep inner ctx nodes) (listStep outer ctx (moved E.width nodes)) := by
  apply tick_carries.bind
  intro proceeds
  apply carries_ite Iff.rfl
  . intro _
    apply (peekWith_carries _).bind
    intro tok
    apply carries_ite Iff.rfl
    . intro _
      exact carries_pure rfl
    . intro _
      apply carries_ite Iff.rfl
      . intro _
        apply (lineBreak?_carries h false).bindOption
        . exact carries_pure (by simp)
        . intro more
          exact carries_pure (by simp)
      . intro _
        apply carries_bind_source
        apply carries_ite
        . rw [endsList_moved]
        . intro _
          apply carries_ite Iff.rfl
          . intro _
            exact (strayCloser_carries tok).bind fun _ => carries_pure (by simp)
          . intro _
            exact carries_pure rfl
        . intro _
          exact listItemStep_carries h ctx nodes
  . intro _
    exact carries_pure rfl

theorem statements_carries (h : inner.Carried E outer) (ctx : ListContext) :
    Carries E (statements inner ctx) (statements outer ctx) :=
  loop_carries rfl (listStep_carries h ctx)

/-! ### All constructs -/

theorem constructs_carried (h : inner.Carried E outer) :
    (constructs inner).Carried E (constructs outer) where
  statements := statements_carries h
  statement := statement_carries h
  redirect := redirect_carries h
  literal := literal_carries h
  fragment := fragment_carries h
  arithmetic := arithmetic_carries h
  arithmeticOperand := arithmeticOperand_carries h
  test := test_carries h
  testOperand := testOperand_carries h

theorem none_carried (outer : Nested) : Nested.none.Carried E outer where
  statements _ := carries_of_fault (fun _ => rfl) (by simp)
  statement _ := carries_of_fault (fun _ => rfl) (by simp)
  redirect := carries_of_fault (fun _ => rfl) (by simp)
  literal := carries_of_fault (fun _ => rfl) (by simp)
  fragment := carries_of_fault (fun _ => rfl) (by simp)
  arithmetic _ := carries_of_fault (fun _ => rfl) (by simp)
  arithmeticOperand := carries_of_fault (fun _ => rfl) (by simp)
  test := carries_of_fault (fun _ => rfl) (by simp)
  testOperand := carries_of_fault (fun _ => rfl) (by simp)

/-- A level that is enough for a parse by itself is enough for the outer parse. -/
theorem nested_carried {level level' : Nat} (h : level ≤ level') :
    (nested level).Carried E (nested level') := by
  -- below level zero the inner parse calls nothing
  induction level generalizing level' with
  | zero => exact none_carried _
  | succ level ih =>
    obtain ⟨level', rfl⟩ : ∃ n, level' = n + 1 := ⟨level' - 1, by omega⟩
    exact constructs_carried (ih (Nat.le_of_succ_le_succ h))

/-! ### Scripts -/

theorem reportPending_carries : Carries E reportPending reportPending := by
  have hreports : ∀ requests : List Heredoc.Request, Carries E
      (requests.forM fun request =>
        reportUnclosed (.heredocStart request.delimiter) request.redirectStart)
      ((moved E.width requests).forM fun request =>
        reportUnclosed (.heredocStart request.delimiter) request.redirectStart) := by
    intro requests
    induction requests with
    | nil => exact carries_pure rfl
    | cons request requests ih =>
      exact (reportUnclosed_carries _ request.redirectStart).bind fun _ => ih
  have hmodify : reportPending = (do
      let s ← get
      modify fun s => { s with pending := [] }
      s.pending.forM fun request =>
        reportUnclosed (.heredocStart request.delimiter) request.redirectStart) := rfl
  rw [hmodify]
  apply carries_bind_get
  intro s own
  apply carries_bind_modify
  . exact fun _ _ => ⟨id, rfl, rfl, rfl⟩
  . exact hreports s.pending

theorem unread_carries : Carries E unread unread := by
  apply carries_bind_get
  intro s own
  apply carries_bind_source
  apply carries_ite
  . rw [E.behind.size_eq]
    simp [Embedding.state, Embedding.width]
  . intro _
    rw [E.behind.size_eq]
    exact (spanBetween_carries s.pos _).bind fun _ => carries_pure (by simp)
  . intro _
    exact carries_pure rfl

end Grammar

end ShellTree
