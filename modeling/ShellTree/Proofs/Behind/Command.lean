import ShellTree.Grammar.Command
import ShellTree.Proofs.Behind.Word

/-!
This module contains assignments, redirects and simple commands in an outer parse.
-/

namespace ShellTree
namespace Grammar

open Parse

variable {E : Embedding} {inner outer : Nested}

/-! ### Assignments -/

theorem arrayStep_carries (h : inner.Carried E outer) (start : Nat) (parts : List Node) :
    Carries E (arrayStep inner start parts)
      (arrayStep outer (start + E.width) (moved E.width parts)) := by
  apply peek_carries.bind
  intro tok
  apply carries_ite Iff.rfl
  . intro _
    exact (tokenLeaf_carries tok).bind fun _ => carries_pure (by simp)
  . intro _
    apply carries_ite Iff.rfl
    . intro _
      exact (reportUnclosed_carries _ start).bind fun _ => carries_pure rfl
    . intro _
      apply h.literal.bindOption
      . apply (report_carries _ tok.span).bind
        intro _
        exact (tokenLeaf_carries tok).bind fun _ => carries_pure (by simp)
      . intro element
        exact carries_pure (by simp)

theorem array_carries (h : inner.Carried E outer) : Carries E (array inner) (array outer) := by
  apply position_carries.bind
  intro start
  apply (takeText_carries "(").bind
  intro opener
  apply (withFlags_carries (loop_carries rfl (arrayStep_carries h start))).bind
  intro parts
  exact node_carries _ rfl

theorem assignedValue_carries (h : inner.Carried E outer) :
    Carries E (assignedValue inner) (assignedValue outer) := by
  apply carries_bind_upcoming
  intro cs
  apply carries_ite Iff.rfl
  . intro _
    exact (array_carries h).bind fun _ => carries_pure rfl
  . intro _
    apply peek_carries.bind
    intro tok
    apply carries_ite Iff.rfl
    . intro _
      exact h.literal.bind fun _ => carries_pure (moved_toList _).symm
    . intro _
      exact carries_pure rfl

theorem assignment_carries (h : inner.Carried E outer) :
    Carries E (assignment inner) (assignment outer) := by
  apply (peekWith_carries _).bind
  intro tok
  apply (leafAt_carries _ rfl).bind
  intro name
  apply carries_bind_upcoming
  intro cs
  apply carries_ite_binds Iff.rfl (subscript_carries h name) (carries_pure rfl)
  intro target
  apply carries_bind_upcoming
  intro cs
  cases assignmentOperator? cs with
  | none =>
    apply peek_carries.bind
    intro tok
    exact (report_carries _ tok.span).bind fun _ => node_carries _ rfl
  | some op =>
    apply (takeText_carries op).bind
    intro leaf
    exact (assignedValue_carries h).bind fun _ => node_carries _ rfl

/-! ### Redirects -/

theorem isHeredocStart_carries (tok : Token) :
    Carries E (isHeredocStart tok) (isHeredocStart (moved E.width tok)) := by
  unfold isHeredocStart
  rw [Token.moved_kind]
  split
  . exact carries_pure rfl
  . apply carries_bind_charactersAt
    intro cs
    exact carries_pure rfl
  . exact carries_pure rfl

theorem redirectTarget_carries (h : inner.Carried E outer) (op : String) :
    Carries E (redirectTarget inner op) (redirectTarget outer op) := by
  apply peek_carries.bind
  intro tok
  apply h.literal.bindOption
  . exact (report_carries _ tok.span).bind fun _ => carries_pure rfl
  . intro target
    exact carries_pure rfl

theorem heredocMarker_carries (op : String) (redirectStart : Nat) :
    Carries E (heredocMarker op redirectStart)
      (heredocMarker op (redirectStart + E.width)) := by
  apply peekHeredocMarker_carries.bindOption
  . apply peek_carries.bind
    intro tok
    exact (report_carries _ tok.span).bind fun _ => carries_pure rfl
  . intro marker
    apply (leafAt_carries _ rfl).bind
    intro leaf
    apply carries_bind_modify
    . intro s own
      refine ⟨id, rfl, rfl, ?_⟩
      simp only [Embedding.state, moved_append]
      rfl
    . exact carries_pure rfl

theorem redirectFrom_carries (h : inner.Carried E outer) (descriptor : List Node) (tok : Token) :
    Carries E (redirectFrom inner descriptor tok)
      (redirectFrom outer (moved E.width descriptor) (moved E.width tok)) := by
  apply carries_ite Iff.rfl
  . intro _
    apply (tokenLeaf_carries tok).bind
    intro leaf
    apply carries_ite Iff.rfl
    . intro _
      exact (heredocMarker_carries _ tok.span.start).bind fun _ => node_carries _ (by simp)
    . intro _
      exact (redirectTarget_carries h tok.text).bind fun _ => node_carries _ (by simp)
  . intro _
    exact (report_carries _ tok.span).bind fun _ => node_carries _ rfl

theorem redirect_carries (h : inner.Carried E outer) :
    Carries E (redirect inner) (redirect outer) := by
  apply peek_carries.bind
  intro tok
  apply carries_ite Iff.rfl
  . intro _
    exact carries_pure rfl
  . intro _
    apply carries_ite Iff.rfl
    . intro _
      apply (tokenLeaf_carries tok).bind
      intro descriptor
      apply peek_carries.bind
      intro tok
      exact (redirectFrom_carries h [descriptor] tok).bind fun _ => carries_pure rfl
    . intro _
      exact (redirectFrom_carries h [] tok).bind fun _ => carries_pure rfl

theorem redirects_carries (h : inner.Carried E outer) :
    Carries E (redirects inner) (redirects outer) := by
  apply loop_carries rfl
  intro nodes
  apply (redirect_carries h).bindOption
  . exact carries_pure rfl
  . intro redirect
    exact carries_pure (by simp)

/-! ### Simple commands -/

theorem isInnerRedirect_carries (tok : Token) :
    Carries E (isInnerRedirect tok) (isInnerRedirect (moved E.width tok)) := by
  apply carries_ite Iff.rfl
  . intro _
    exact (isHeredocStart_carries tok).bind fun _ => carries_pure rfl
  . intro _
    exact carries_pure rfl

theorem commandHeadStep_carries (h : inner.Carried E outer) (parts : List Node) :
    Carries E (commandHeadStep inner parts) (commandHeadStep outer (moved E.width parts)) := by
  apply (peekWith_carries _).bind
  intro tok
  apply carries_ite Iff.rfl
  . intro _
    exact (assignment_carries h).bind fun _ => carries_pure (by simp)
  . intro _
    apply (isInnerRedirect_carries tok).bind
    intro isInner
    apply carries_ite Iff.rfl
    . intro _
      apply (redirect_carries h).bindOption
      . exact carries_pure rfl
      . intro redirect
        exact carries_pure (by simp)
    . intro _
      exact carries_pure rfl

theorem redirectBeforeArgument?_carries (h : inner.Carried E outer) :
    Carries E (redirectBeforeArgument? inner) (redirectBeforeArgument? outer) := by
  apply (redirect_carries h).bindOption
  . exact carries_pure rfl
  . intro redirect
    apply peek_carries.bind
    intro tok
    apply carries_pure
    cases hstart : tok.isLiteralStart with
    | true => exact if_pos hstart
    | false => exact if_neg (ne_true_of_eq_false hstart)

theorem argumentStep_carries (h : inner.Carried E outer) (parts : List Node) :
    Carries E (argumentStep inner parts) (argumentStep outer (moved E.width parts)) := by
  apply peek_carries.bind
  intro tok
  apply carries_ite Iff.rfl
  . intro _
    apply (literal_carries h).bindOption
    . exact carries_pure rfl
    . intro argument
      exact carries_pure (by simp)
  . intro _
    apply (isInnerRedirect_carries tok).bind
    intro isInner
    apply carries_ite Iff.rfl
    . intro _
      apply (attempt_carries (redirectBeforeArgument?_carries h)).bindOption
      . exact carries_pure rfl
      . intro redirect
        exact carries_pure (by simp)
    . intro _
      exact carries_pure rfl

theorem namelessCommand_carries (head : List Node) (tok : Token) :
    Carries E (namelessCommand head tok)
      (namelessCommand (moved E.width head) (moved E.width tok)) := by
  apply carries_ite
  . rw [isEmpty_moved, all_moved (by simp)]
  . intro _
    match head with
    | [only] => exact carries_pure rfl
    | [] => exact node_carries _ rfl
    | first :: second :: rest => exact node_carries _ rfl
  . intro _
    apply carries_ite_bind _ (report_carries _ tok.span)
    . exact node_carries _ rfl
    . rw [isEmpty_moved]

theorem command_carries (h : inner.Carried E outer) :
    Carries E (command inner) (command outer) := by
  apply (loop_carries rfl (commandHeadStep_carries h)).bind
  intro head
  apply peek_carries.bind
  intro tok
  apply (literal_carries h).bindOption
  . exact namelessCommand_carries head tok
  . intro name
    apply (node_carries _ rfl).bind
    intro name
    apply (loop_carries (by simp) (argumentStep_carries h)).bind
    intro parts
    exact node_carries _ rfl

theorem isNameArgument_moved (tok : Token) :
    isNameArgument E.outer.source (moved E.width tok) = isNameArgument E.inner.source tok := by
  unfold isNameArgument
  rw [isBareWord_moved, Token.moved_text]

theorem declarationStep_carries (h : inner.Carried E outer) (parts : List Node) :
    Carries E (declarationStep inner parts) (declarationStep outer (moved E.width parts)) := by
  apply (peekWith_carries _).bind
  intro tok
  apply carries_ite Iff.rfl
  . intro _
    exact (assignment_carries h).bind fun _ => carries_pure (by simp)
  . intro _
    apply carries_bind_source
    apply carries_ite
    . rw [isNameArgument_moved]
    . intro _
      exact (leafAt_carries _ rfl).bind fun _ => carries_pure (by simp)
    . intro _
      apply (literal_carries h).bindOption
      . exact carries_pure rfl
      . intro argument
        exact carries_pure (by simp)

theorem declaration_carries (h : inner.Carried E outer) :
    Carries E (declaration inner) (declaration outer) := by
  apply (peekWith_carries _).bind
  intro tok
  apply (keywordLeaf_carries tok).bind
  intro keyword
  exact (loop_carries rfl (declarationStep_carries h)).bind fun _ => node_carries _ rfl

theorem unsetStep_carries (h : inner.Carried E outer) (parts : List Node) :
    Carries E (unsetStep inner parts) (unsetStep outer (moved E.width parts)) := by
  apply peek_carries.bind
  intro tok
  apply carries_bind_source
  apply carries_ite
  . rw [isNameArgument_moved]
  . intro _
    exact (leafAt_carries _ rfl).bind fun _ => carries_pure (by simp)
  . intro _
    apply (literal_carries h).bindOption
    . exact carries_pure rfl
    . intro argument
      exact carries_pure (by simp)

theorem unset_carries (h : inner.Carried E outer) : Carries E (unset inner) (unset outer) := by
  apply (peekWith_carries _).bind
  intro tok
  apply (keywordLeaf_carries tok).bind
  intro keyword
  exact (loop_carries rfl (unsetStep_carries h)).bind fun _ => node_carries _ rfl

end Grammar

end ShellTree
