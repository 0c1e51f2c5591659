import ShellTree.Grammar.Literal
import ShellTree.Proofs.Behind.Token

/-!
This module contains texts, expansions, substitutions and literals in an outer parse.
-/

namespace ShellTree
namespace Grammar

open Parse

variable {E : Embedding} {inner outer : Nested} {width : Nat}

/-! ### Texts -/

theorem contentBetween_moved (start stop : Nat) :
    contentBetween (start + width) (stop + width) = moved width (contentBetween start stop) := by
  unfold contentBetween
  simp only [Nat.add_lt_add_iff_right]
  split
  . rw [moved_cons, Node.moved_leaf]
    rfl
  . rfl

namespace TextRun

theorem partsUpTo_moved (run : TextRun) (stop : Nat) :
    (moved width run).partsUpTo (stop + width) = moved width (run.partsUpTo stop) := by
  unfold partsUpTo
  rw [moved_append, ← contentBetween_moved]
  rfl

theorem parts_moved (run : TextRun) : (moved width run).partsUpTo (moved width run).place =
    moved width (run.partsUpTo run.place) := partsUpTo_moved run run.place

theorem skip_moved (run : TextRun) (length : Nat) :
    (moved width run).skip length = moved width (run.skip length) := by
  unfold skip
  simp only [moved, Nat.add_right_comm]

theorem split_moved (run : TextRun) : (moved width run).split = moved width run.split := by
  unfold split
  rw [parts_moved]
  simp only [moved, Nat.add_right_comm]

theorem push_moved (run : TextRun) (part : Node) (stop : Nat) :
    (moved width run).push (moved width part) (stop + width) =
      moved width (run.push part stop) := by
  unfold push
  rw [parts_moved, ← moved_nil, ← moved_cons, ← moved_append]
  rfl

end TextRun

theorem left_same (run : TextRun) : SameLeft E run.left (moved E.width run).left := by
  intro s own
  refine ⟨_, rfl, ?_⟩
  have hsize : E.outer.source.size - (run.place + E.width) = E.inner.source.size - run.place := by
    rw [E.behind.size_eq]
    exact Nat.add_sub_add_right ..
  exact congrArg (fun n => Except.ok (n, E.state s own)) hsize

theorem fragmentAt_carries (h : inner.Carried E outer) (place : Nat) :
    Carries E (fragmentAt inner place) (fragmentAt outer (place + E.width)) := by
  apply (setPosition_carries place).bind
  intro _
  apply h.fragment.bindOption
  . exact carries_pure rfl
  . intro part
    apply position_carries.bind
    intro stop
    apply carries_pure
    rw [moved_nat]
    simp only [Nat.add_lt_add_iff_right]
    split <;> rfl

theorem stringStep_carries (h : inner.Carried E outer) (start : Nat) (run : TextRun) :
    Carries E (stringStep inner start run)
      (stringStep outer (start + E.width) (moved E.width run)) := by
  apply carries_bind_charactersAt
  intro cs
  cases cs with
  | nil =>
    apply (setPosition_carries run.place).bind
    intro _
    apply (reportUnclosed_carries ..).bind
    intro _
    apply carries_pure
    rw [TextRun.parts_moved]
    rfl
  | cons c cs =>
    apply carries_ite Iff.rfl
    . intro _
      apply (leafAt_carries _ (moved_ofWidth ..).symm).bind
      intro quote
      apply carries_pure
      rw [TextRun.parts_moved, ← moved_nil, ← moved_cons, ← moved_append]
      rfl
    . intro _
      apply carries_ite Iff.rfl
      . intro _
        apply carries_pure
        rw [TextRun.skip_moved]
        rfl
      . intro _
        apply carries_ite Iff.rfl
        . intro _
          apply (fragmentAt_carries h run.place).bindOption
          . dsimp only
            rw [TextRun.split_moved]
            exact doneIfHalted_carries _
          . rintro ⟨part, stop⟩
            dsimp only [moved_pair, moved_nat]
            rw [TextRun.push_moved]
            exact doneIfHalted_carries _
        . intro _
          apply carries_pure
          rw [TextRun.skip_moved]
          rfl

theorem doubleQuoted_carries (h : inner.Carried E outer) :
    Carries E (doubleQuoted inner) (doubleQuoted outer) := by
  apply peek_carries.bind
  intro opener
  apply (tokenLeaf_carries opener).bind
  intro leaf
  apply position_carries.bind
  intro offset
  apply (repeatStep_carries rfl left_same (stringStep_carries h opener.span.start)).bind
  intro run
  exact node_carries _ rfl

theorem fragmentWithin_carries (h : inner.Carried E outer) (body : Span) (place : Nat) :
    Carries E (fragmentWithin inner body place)
      (fragmentWithin outer (moved E.width body) (place + E.width)) := by
  apply attempt_carries
  apply (fragmentAt_carries h place).bindOption
  . exact carries_pure rfl
  . rintro ⟨part, stop⟩
    apply carries_pure
    simp only [Node.moved_span, moved_stop, Nat.add_le_add_iff_right]
    split <;> rfl

theorem bodyStep_carries (h : inner.Carried E outer) (body : Span) (run : TextRun) :
    Carries E (bodyStep inner body run)
      (bodyStep outer (moved E.width body) (moved E.width run)) := by
  have hplace : (moved E.width run).place = run.place + E.width := rfl
  apply carries_ite
  . rw [hplace, moved_stop, Nat.add_le_add_iff_right]
  . intro _
    exact carries_pure rfl
  . intro _
    apply carries_bind_charactersAt
    intro cs
    cases cs with
    | nil => exact carries_pure rfl
    | cons c cs =>
      apply carries_ite Iff.rfl
      . intro _
        apply carries_pure
        rw [hplace, moved_stop, Nat.add_right_comm, TextRun.skip_moved]
        simp only [Nat.add_lt_add_iff_right]
        rfl
      . intro _
        apply carries_ite Iff.rfl
        . intro _
          apply (fragmentWithin_carries h body run.place).bindOption
          . apply carries_pure
            rw [TextRun.skip_moved]
            rfl
          . rintro ⟨part, stop⟩
            apply carries_pure
            dsimp only [moved_pair, moved_nat]
            rw [TextRun.push_moved]
            rfl
        . intro _
          apply carries_pure
          rw [TextRun.skip_moved]
          rfl

theorem heredocBody_carries (h : inner.Carried E outer) (body : Span) (quoted : Bool) :
    Carries E (heredocBody inner body quoted)
      (heredocBody outer (moved E.width body) quoted) := by
  apply carries_ite
  . rw [moved_isEmpty]
  . intro _
    apply carries_pure
    rw [Node.moved_mk, ← contentBetween_moved]
    rfl
  . intro _
    apply (inMode_carries (repeatStep_carries rfl left_same (bodyStep_carries h body))).bind
    intro run
    apply carries_pure
    have hstart : (moved E.width run).start = run.start + E.width := rfl
    rw [Node.moved_mk, ← TextRun.partsUpTo_moved, hstart, moved_stop, Nat.add_max_add_right]

/-! ### Parameter expansions -/

theorem nameLeaf_carries (name : List Char) : Carries E (nameLeaf name) (nameLeaf name) :=
  position_carries.bind fun _ => leafAt_carries _ (moved_ofWidth ..).symm

theorem simpleParameter_carries : Carries E simpleParameter simpleParameter := by
  apply carries_bind_upcoming
  intro cs
  cases cs with
  | nil => exact carries_pure rfl
  | cons c cs =>
    apply carries_ite Iff.rfl
    . intro _
      apply position_carries.bind
      intro offset
      exact (leafAt_carries _ (moved_ofWidth ..).symm).bind fun _ => carries_pure rfl
    . intro _
      apply carries_ite Iff.rfl
      . intro _
        exact (nameLeaf_carries [c]).bind fun _ => carries_pure rfl
      . intro _
        exact (nameLeaf_carries _).bind fun _ => carries_pure rfl

theorem parameterSign_carries : Carries E parameterSign parameterSign := by
  apply carries_bind_upcoming
  intro cs
  split
  . apply carries_ite Iff.rfl
    . intro _
      exact (takeText_carries _).bind fun _ => carries_pure rfl
    . intro _
      exact carries_pure rfl
  . exact carries_pure rfl

theorem subscriptStep_carries (h : inner.Carried E outer) (start : Nat) (parts : List Node) :
    Carries E (subscriptStep inner start parts)
      (subscriptStep outer (start + E.width) (moved E.width parts)) := by
  apply peek_carries.bind
  intro tok
  apply carries_ite Iff.rfl
  . intro _
    exact (tokenLeaf_carries tok).bind fun _ => carries_pure (by simp)
  . intro _
    apply carries_ite Iff.rfl
    . intro _
      exact (reportUnclosed_carries _ start).bind fun _ => carries_pure rfl
    . intro _
      apply carries_ite Iff.rfl
      . intro _
        exact (report_carries _ tok.span).bind fun _ => carries_pure rfl
      . intro _
        apply h.literal.bindOption
        . exact (tokenLeaf_carries tok).bind fun _ => carries_pure (by simp)
        . intro literal
          exact carries_pure (by simp)

theorem subscript_carries (h : inner.Carried E outer) (name : Node) :
    Carries E (subscript inner name) (subscript outer (moved E.width name)) := by
  apply (takeText_carries "[").bind
  intro opener
  apply carries_bind_get
  intro s own
  rw [Node.moved_span]
  apply (withFlags_carries (loop_carries rfl (subscriptStep_carries h name.span.start))).bind
  intro parts
  exact node_carries _ rfl

theorem subscripted_carries (h : inner.Carried E outer) (name : Node) :
    Carries E (parameter.subscripted inner name)
      (parameter.subscripted outer (moved E.width name)) := by
  apply carries_bind_upcoming
  intro cs
  apply carries_ite Iff.rfl
  . intro _
    exact (subscript_carries h name).bind fun _ => carries_pure rfl
  . intro _
    exact carries_pure rfl

theorem parameter_carries (h : inner.Carried E outer) :
    Carries E (parameter inner) (parameter outer) := by
  apply carries_bind_upcoming
  intro cs
  cases cs with
  | nil => exact carries_pure rfl
  | cons c cs =>
    apply carries_ite Iff.rfl
    . intro _
      exact (nameLeaf_carries _).bind (subscripted_carries h)
    . intro _
      apply carries_ite Iff.rfl
      . intro _
        apply position_carries.bind
        intro offset
        exact (leafAt_carries _ (moved_ofWidth ..).symm).bind (subscripted_carries h)
      . intro _
        exact carries_pure rfl

theorem tokenLeaves_carries (toks : List Token) :
    Carries E (toks.mapM tokenLeaf) ((moved E.width toks).mapM tokenLeaf) := by
  induction toks with
  | nil => exact carries_pure rfl
  | cons tok toks ih =>
    rw [moved_cons, List.mapM_cons, List.mapM_cons]
    apply (tokenLeaf_carries tok).bind
    intro leaf
    exact ih.bind fun _ => carries_pure rfl

theorem substitutionPattern_carries : Carries E substitutionPattern substitutionPattern := by
  apply (peekRegex_carries true).bind
  intro tok
  rw [← moved_toList]
  apply (tokenLeaves_carries tok.toList).bind
  intro pattern
  apply carries_bind_upcoming
  intro cs
  apply carries_ite Iff.rfl
  . intro _
    exact (takeText_carries _).bind fun _ => carries_pure (by simp)
  . intro _
    exact carries_pure rfl

theorem expansionOperator_carries : Carries E expansionOperator expansionOperator := by
  apply carries_bind_upcoming
  intro cs
  cases Operator.matching? Operator.expansion cs with
  | none => exact carries_pure rfl
  | some op =>
    apply (takeText_carries op).bind
    intro leaf
    apply carries_ite Iff.rfl
    . intro _
      exact substitutionPattern_carries.bind fun _ => carries_pure rfl
    . intro _
      exact carries_pure rfl

theorem expansionStep_carries (h : inner.Carried E outer) (start : Nat) (parts : List Node) :
    Carries E (expansionStep inner start parts)
      (expansionStep outer (start + E.width) (moved E.width parts)) := by
  apply peek_carries.bind
  intro tok
  apply carries_ite Iff.rfl
  . intro _
    exact (tokenLeaf_carries tok).bind fun _ => carries_pure (by simp)
  . intro _
    apply carries_ite Iff.rfl
    . intro _
      exact (reportUnclosed_carries _ start).bind fun _ => carries_pure rfl
    . intro _
      apply h.literal.bindOption
      . exact (tokenLeaf_carries tok).bind fun _ => carries_pure (by simp)
      . intro literal
        exact carries_pure (by simp)

theorem expansionBody_carries (h : inner.Carried E outer) (start : Nat) :
    Carries E (expansionBody inner start) (expansionBody outer (start + E.width)) := by
  apply parameterSign_carries.bind
  intro sign
  apply (parameter_carries h).bind
  intro name
  apply carries_ite_binds _ (carries_pure rfl) expansionOperator_carries
  . intro operator
    exact loop_carries (by simp) (expansionStep_carries h start)
  . rw [isEmpty_moved]

theorem expansion_carries (h : inner.Carried E outer) :
    Carries E (expansion inner) (expansion outer) := by
  apply peek_carries.bind
  intro opener
  apply (tokenLeaf_carries opener).bind
  intro leaf
  apply (inMode_carries (withFlags_carries (expansionBody_carries h opener.span.start))).bind
  intro parts
  exact node_carries _ rfl

/-! ### Insides of double parentheses -/

theorem atArithmeticClose_carries : Carries E atArithmeticClose atArithmeticClose := by
  apply peek_carries.bind
  intro tok
  apply carries_ite Iff.rfl
  . intro _
    apply carries_bind_charactersAt
    intro cs
    exact carries_pure rfl
  . intro _
    exact carries_pure rfl

theorem requiredExpression_carries (h : inner.Carried E outer) :
    Carries E (requiredExpression inner) (requiredExpression outer) := by
  apply (h.arithmetic 0).bindOption
  . apply peek_carries.bind
    intro tok
    apply carries_ite Iff.rfl
    . intro _
      exact (report_carries _ tok.span).bind fun _ => carries_pure rfl
    . intro _
      exact carries_pure rfl
  . intro expression
    exact carries_pure rfl

theorem arithmeticJunkStep_carries (construct : Construct) (start : Nat)
    (junk : List Node × Bool) :
    Carries E (arithmeticJunkStep construct start junk)
      (arithmeticJunkStep construct (start + E.width) (moved E.width junk)) := by
  obtain ⟨junk, closed⟩ := junk
  apply atArithmeticClose_carries.bind
  intro close
  apply carries_ite Iff.rfl
  . intro _
    exact carries_pure rfl
  . intro _
    apply peek_carries.bind
    intro tok
    apply carries_ite Iff.rfl
    . intro _
      exact (reportUnclosed_carries _ start).bind fun _ => carries_pure rfl
    . intro _
      apply carries_ite_bind _ (report_carries _ tok.span)
      . exact (tokenLeaf_carries tok).bind fun _ => carries_pure (by simp)
      . simp

theorem arithmeticClose_carries (construct : Construct) (start : Nat) :
    Carries E (arithmeticClose construct start)
      (arithmeticClose construct (start + E.width)) := by
  apply (loop_carries rfl (arithmeticJunkStep_carries construct start)).bind
  rintro ⟨junk, closed⟩
  apply (errorAround_carries junk).bind
  intro errors
  apply carries_ite Iff.rfl
  . intro _
    apply peek_carries.bind
    intro tok
    exact (leafAt_carries _ (moved_ofWidth ..).symm).bind fun _ => carries_pure (by simp)
  . intro _
    exact carries_pure rfl

theorem arithmeticBody_carries (h : inner.Carried E outer) (construct : Construct) (start : Nat) :
    Carries E (arithmeticBody inner construct start)
      (arithmeticBody outer construct (start + E.width)) := by
  apply atArithmeticClose_carries.bind
  intro close
  apply carries_ite_binds Iff.rfl (carries_pure rfl) (requiredExpression_carries h)
  intro expression
  exact (arithmeticClose_carries construct start).bind fun _ => carries_pure (by simp)

/-! ### Substitutions -/

theorem substitutionBody_carries (h : inner.Carried E outer) (opener : Token) :
    Carries E (substitutionBody inner opener) (substitutionBody outer (moved E.width opener)) := by
  apply peek_carries.bind
  intro tok
  apply carries_ite Iff.rfl
  . intro _
    exact h.redirect.bind fun _ => carries_pure (moved_toList _).symm
  . intro _
    exact h.statements {}

theorem parenthesizedSubstitution_carries (h : inner.Carried E outer) (kind : NodeKind)
    (construct : Construct) :
    Carries E (parenthesizedSubstitution inner kind construct)
      (parenthesizedSubstitution outer kind construct) := by
  apply peek_carries.bind
  intro opener
  apply (tokenLeaf_carries opener).bind
  intro leaf
  apply (inMode_carries (withFlags_carries _)).bind
  . intro parts
    exact node_carries _ rfl
  . apply (substitutionBody_carries h opener).bind
    intro parts
    exact (expectOperator_carries _ _ opener.span.start).bind fun _ => carries_pure (by simp)

theorem closingBacktick_carries (start : Nat) :
    Carries E (closingBacktick start) (closingBacktick (start + E.width)) := by
  apply peek_carries.bind
  intro tok
  apply carries_ite Iff.rfl
  . intro _
    exact (tokenLeaf_carries tok).bind fun _ => carries_pure rfl
  . intro _
    exact (reportMissing_carries tok _ _ start).bind fun _ => carries_pure rfl

theorem backtickSubstitution_carries (h : inner.Carried E outer) :
    Carries E (backtickSubstitution inner) (backtickSubstitution outer) := by
  apply peek_carries.bind
  intro opener
  apply (tokenLeaf_carries opener).bind
  intro leaf
  apply (inMode_carries (withFlags_carries (withinBackticks_carries _))).bind
  . intro parts
    exact node_carries _ rfl
  . apply (h.statements {}).bind
    intro parts
    exact (closingBacktick_carries opener.span.start).bind fun _ => carries_pure (by simp)

theorem arithmeticExpansion_carries (h : inner.Carried E outer) :
    Carries E (arithmeticExpansion inner) (arithmeticExpansion outer) := by
  apply peek_carries.bind
  intro opener
  apply (tokenLeaf_carries opener).bind
  intro leaf
  apply (inMode_carries
    (withFlags_carries (arithmeticBody_carries h _ opener.span.start))).bind
  intro parts
  exact node_carries _ rfl

/-! ### Literals -/

theorem wordLeaf_carries (tok : Token) :
    Carries E (wordLeaf tok) (wordLeaf (moved E.width tok)) := leafAt_carries _ rfl

theorem rawString_carries (tok : Token) :
    Carries E (rawString tok) (rawString (moved E.width tok)) := by
  unfold rawString
  apply carries_ite_bind Iff.rfl (reportUnclosed_carries _ tok.span.start)
  exact tokenLeaf_carries tok

theorem ansiCString_carries (tok : Token) :
    Carries E (ansiCString tok) (ansiCString (moved E.width tok)) := by
  unfold ansiCString
  apply carries_ite_bind Iff.rfl (reportUnclosed_carries _ tok.span.start)
  exact tokenLeaf_carries tok

theorem dollar_carries (h : inner.Carried E outer) (tok : Token) :
    Carries E (dollar inner tok) (dollar outer (moved E.width tok)) := by
  apply (tokenLeaf_carries tok).bind
  intro leaf
  apply carries_bind_upcoming
  intro cs
  apply carries_ite Iff.rfl
  . intro _
    exact (doubleQuoted_carries h).bind fun _ => node_carries _ rfl
  . intro _
    exact simpleParameter_carries.bind fun _ => node_carries _ rfl

theorem fragmentOf_carries (h : inner.Carried E outer) (tok : Token) :
    Carries E (fragmentOf inner tok) (fragmentOf outer (moved E.width tok)) := by
  unfold fragmentOf
  rw [Token.moved_kind]
  split
  . exact wordLeaf_carries tok
  . exact rawString_carries tok
  . exact ansiCString_carries tok
  . exact doubleQuoted_carries h
  . exact dollar_carries h tok
  . exact expansion_carries h
  . exact parenthesizedSubstitution_carries h _ _
  . exact arithmeticExpansion_carries h
  . exact backtickSubstitution_carries h
  . exact parenthesizedSubstitution_carries h _ _

theorem fragment_carries (h : inner.Carried E outer) :
    Carries E (fragment inner) (fragment outer) := by
  apply peek_carries.bind
  intro tok
  apply carries_ite Iff.rfl
  . intro _
    apply nest_carries
    exact (fragmentOf_carries h tok).bind fun _ => carries_pure rfl
  . intro _
    exact carries_pure rfl

theorem literalStep_carries (h : inner.Carried E outer) (parts : List Node) :
    Carries E (literalStep inner parts) (literalStep outer (moved E.width parts)) := by
  apply peek_carries.bind
  intro tok
  apply carries_ite Iff.rfl
  . intro _
    apply (fragment_carries h).bindOption
    . exact carries_pure rfl
    . intro part
      exact carries_pure (by simp)
  . intro _
    exact carries_pure rfl

theorem literal_carries (h : inner.Carried E outer) :
    Carries E (literal inner) (literal outer) := by
  apply (fragment_carries h).bindOption
  . exact carries_pure rfl
  . intro first
    apply (loop_carries rfl (literalStep_carries h)).bind
    intro parts
    match parts with
    | [only] => exact carries_pure rfl
    | [] => exact (node_carries _ rfl).bind fun _ => carries_pure rfl
    | first :: second :: rest => exact (node_carries _ rfl).bind fun _ => carries_pure rfl

end Grammar

end ShellTree
