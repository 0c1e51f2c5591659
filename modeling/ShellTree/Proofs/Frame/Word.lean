import ShellTree.Grammar.Literal
import ShellTree.Proofs.Frame.Token

/-!
This module contains the frame of texts, expansions, substitutions and literals. What is read at a
level of its own may have one construct more on its paths than there are levels below it.
-/

namespace ShellTree
namespace Grammar

open Parse

variable {env : Env} {inner : Nested} {depth extra : Nat}

/-! ### Texts -/

theorem shallow_contentBetween (start stop : Nat) :
    Shallow env depth extra (contentBetween start stop) := by
  unfold contentBetween
  split
  . exact shallow_cons.2 ⟨shallow_leaf rfl _, shallow_nil⟩
  . exact shallow_nil

namespace TextRun

theorem shallow_iff {run : TextRun} :
    Shallow env depth extra run ↔ Shallow env depth extra run.parts := by
  rw [shallow_iff_of_nodes]
  rfl

theorem shallow_partsUpTo {run : TextRun} (h : Shallow env depth extra run) (stop : Nat) :
    Shallow env depth extra (run.partsUpTo stop) :=
  shallow_append.2 ⟨shallow_iff.1 h, shallow_contentBetween run.start stop⟩

theorem shallow_skip {run : TextRun} (h : Shallow env depth extra run) (width : Nat) :
    Shallow env depth extra (run.skip width) := h

theorem shallow_split {run : TextRun} (h : Shallow env depth extra run) :
    Shallow env depth extra run.split := shallow_iff.2 (shallow_partsUpTo h run.place)

theorem shallow_push {run : TextRun} (h : Shallow env depth extra run) {part : Node}
    (hpart : Shallow env depth extra part) (stop : Nat) :
    Shallow env depth extra (run.push part stop) :=
  shallow_iff.2 (shallow_append.2
    ⟨shallow_partsUpTo h run.place, shallow_cons.2 ⟨hpart, shallow_nil⟩⟩)

theorem shallow_close (run : TextRun) {parts : List Node} (h : Shallow env depth extra parts) :
    Shallow env depth extra (run.close parts) := shallow_iff.2 h

theorem shallow_startAt (offset : Nat) : Shallow env depth extra (startAt offset) :=
  shallow_iff.2 shallow_nil

end TextRun

theorem left_frames (run : TextRun) : Frames env depth extra run.left :=
  frames_bind_source (frames_pure (shallow_nat _))

theorem fragmentAt_frames (h : inner.Framed env) (place : Nat) :
    Frames env depth extra (fragmentAt inner place) := by
  apply (setPosition_frames place).seq
  intro _ _
  apply (h.fragment depth).seq
  intro fragment hfragment
  cases fragment with
  | none => exact frames_pure shallow_none
  | some part =>
    apply frames_bind_position
    intro stop
    apply frames_pure
    split
    . exact shallow_some.2 (shallow_pair.2 ⟨shallow_some.1 (hfragment extra), shallow_nat stop⟩)
    . exact shallow_none

theorem stringStep_frames (h : inner.Framed env) (start : Nat) {run : TextRun}
    (hrun : Shallow env depth extra run) : Frames env depth extra (stringStep inner start run) := by
  apply frames_bind_charactersAt
  intro cs
  cases cs with
  | nil =>
    apply (setPosition_frames run.place).seq
    intro _ _
    apply (reportUnclosed_frames .doubleQuotedString start).seq
    intro _ _
    exact frames_pure (run.shallow_close (TextRun.shallow_partsUpTo hrun run.place))
  | cons c cs =>
    apply frames_ite
    . intro _
      apply (leafAt_frames rfl _).seq
      intro quote hquote
      apply frames_pure
      apply run.shallow_close
      simp [TextRun.shallow_partsUpTo hrun, hquote]
    . intro _
      apply frames_ite
      . intro _
        exact frames_pure (TextRun.shallow_skip hrun _)
      . intro _
        apply frames_ite
        . intro _
          apply (fragmentAt_frames h run.place).seq
          intro fragment hfragment
          match fragment with
          | none => exact doneIfHalted_frames (TextRun.shallow_split hrun)
          | some (part, stop) =>
            have hpart := (shallow_pair.1 (shallow_some.1 (hfragment extra))).1
            exact doneIfHalted_frames (TextRun.shallow_push hrun hpart stop)
        . intro _
          exact frames_pure (TextRun.shallow_skip hrun _)

theorem doubleQuoted_frames (h : inner.Framed env) : Frames env depth 1 (doubleQuoted inner) := by
  apply peek_frames.seq
  intro opener _
  apply (tokenLeaf_frames opener).seq
  intro leaf hleaf
  apply frames_bind_position
  intro offset
  apply (repeatStep_frames (TextRun.shallow_startAt offset) left_frames fun run hrun =>
    stringStep_frames h opener.span.start hrun).seq
  intro run hrun
  exact levelNode_frames (shallow_cons.2 ⟨hleaf 0, TextRun.shallow_iff.1 (hrun 0)⟩)

theorem fragmentWithin_frames (h : inner.Framed env) (body : Span) (place : Nat) :
    Frames env depth extra (fragmentWithin inner body place) := by
  apply attempt_frames
  apply (fragmentAt_frames h place).seq
  intro fragment hfragment
  match fragment with
  | none => exact frames_pure shallow_none
  | some (part, stop) =>
    apply frames_pure
    split
    . exact hfragment extra
    . exact shallow_none

theorem bodyStep_frames (h : inner.Framed env) (body : Span) {run : TextRun}
    (hrun : Shallow env depth extra run) : Frames env depth extra (bodyStep inner body run) := by
  apply frames_ite
  . intro _
    exact frames_pure hrun
  . intro _
    apply frames_bind_charactersAt
    intro cs
    cases cs with
    | nil => exact frames_pure hrun
    | cons c cs =>
      apply frames_ite
      . intro _
        exact frames_pure (TextRun.shallow_skip hrun _)
      . intro _
        apply frames_ite
        . intro _
          apply (fragmentWithin_frames h body run.place).seq
          intro fragment hfragment
          match fragment with
          | none => exact frames_pure (TextRun.shallow_skip hrun _)
          | some (part, stop) =>
            have hpart := (shallow_pair.1 (shallow_some.1 (hfragment extra))).1
            exact frames_pure (TextRun.shallow_push hrun hpart stop)
        . intro _
          exact frames_pure (TextRun.shallow_skip hrun _)

theorem heredocBody_frames (h : inner.Framed env) (body : Span) (quoted : Bool) :
    Frames env depth extra (heredocBody inner body quoted) := by
  apply frames_ite
  . intro _
    exact frames_pure (.plainNode rfl (shallow_contentBetween _ _))
  . intro _
    apply (inMode_frames (repeatStep_frames (TextRun.shallow_startAt body.start) left_frames
      fun run hrun => bodyStep_frames h body hrun)).seq
    intro run hrun
    exact frames_pure (.plainNode rfl (TextRun.shallow_partsUpTo (hrun extra) _))

/-! ### Parameter expansions -/

theorem nameLeaf_frames (name : List Char) : Frames env depth extra (nameLeaf name) := by
  apply frames_bind_position
  intro offset
  apply leafAt_frames
  split <;> rfl

theorem simpleParameter_frames : Frames env depth extra simpleParameter := by
  apply frames_bind_upcoming
  intro cs
  cases cs with
  | nil => exact frames_pure shallow_nil
  | cons c cs =>
    apply frames_ite
    . intro _
      apply frames_bind_position
      intro offset
      exact (leafAt_frames rfl _).inList
    . intro _
      apply frames_ite
      . intro _
        exact (nameLeaf_frames [c]).inList
      . intro _
        exact (nameLeaf_frames _).inList

theorem parameterSign_frames : Frames env depth extra parameterSign := by
  apply frames_bind_upcoming
  intro cs
  split
  . apply frames_ite
    . intro _
      exact (takeText_frames _).inList
    . intro _
      exact frames_pure shallow_nil
  . exact frames_pure shallow_nil

theorem subscriptStep_frames (h : inner.Framed env) (start : Nat) {parts : List Node}
    (hparts : Shallow env depth extra parts) :
    Frames env depth extra (subscriptStep inner start parts) := by
  apply peek_frames.seq
  intro tok _
  apply frames_ite
  . intro _
    exact (tokenLeaf_frames tok).map fun _ hleaf => by simp [hparts, hleaf]
  . intro _
    apply frames_ite
    . intro _
      exact (reportUnclosed_frames _ start).map fun _ _ => hparts
    . intro _
      apply frames_ite
      . intro _
        exact (report_frames _ tok.span).map fun _ _ => hparts
      . intro _
        apply (h.literal depth).seq
        intro literal hliteral
        cases literal with
        | none => exact (tokenLeaf_frames tok).map fun _ hleaf => by simp [hparts, hleaf]
        | some literal => exact frames_pure (by simpa [hparts] using hliteral extra)

theorem subscript_frames (h : inner.Framed env) {name : Node}
    (hname : Shallow env depth extra name) : Frames env depth extra (subscript inner name) := by
  apply (takeText_frames "[").seq
  intro opener hopener
  apply frames_bind_get
  intro s
  apply (withFlags_frames (loop_frames shallow_nil fun parts hparts =>
    subscriptStep_frames h name.span.start hparts)).seq
  intro parts hparts
  exact node_frames rfl (by simp [hname, hopener, hparts])

theorem subscripted_frames (h : inner.Framed env) {name : Node}
    (hname : Shallow env depth extra name) :
    Frames env depth extra (parameter.subscripted inner name) := by
  apply frames_bind_upcoming
  intro cs
  apply frames_ite
  . intro _
    exact (subscript_frames h hname).inList
  . intro _
    exact frames_pure (by simp [hname])

theorem parameter_frames (h : inner.Framed env) : Frames env depth extra (parameter inner) := by
  apply frames_bind_upcoming
  intro cs
  cases cs with
  | nil => exact frames_pure shallow_nil
  | cons c cs =>
    apply frames_ite
    . intro _
      exact (nameLeaf_frames _).bind fun _ hname => subscripted_frames h hname
    . intro _
      apply frames_ite
      . intro _
        apply frames_bind_position
        intro offset
        exact (leafAt_frames rfl _).bind fun _ hname => subscripted_frames h hname
      . intro _
        exact frames_pure shallow_nil

theorem tokenLeaves_frames (toks : List Token) :
    Frames env depth extra (toks.mapM tokenLeaf) := by
  induction toks with
  | nil => exact frames_pure shallow_nil
  | cons tok toks ih =>
    rw [List.mapM_cons]
    apply (tokenLeaf_frames tok).seq
    intro leaf hleaf
    exact ih.map fun leaves hleaves => by simp [hleaf, hleaves]

theorem substitutionPattern_frames : Frames env depth extra substitutionPattern := by
  apply (peekRegex_frames true).seq
  intro tok _
  apply (tokenLeaves_frames tok.toList).seq
  intro pattern hpattern
  apply frames_bind_upcoming
  intro cs
  apply frames_ite
  . intro _
    exact (takeText_frames "/").map fun _ hslash => by simp [hpattern, hslash]
  . intro _
    exact frames_pure (hpattern extra)

theorem expansionOperator_frames : Frames env depth extra expansionOperator := by
  apply frames_bind_upcoming
  intro cs
  cases Operator.matching? Operator.expansion cs with
  | none => exact frames_pure shallow_nil
  | some op =>
    apply (takeText_frames op).seq
    intro leaf hleaf
    apply frames_ite
    . intro _
      exact substitutionPattern_frames.map fun _ hpattern => by simp [hleaf, hpattern]
    . intro _
      exact frames_pure (by simp [hleaf])

theorem expansionStep_frames (h : inner.Framed env) (start : Nat) {parts : List Node}
    (hparts : Shallow env depth extra parts) :
    Frames env depth extra (expansionStep inner start parts) := by
  apply peek_frames.seq
  intro tok _
  apply frames_ite
  . intro _
    exact (tokenLeaf_frames tok).map fun _ hleaf => by simp [hparts, hleaf]
  . intro _
    apply frames_ite
    . intro _
      exact (reportUnclosed_frames _ start).map fun _ _ => hparts
    . intro _
      apply (h.literal depth).seq
      intro literal hliteral
      cases literal with
      | none => exact (tokenLeaf_frames tok).map fun _ hleaf => by simp [hparts, hleaf]
      | some literal => exact frames_pure (by simpa [hparts] using hliteral extra)

theorem expansionBody_frames (h : inner.Framed env) (start : Nat) :
    Frames env depth extra (expansionBody inner start) := by
  apply parameterSign_frames.seq
  intro sign hsign
  apply (parameter_frames h).seq
  intro name hname
  apply frames_ite_seqs (frames_pure shallow_nil) expansionOperator_frames
  intro operator hoperator
  exact loop_frames (by simp [hsign, hname, hoperator]) fun _ hparts =>
    expansionStep_frames h start hparts

theorem expansion_frames (h : inner.Framed env) : Frames env depth 1 (expansion inner) := by
  apply peek_frames.seq
  intro opener _
  apply (tokenLeaf_frames opener).seq
  intro leaf hleaf
  apply (inMode_frames (withFlags_frames (expansionBody_frames h opener.span.start))).seq
  intro parts hparts
  exact levelNode_frames (by simp [hleaf, hparts])

/-! ### Insides of double parentheses -/

theorem atArithmeticClose_frames : Frames env depth extra atArithmeticClose := by
  apply peek_frames.seq
  intro tok _
  apply frames_ite
  . intro _
    apply frames_bind_charactersAt
    intro cs
    exact frames_pure (shallow_bool _)
  . intro _
    exact frames_pure (shallow_bool _)

theorem requiredExpression_frames (h : inner.Framed env) :
    Frames env depth extra (requiredExpression inner) := by
  apply (h.arithmetic depth 0).seq
  intro expression hexpression
  cases expression with
  | none =>
    apply peek_frames.seq
    intro tok _
    apply frames_ite_seq (report_frames _ tok.span)
    exact frames_pure shallow_nil
  | some expression => exact frames_pure (by simpa using hexpression extra)

theorem arithmeticJunkStep_frames (construct : Construct) (start : Nat) {junk : List Node × Bool}
    (hjunk : Shallow env depth extra junk) :
    Frames env depth extra (arithmeticJunkStep construct start junk) := by
  have htaken : Shallow env depth extra junk.1 := (shallow_pair.1 hjunk).1
  apply atArithmeticClose_frames.seq
  intro close _
  apply frames_ite
  . intro _
    exact frames_pure (by simp [htaken])
  . intro _
    apply peek_frames.seq
    intro tok _
    apply frames_ite
    . intro _
      exact (reportUnclosed_frames _ start).map fun _ _ => by simp [htaken]
    . intro _
      apply frames_ite_seq (report_frames _ tok.span)
      exact (tokenLeaf_frames tok).map fun _ hleaf => by simp [htaken, hleaf]

theorem arithmeticClose_frames (construct : Construct) (start : Nat) :
    Frames env depth extra (arithmeticClose construct start) := by
  apply (loop_frames (by simp) fun _ => arithmeticJunkStep_frames construct start).seq
  rintro ⟨junk, closed⟩ hjunk
  apply (errorAround_frames (shallow_pair.1 (hjunk 0)).1).seq
  intro errors herrors
  apply frames_ite
  . intro _
    apply peek_frames.seq
    intro tok _
    exact (leafAt_frames rfl _).map fun _ hclose => by simp [herrors, hclose]
  . intro _
    exact frames_pure (herrors extra)

theorem arithmeticBody_frames (h : inner.Framed env) (construct : Construct) (start : Nat) :
    Frames env depth extra (arithmeticBody inner construct start) := by
  apply atArithmeticClose_frames.seq
  intro close _
  apply frames_ite_seqs (frames_pure shallow_nil) (requiredExpression_frames h)
  intro expression hexpression
  exact (arithmeticClose_frames construct start).map fun _ hclose => by simp [hexpression, hclose]

/-! ### Substitutions -/

theorem substitutionBody_frames (h : inner.Framed env) (opener : Token) :
    Frames env depth extra (substitutionBody inner opener) := by
  apply peek_frames.seq
  intro tok _
  apply frames_ite
  . intro _
    exact (h.redirect depth).any.map fun _ hredirect => shallow_toList.2 hredirect
  . intro _
    exact (h.statements depth {}).any

theorem parenthesizedSubstitution_frames (h : inner.Framed env) (kind : NodeKind)
    (construct : Construct) :
    Frames env depth 1 (parenthesizedSubstitution inner kind construct) := by
  apply peek_frames.seq
  intro opener _
  apply (tokenLeaf_frames opener).seq
  intro leaf hleaf
  apply (inMode_frames (withFlags_frames _)).seq
  . intro parts hparts
    exact levelNode_frames (by simp [hleaf, hparts])
  . apply (substitutionBody_frames h opener).seq
    intro parts hparts
    exact (expectOperator_frames _ _ opener.span.start).map fun _ hclose => by
      simp [hparts, hclose]

theorem closingBacktick_frames (start : Nat) : Frames env depth extra (closingBacktick start) := by
  apply peek_frames.seq
  intro tok _
  apply frames_ite
  . intro _
    exact (tokenLeaf_frames tok).inList
  . intro _
    exact (reportMissing_frames tok _ _ start).map fun _ _ => shallow_nil

theorem backtickSubstitution_frames (h : inner.Framed env) :
    Frames env depth 1 (backtickSubstitution inner) := by
  apply peek_frames.seq
  intro opener _
  apply (tokenLeaf_frames opener).seq
  intro leaf hleaf
  apply (inMode_frames (withFlags_frames (withinBackticks_frames _))).seq
  . intro parts hparts
    exact levelNode_frames (by simp [hleaf, hparts])
  . apply (h.statements depth {}).seq
    intro parts hparts
    exact (closingBacktick_frames opener.span.start).map fun _ hclose => by simp [hparts, hclose]

theorem arithmeticExpansion_frames (h : inner.Framed env) :
    Frames env depth 1 (arithmeticExpansion inner) := by
  apply peek_frames.seq
  intro opener _
  apply (tokenLeaf_frames opener).seq
  intro leaf hleaf
  apply (inMode_frames (withFlags_frames (arithmeticBody_frames h _ opener.span.start))).seq
  intro parts hparts
  exact levelNode_frames (by simp [hleaf, hparts])

/-! ### Literals -/

theorem wordLeaf_frames (tok : Token) : Frames env depth extra (wordLeaf tok) := by
  apply leafAt_frames
  split <;> rfl

theorem rawString_frames (tok : Token) : Frames env depth extra (rawString tok) := by
  unfold rawString
  exact frames_ite_seq (reportUnclosed_frames _ _) (tokenLeaf_frames tok)

theorem ansiCString_frames (tok : Token) : Frames env depth extra (ansiCString tok) := by
  unfold ansiCString
  exact frames_ite_seq (reportUnclosed_frames _ _) (tokenLeaf_frames tok)

theorem dollar_frames (h : inner.Framed env) (tok : Token) :
    Frames env depth 1 (dollar inner tok) := by
  apply (tokenLeaf_frames tok).seq
  intro leaf hleaf
  apply frames_bind_upcoming
  intro cs
  apply frames_ite
  . intro _
    apply (doubleQuoted_frames h).bind
    intro string hstring
    exact node_frames rfl (by simp [hleaf, hstring])
  . intro _
    apply simpleParameter_frames.seq
    intro name hname
    exact node_frames rfl (by simp [hleaf, hname])

/-- A fragment may be a construct itself. -/
theorem fragmentOf_frames (h : inner.Framed env) (tok : Token) :
    Frames env depth 1 (fragmentOf inner tok) := by
  unfold fragmentOf
  split
  . exact wordLeaf_frames tok
  . exact rawString_frames tok
  . exact ansiCString_frames tok
  . exact doubleQuoted_frames h
  . exact dollar_frames h tok
  . exact expansion_frames h
  . exact parenthesizedSubstitution_frames h _ _
  . exact arithmeticExpansion_frames h
  . exact backtickSubstitution_frames h
  . exact parenthesizedSubstitution_frames h _ _

theorem fragment_frames (h : inner.Framed env) : Frames env depth extra (fragment inner) := by
  apply peek_frames.seq
  intro tok _
  apply frames_ite
  . intro _
    apply nest_frames
    exact (fragmentOf_frames h tok).map fun _ hfragment => shallow_some.2 hfragment
  . intro _
    exact frames_pure shallow_none

theorem literalStep_frames (h : inner.Framed env) {parts : List Node}
    (hparts : Shallow env depth extra parts) :
    Frames env depth extra (literalStep inner parts) := by
  apply peek_frames.seq
  intro tok _
  apply frames_ite
  . intro _
    apply (fragment_frames h).seq
    intro part hpart
    cases part with
    | none => exact frames_pure hparts
    | some part => exact frames_pure (by simpa [hparts] using hpart extra)
  . intro _
    exact frames_pure hparts

theorem literal_frames (h : inner.Framed env) : Frames env depth extra (literal inner) := by
  apply (fragment_frames h).seq
  intro first hfirst
  cases first with
  | none => exact frames_pure shallow_none
  | some first =>
    apply (loop_frames (by simpa using hfirst 0) fun _ => literalStep_frames h).seq
    intro parts hparts
    have hconcatenation : Frames env depth extra (do return some (← node .concatenation parts)) :=
      (node_frames rfl (hparts extra)).map fun _ => shallow_some.2
    match parts with
    | [only] => exact frames_pure (by simpa using hparts extra)
    | [] => exact hconcatenation
    | first :: second :: rest => exact hconcatenation

end Grammar
end ShellTree
