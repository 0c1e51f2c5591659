import ShellTree.Grammar.Command
import ShellTree.Proofs.Frame.Word

/-!
This module contains the frame of assignments, redirects and simple commands.
-/

namespace ShellTree
namespace Grammar

open Parse

variable {env : Env} {inner : Nested} {depth extra : Nat}

/-! ### Assignments -/

theorem arrayStep_frames (h : inner.Framed env) (start : Nat) {parts : List Node}
    (hparts : Shallow env depth extra parts) :
    Frames env depth extra (arrayStep inner start parts) := by
  apply peek_frames.seq
  intro tok _
  apply frames_ite
  . intro _
    exact (tokenLeaf_frames tok).map fun _ hleaf => by simp [hparts, hleaf]
  . intro _
    apply frames_ite
    . intro _
      exact (reportUnclosed_frames _ start).map fun _ _ => hparts
    . intro _
      apply (h.literal depth).seq
      intro element helement
      cases element with
      | none =>
        apply (report_frames _ tok.span).seq
        intro _ _
        exact (tokenLeaf_frames tok).map fun _ hleaf => by simp [hparts, hleaf]
      | some element => exact frames_pure (by simpa [hparts] using helement extra)

theorem array_frames (h : inner.Framed env) : Frames env depth extra (array inner) := by
  apply frames_bind_position
  intro start
  apply (takeText_frames "(").seq
  intro opener hopener
  apply (withFlags_frames (loop_frames shallow_nil fun _ => arrayStep_frames h start)).seq
  intro parts hparts
  exact node_frames rfl (by simp [hopener, hparts])

theorem assignedValue_frames (h : inner.Framed env) :
    Frames env depth extra (assignedValue inner) := by
  apply frames_bind_upcoming
  intro cs
  apply frames_ite
  . intro _
    exact (array_frames h).inList
  . intro _
    apply peek_frames.seq
    intro tok _
    apply frames_ite
    . intro _
      exact (h.literal depth).any.map fun _ => shallow_toList.2
    . intro _
      exact frames_pure shallow_nil

theorem assignment_frames (h : inner.Framed env) : Frames env depth extra (assignment inner) := by
  apply (peekWith_frames _).seq
  intro tok _
  apply (leafAt_frames rfl tok.span).seq
  intro name hname
  apply frames_bind_upcoming
  intro cs
  apply frames_ite_seqs (subscript_frames h (hname 0)) (frames_pure (hname 0))
  intro target htarget
  apply frames_bind_upcoming
  intro cs
  cases assignmentOperator? cs with
  | none =>
    apply peek_frames.seq
    intro tok _
    apply (report_frames _ tok.span).seq
    intro _ _
    exact node_frames rfl (by simp [htarget])
  | some op =>
    apply (takeText_frames op).seq
    intro leaf hleaf
    apply (assignedValue_frames h).seq
    intro value hvalue
    exact node_frames rfl (by simp [htarget, hleaf, hvalue])

/-! ### Redirects -/

theorem isHeredocStart_frames (tok : Token) : Frames env depth extra (isHeredocStart tok) := by
  unfold isHeredocStart
  split
  . exact frames_pure (shallow_bool _)
  . apply frames_bind_charactersAt
    intro cs
    exact frames_pure (shallow_bool _)
  . exact frames_pure (shallow_bool _)

theorem redirectTarget_frames (h : inner.Framed env) (op : String) :
    Frames env depth extra (redirectTarget inner op) := by
  apply peek_frames.seq
  intro tok _
  apply (h.literal depth).seq
  intro target htarget
  cases target with
  | none => exact (report_frames _ tok.span).map fun _ _ => shallow_nil
  | some target => exact frames_pure (by simpa using htarget extra)

theorem heredocMarker_frames (op : String) (redirectStart : Nat) :
    Frames env depth extra (heredocMarker op redirectStart) := by
  apply peekHeredocMarker_frames.seq
  intro marker _
  cases marker with
  | none =>
    apply peek_frames.seq
    intro tok _
    exact (report_frames _ tok.span).map fun _ _ => shallow_nil
  | some marker =>
    apply (leafAt_frames rfl marker.span).seq
    intro leaf hleaf
    apply Frames.map
    . exact frames_modify fun s => { Framed.refl env s with }
    . intro _ _
      simp [hleaf]

theorem redirectFrom_frames (h : inner.Framed env) {descriptor : List Node}
    (hdescriptor : Shallow env depth extra descriptor) (tok : Token) :
    Frames env depth extra (redirectFrom inner descriptor tok) := by
  apply frames_ite
  . intro _
    apply (tokenLeaf_frames tok).seq
    intro leaf hleaf
    apply frames_ite
    . intro _
      apply (heredocMarker_frames _ tok.span.start).seq
      intro marker hmarker
      exact node_frames rfl (by simp [hdescriptor, hleaf, hmarker])
    . intro _
      apply (redirectTarget_frames h tok.text).seq
      intro target htarget
      apply node_frames
      . split <;> rfl
      . simp [hdescriptor, hleaf, htarget]
  . intro _
    apply (report_frames _ tok.span).seq
    intro _ _
    exact node_frames rfl hdescriptor

theorem redirect_frames (h : inner.Framed env) : Frames env depth extra (redirect inner) := by
  apply peek_frames.seq
  intro tok _
  apply frames_ite
  . intro _
    exact frames_pure shallow_none
  . intro _
    apply frames_ite
    . intro _
      apply (tokenLeaf_frames tok).seq
      intro descriptor hdescriptor
      apply peek_frames.seq
      intro tok _
      exact (redirectFrom_frames h (by simp [hdescriptor]) tok).map fun _ => shallow_some.2
    . intro _
      exact (redirectFrom_frames h shallow_nil tok).map fun _ => shallow_some.2

theorem redirectsStep_frames (h : inner.Framed env) {nodes : List Node}
    (hnodes : Shallow env depth extra nodes) :
    Frames env depth extra (redirects.step inner nodes) := by
  apply (redirect_frames h).seq
  intro redirect hredirect
  cases redirect with
  | none => exact frames_pure hnodes
  | some redirect => exact frames_pure (by simpa [hnodes] using hredirect extra)

theorem redirects_frames (h : inner.Framed env) : Frames env depth extra (redirects inner) :=
  loop_frames shallow_nil fun _ => redirectsStep_frames h

/-! ### Simple commands -/

theorem isInnerRedirect_frames (tok : Token) : Frames env depth extra (isInnerRedirect tok) := by
  apply frames_ite
  . intro _
    exact (isHeredocStart_frames tok).map fun _ _ => shallow_bool _
  . intro _
    exact frames_pure (shallow_bool _)

theorem commandHeadStep_frames (h : inner.Framed env) {parts : List Node}
    (hparts : Shallow env depth extra parts) :
    Frames env depth extra (commandHeadStep inner parts) := by
  apply (peekWith_frames _).seq
  intro tok _
  apply frames_ite
  . intro _
    exact (assignment_frames h).map fun _ hassignment => by simp [hparts, hassignment]
  . intro _
    apply (isInnerRedirect_frames tok).seq
    intro isInner _
    apply frames_ite
    . intro _
      apply (redirect_frames h).seq
      intro redirect hredirect
      cases redirect with
      | none => exact frames_pure hparts
      | some redirect => exact frames_pure (by simpa [hparts] using hredirect extra)
    . intro _
      exact frames_pure hparts

theorem redirectBeforeArgument?_frames (h : inner.Framed env) :
    Frames env depth extra (redirectBeforeArgument? inner) := by
  apply (redirect_frames h).seq
  intro redirect hredirect
  cases redirect with
  | none => exact frames_pure shallow_none
  | some redirect =>
    apply peek_frames.seq
    intro tok _
    apply frames_pure
    split
    . exact hredirect extra
    . exact shallow_none

theorem argumentStep_frames (h : inner.Framed env) {parts : List Node}
    (hparts : Shallow env depth extra parts) :
    Frames env depth extra (argumentStep inner parts) := by
  apply peek_frames.seq
  intro tok _
  apply frames_ite
  . intro _
    apply (literal_frames h).seq
    intro argument hargument
    cases argument with
    | none => exact frames_pure hparts
    | some argument => exact frames_pure (by simpa [hparts] using hargument extra)
  . intro _
    apply (isInnerRedirect_frames tok).seq
    intro isInner _
    apply frames_ite
    . intro _
      apply (attempt_frames (redirectBeforeArgument?_frames h)).seq
      intro redirect hredirect
      cases redirect with
      | none => exact frames_pure hparts
      | some redirect => exact frames_pure (by simpa [hparts] using hredirect extra)
    . intro _
      exact frames_pure hparts

theorem namelessCommand_frames {head : List Node} (hhead : Shallow env depth extra head)
    (tok : Token) : Frames env depth extra (namelessCommand head tok) := by
  apply frames_ite
  . intro _
    match head with
    | [only] => exact frames_pure (by simpa using hhead)
    | [] => exact node_frames rfl hhead
    | first :: second :: rest => exact node_frames rfl hhead
  . intro _
    apply frames_ite_seq (report_frames _ tok.span)
    exact node_frames rfl hhead

theorem command_frames (h : inner.Framed env) : Frames env depth extra (command inner) := by
  apply (loop_frames shallow_nil fun _ => commandHeadStep_frames h).seq
  intro head hhead
  apply peek_frames.seq
  intro tok _
  apply (literal_frames h).seq
  intro name hname
  cases name with
  | none => exact namelessCommand_frames (hhead extra) tok
  | some name =>
    apply (node_frames rfl (by simpa using hname 0)).seq
    intro name hname
    apply (loop_frames (by simp [hhead, hname]) fun _ => argumentStep_frames h).seq
    intro parts hparts
    exact node_frames rfl (hparts extra)

theorem declarationStep_frames (h : inner.Framed env) {parts : List Node}
    (hparts : Shallow env depth extra parts) :
    Frames env depth extra (declarationStep inner parts) := by
  apply (peekWith_frames _).seq
  intro tok _
  apply frames_ite
  . intro _
    exact (assignment_frames h).map fun _ hassignment => by simp [hparts, hassignment]
  . intro _
    apply frames_bind_source
    apply frames_ite
    . intro _
      exact (leafAt_frames rfl tok.span).map fun _ hname => by simp [hparts, hname]
    . intro _
      apply (literal_frames h).seq
      intro argument hargument
      cases argument with
      | none => exact frames_pure hparts
      | some argument => exact frames_pure (by simpa [hparts] using hargument extra)

theorem declaration_frames (h : inner.Framed env) :
    Frames env depth extra (declaration inner) := by
  apply (peekWith_frames _).seq
  intro tok _
  apply (keywordLeaf_frames tok).seq
  intro keyword hkeyword
  apply (loop_frames (by simp [hkeyword]) fun _ => declarationStep_frames h).seq
  intro parts hparts
  exact node_frames rfl (hparts extra)

theorem unsetStep_frames (h : inner.Framed env) {parts : List Node}
    (hparts : Shallow env depth extra parts) :
    Frames env depth extra (unsetStep inner parts) := by
  apply peek_frames.seq
  intro tok _
  apply frames_bind_source
  apply frames_ite
  . intro _
    exact (leafAt_frames rfl tok.span).map fun _ hname => by simp [hparts, hname]
  . intro _
    apply (literal_frames h).seq
    intro argument hargument
    cases argument with
    | none => exact frames_pure hparts
    | some argument => exact frames_pure (by simpa [hparts] using hargument extra)

theorem unset_frames (h : inner.Framed env) : Frames env depth extra (unset inner) := by
  apply (peekWith_frames _).seq
  intro tok _
  apply (keywordLeaf_frames tok).seq
  intro keyword hkeyword
  apply (loop_frames (by simp [hkeyword]) fun _ => unsetStep_frames h).seq
  intro parts hparts
  exact node_frames rfl (hparts extra)

end Grammar
end ShellTree
