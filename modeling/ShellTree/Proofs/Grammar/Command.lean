import ShellTree.Grammar.Command
import ShellTree.Proofs.Grammar.Assignment
import ShellTree.Proofs.Grammar.Literal
import ShellTree.Proofs.Grammar.Redirect

/-!
This module contains the correctness of simple commands and of the builtins for variables. A step
takes an assignment, a redirect, a name or a literal, and there is something of each.
-/

namespace ShellTree
namespace Grammar

open Parse Source

variable {env : Env} {level room : Nat} {inner : Nested} {s s₁ s₂ s' : State} {nodes : List Node}
variable {tok : Token}

theorem isInnerRedirect_meets (hnext : Next env s tok) :
    Meets env s (isInnerRedirect tok) fun _ s' => s' = s := by
  unfold isInnerRedirect
  split
  . apply (isHeredocStart_meets hnext).bind
    intro _ s' hs'
    exact hs'
  . rfl

/-! ### Steps -/

theorem assignment_takes (hinner : inner.Fits env level) (hwithin : Within env (level + 1) room s)
    (hpeek : Peeks env s assignmentFlags tok s₁) (hkind : tok.kind = .variableName) :
    Meets env s₁ (assignment inner) fun node s' => Takes env s₁ [node] s' := by
  have hne : tok.kind ≠ .eof := by simp [hkind]
  have hlt := hpeek.next.pos_lt_stop hne
  have hassignment : (s₁.token env assignmentFlags).kind = .variableName := by
    rw [hpeek.stays.token_eq, ← hpeek.eq_token, hkind]
  apply (assignment_meets hinner (hpeek.opens hwithin hne) hassignment).mono
  intro node s' hnode
  obtain ⟨hreads, hstop⟩ := hnode
  rw [hpeek.stays.token_eq, ← hpeek.eq_token] at hstop
  exact hreads.takes (by omega)

theorem assignment_pushes (hinner : inner.Fits env level) (hwithin : Within env (level + 1) room s)
    (h : Takes env s₁ nodes s) (hpeek : Peeks env s assignmentFlags tok s₂)
    (hkind : tok.kind = .variableName) :
    Meets env s₂ (do return .yield (nodes ++ [← assignment inner]))
      (StepsOn env (Takes env s₁) nodes s) := by
  apply (assignment_takes hinner hwithin hpeek hkind).bind
  intro node s₃ hnode
  exact h.push hpeek.stays hnode

theorem nameArgument_pushes (h : Takes env s₁ nodes s) (hstays : Stays env s s₂)
    (hnext : Next env s₂ tok) (hname : isNameArgument env.source tok) :
    Meets env s₂ (do return .yield (nodes ++ [← leafAt .variableName tok.span]))
      (StepsOn env (Takes env s₁) nodes s) := by
  simp only [isNameArgument, Bool.and_eq_true] at hname
  have hkind := ne_eof_of_isBareWord hname.1
  apply (hnext.leafAt_meets hstays.sound hkind rfl).bind
  intro leaf s₃ hleaf
  exact h.push hstays (hleaf.takes hnext hkind)

theorem commandHeadStep_meets (hinner : inner.Fits env level)
    (hwithin : Within env (level + 1) (room + 1) s) (h : Collects env s₁ nodes s) :
    Meets env s (commandHeadStep inner nodes) (StepsOn env (Collects env s₁) nodes s) := by
  unfold commandHeadStep
  apply (peekAssignment_meets hwithin.sound).bind
  intro tok s₂ hpeek
  have hnodes := h.after hpeek.stays
  split
  . next hkind =>
    apply (assignment_takes hinner hwithin hpeek hkind).bind
    intro node s₃ hnode
    exact h.push hpeek.stays hnode
  . apply (isInnerRedirect_meets hpeek.next).bind
    rintro innerRedirect _ rfl
    split
    . apply (redirect_meets hinner (hwithin.stays hpeek.stays)).bind
      intro result s₃ hresult
      cases result with
      | some redirect => exact h.push hpeek.stays (hresult.1.takes hresult.2)
      | none => exact hnodes.after hresult.1
    . exact hnodes

theorem redirectBeforeArgument?_meets (hinner : inner.Fits env level)
    (hwithin : Within env (level + 1) (room + 1) s) :
    Meets env s (redirectBeforeArgument? inner) fun result s' =>
      Reached env s s' ∧ ∀ redirect ∈ result, Takes env s [redirect] s' := by
  unfold redirectBeforeArgument?
  apply (redirect_meets hinner hwithin).bind
  intro result s₂ hresult
  cases result with
  | none => exact ⟨hresult.1.reached, by simp⟩
  | some redirect =>
    have hredirect := hresult.1.takes hresult.2
    apply (peek_meets hredirect.sound).bind
    intro tok s₃ hpeek
    have htakes := hredirect.stays hpeek.stays
    split
    . refine ⟨htakes.toReached, ?_⟩
      rintro _ ⟨⟩
      exact htakes
    . exact ⟨htakes.toReached, by simp⟩

theorem attempt_redirect_meets (hinner : inner.Fits env level)
    (hwithin : Within env (level + 1) (room + 1) s) :
    Meets env s (attempt (redirectBeforeArgument? inner)) fun result s' =>
      match result with
      | some redirect => Takes env s [redirect] s'
      | none => Reads env s [] s' := by
  apply attempt_meets (redirectBeforeArgument?_meets hinner hwithin)
  . intro redirect s' h
    exact h.2 redirect rfl
  . intro s' h
    exact restored_reads hwithin.sound h.1

theorem argumentStep_meets (hinner : inner.Fits env level)
    (hwithin : Within env (level + 1) (room + 1) s) (h : Takes env s₁ nodes s) :
    Meets env s (argumentStep inner nodes) (StepsOn env (Takes env s₁) nodes s) := by
  unfold argumentStep
  apply (peek_meets hwithin.sound).bind
  intro tok s₂ hpeek
  split
  . exact literal_pushes hinner hwithin h hpeek.stays
  . apply (isInnerRedirect_meets hpeek.next).bind
    rintro innerRedirect _ rfl
    split
    . apply (attempt_redirect_meets hinner (hwithin.stays hpeek.stays)).bind
      intro result s₃ hresult
      cases result with
      | some redirect => exact h.push hpeek.stays hresult
      | none =>
        have hdone := (h.stays hpeek.stays).trans hresult
        rwa [List.append_nil] at hdone
    . exact h.stays hpeek.stays

theorem declarationStep_meets (hinner : inner.Fits env level)
    (hwithin : Within env (level + 1) (room + 1) s) (h : Takes env s₁ nodes s) :
    Meets env s (declarationStep inner nodes) (StepsOn env (Takes env s₁) nodes s) := by
  unfold declarationStep
  apply (peekAssignment_meets hwithin.sound).bind
  intro tok s₂ hpeek
  split
  . next hkind => exact assignment_pushes hinner hwithin h hpeek hkind
  . rw [meets_bind_source]
    split
    . next hname => exact nameArgument_pushes h hpeek.stays hpeek.next hname
    . exact literal_pushes hinner hwithin h hpeek.stays

theorem unsetStep_meets (hinner : inner.Fits env level)
    (hwithin : Within env (level + 1) (room + 1) s) (h : Takes env s₁ nodes s) :
    Meets env s (unsetStep inner nodes) (StepsOn env (Takes env s₁) nodes s) := by
  unfold unsetStep
  apply (peek_meets hwithin.sound).bind
  intro tok s₂ hpeek
  rw [meets_bind_source]
  split
  . next hname => exact nameArgument_pushes h hpeek.stays hpeek.next hname
  . exact literal_pushes hinner hwithin h hpeek.stays

/-- An argument that may be missing is taken without dropping those before it. -/
theorem literal_keeps (hnodes : nodes ≠ []) :
    Returns (do
      match ← literal inner with
      | some literal => return .yield (nodes ++ [literal])
      | none => return .done nodes) fun result : ForInStep (List Node) => result.value ≠ [] := by
  apply returns_bind
  intro result
  cases result with
  | some literal => exact returns_pure (by simp [ForInStep.value])
  | none => exact returns_pure hnodes

theorem declarationStep_returns (hnodes : nodes ≠ []) :
    Returns (declarationStep inner nodes) (·.value ≠ []) := by
  unfold declarationStep
  apply returns_bind
  intro tok
  split
  . apply returns_bind
    intro assignment
    exact returns_pure (by simp [ForInStep.value])
  . apply returns_bind
    intro src
    split
    . apply returns_bind
      intro leaf
      exact returns_pure (by simp [ForInStep.value])
    . exact literal_keeps hnodes

theorem unsetStep_returns (hnodes : nodes ≠ []) :
    Returns (unsetStep inner nodes) (·.value ≠ []) := by
  unfold unsetStep
  iterate 2 apply returns_bind; intro
  split
  . apply returns_bind
    intro leaf
    exact returns_pure (by simp [ForInStep.value])
  . exact literal_keeps hnodes

/-! ### Commands -/

theorem namelessCommand_reads {head : List Node} (h : Collects env s₁ head s)
    (hnext : Next env s tok)
    (hfirst : head = [] → tok = s₁.token env s₁.flags ∧ tok.kind ≠ .eof) :
    Meets env s (namelessCommand head tok) fun node s' =>
      Reads env s₁ [node] s' ∧ Progresses env s₁ s' := by
  have hprogress : head ≠ [] → Progresses env s₁ s := fun hne => .of_less h.toReads (h.less hne)
  unfold namelessCommand
  split
  . next hassignments =>
    simp only [Bool.and_eq_true, Bool.not_eq_eq_eq_not, Bool.not_true, List.isEmpty_eq_false_iff]
      at hassignments
    split
    . exact ⟨h.toReads, hprogress hassignments.1⟩
    . exact node_progresses h.toReads (hprogress hassignments.1)
        (.of_isLoose rfl fun hempty => absurd hempty hassignments.1)
  . dsimp only
    split
    . next hempty =>
      rw [List.isEmpty_iff] at hempty
      obtain ⟨rfl, hkind⟩ := hfirst hempty
      apply (report_reports h.sound hnext.stop_le_size rfl).bind
      intro _ s₂ hreport
      have hreported := hreport.reportedAt rfl (hnext.running hkind) (hnext.start_lt_stop hkind)
      have hstays := (h.stays hempty).trans hreport.toStays
      exact node_progresses (h.toReads.stays hreport.toStays) (.inr (.inr ⟨hstays, hreported⟩))
        (.of_isLoose rfl fun _ => rfl)
    . next hempty =>
      rw [List.isEmpty_iff] at hempty
      exact node_progresses h.toReads (hprogress hempty) (.of_isLoose rfl fun _ => rfl)

theorem command_reads (hinner : inner.Fits env level)
    (hwithin : Within env (level + 1) (room + 1) s) (hkind : (s.token env s.flags).kind ≠ .eof) :
    Meets env s (command inner) fun node s' => Reads env s [node] s' ∧ Progresses env s s' := by
  unfold command
  have hhead := repeatStep_consumes (Collects env s) (.refl hwithin.sound) fun nodes s₁ hnodes =>
    commandHeadStep_meets hinner (hwithin.reads hnodes.toReads) hnodes
  apply hhead.bind
  intro head s₁ hhead
  apply (peek_meets hhead.sound).bind
  intro tok s₂ hpeek
  have hhead₂ := hhead.after hpeek.stays
  apply (literal_meets hinner (hwithin.reads hhead₂.toReads)).bind
  intro result s₃ hresult
  cases result with
  | none =>
    apply namelessCommand_reads (hhead₂.after hresult.1) (hresult.1.next hpeek.next)
    intro hempty
    have hstays := hhead.stays hempty
    have htok : tok = s.token env s.flags := by
      rw [hpeek.eq_token, hstays.token_eq, hstays.flags_eq]
    exact ⟨htok, htok ▸ hkind⟩
  | some name =>
    apply (node_made hresult.toReads .commandName (.of_isLoose rfl (by simp))).bind
    intro commandName s₄ hname
    have htakes : Takes env s (head ++ [commandName]) s₄ := by
      refine ⟨hhead₂.toReads.trans hname.toReads, ?_⟩
      rw [hname.eq]
      exact Nat.lt_of_lt_of_le hresult.less hhead₂.toReads.remaining_le
    apply (repeatStep_consumes (Takes env s) htakes fun nodes s₅ hnodes =>
      argumentStep_meets hinner (hwithin.reads hnodes.toReads) hnodes).bind
    intro parts s₅ hparts
    exact node_progresses hparts.toReads (.of_less hparts.toReads hparts.less)
      (.of_isLoose rfl fun _ => rfl)

/-- A builtin takes its keyword and then its arguments. -/
theorem builtin_reads (hwithin : Within env (level + 1) (room + 1) s)
    (hkeyword : (s.token env statementFlags).kind ≠ .eof) {kind : NodeKind}
    (hkind : kind.isLoose)
    {step : List Node → Parse (ForInStep (List Node))}
    (hstep : ∀ nodes s₁, Within env (level + 1) (room + 1) s₁ → Takes env s nodes s₁ →
      Meets env s₁ (step nodes) (StepsOn env (Takes env s) nodes s₁))
    (hkeeps : ∀ nodes, nodes ≠ [] → Returns (step nodes) (·.value ≠ [])) :
    Meets env s (do
      let keyword ← keywordLeaf (← peekStatement)
      node kind (← repeatStep step [keyword])) fun node s' =>
        Reads env s [node] s' ∧ Progresses env s s' := by
  apply (peekStatement_meets hwithin.sound).bind
  intro tok s₁ hpeek
  rw [hpeek.kind_eq] at hkeyword
  apply (keywordLeaf_meets hpeek.stays.sound hpeek.next hkeyword).bind
  intro keyword s₂ htaken
  have htakes := (htaken.takes hpeek.next hkeyword).after hpeek.stays.reads
  have hparts := repeatStep_consumes (Takes env s) htakes fun nodes s₃ hnodes =>
    hstep nodes s₃ (hwithin.reads hnodes.toReads) hnodes
  apply (hparts.and_returns (repeatStep_returns (List.cons_ne_nil keyword []) hkeeps)).bind
  rintro parts s₃ ⟨hparts, hne⟩
  exact node_progresses hparts.toReads (.of_less hparts.toReads hparts.less)
    (.of_isLoose hkind fun hempty => absurd hempty hne)

theorem declaration_reads (hinner : inner.Fits env level)
    (hwithin : Within env (level + 1) (room + 1) s)
    (hkeyword : (s.token env statementFlags).kind ≠ .eof) :
    Meets env s (declaration inner) fun node s' =>
      Reads env s [node] s' ∧ Progresses env s s' :=
  builtin_reads hwithin hkeyword rfl
    (fun _ _ hwithin hnodes => declarationStep_meets hinner hwithin hnodes)
    fun _ => declarationStep_returns

theorem unset_reads (hinner : inner.Fits env level) (hwithin : Within env (level + 1) (room + 1) s)
    (hkeyword : (s.token env statementFlags).kind ≠ .eof) :
    Meets env s (unset inner) fun node s' => Reads env s [node] s' ∧ Progresses env s s' :=
  builtin_reads hwithin hkeyword rfl
    (fun _ _ hwithin hnodes => unsetStep_meets hinner hwithin hnodes)
    fun _ => unsetStep_returns

end Grammar
end ShellTree
