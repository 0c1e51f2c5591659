import ShellTree.Grammar.Function
import ShellTree.Proofs.Grammar.Conditional
import ShellTree.Proofs.Grammar.Loop
import ShellTree.Proofs.Grammar.Redirect
import ShellTree.Proofs.Grammar.Test

/-!
This module contains the correctness of compound commands and of the definitions of functions.
-/

namespace ShellTree
namespace Grammar

open Parse Source

variable {env : Env} {level : Nat} {inner : Nested} {s s₁ s' : State} {nodes : List Node}
variable {tok : Token}

/-! ### Compound commands -/

theorem arithmeticCommand_reads (hinner : inner.Fits env level)
    (h : Opens env level statementFlags s)
    (hop : (s.token env statementFlags).kind = .operator "((") :
    Meets env s (arithmeticCommand inner) (ReadsPast env s (s.token env statementFlags)) := by
  unfold arithmeticCommand
  apply (peekStatement_meets h.sound).bind
  intro opener s₁ hpeek
  apply (tokenLeaf_opens hpeek.stays.sound hpeek.next (hpeek.kind_eq.symm.trans hop)).bind
  rintro leaf s₂ ⟨hleaf, hleafKind⟩
  apply Meets.bind ((h.taken hpeek hleaf).inArithmetic fun s₃ hwithin₃ _ => hwithin₃.withFlags ?_)
  . intro parts s₃ hparts
    have hcomposes : Composes env .testCommand (leaf :: parts) s₃ :=
      .mk rfl trivial fun hclean _ => .inr (.inr ⟨startsWith_cons hleafKind, hparts.ends hclean⟩)
    exact (hleaf.node_arithmetic hpeek.stays.sound hparts.toReads _ hcomposes
      fun _ => .inr (.inr ⟨rfl, startsWith_cons hleafKind⟩)).mono fun _ _ hnode =>
        (hpeek.readsFrom hnode).toReadsPast
  . intro s₄ hwithin₄ _
    exact arithmeticBody_reads hinner hwithin₄ _ hpeek.next.start_le_size

theorem compoundOf?_reads (hinner : inner.Fits env level) (h : Opens env level statementFlags s)
    (hflags : s.flags = {}) {text : String} {compound : Parse Node}
    (htext : (s.token env statementFlags).text = text)
    (hcompound : compoundOf? inner text = some compound) :
    Meets env s compound (ReadsPast env s (s.token env statementFlags)) := by
  unfold compoundOf? at hcompound
  split at hcompound
  all_goals cases hcompound
  . exact braceGroup_reads hinner h hflags
  . exact testCommand_reads hinner h (.inl htext)
  . exact testCommand_reads hinner h (.inr htext)
  . exact ifStatement_reads hinner h hflags
  . exact whileLoop_reads hinner h hflags
  . exact whileLoop_reads hinner h hflags
  . exact forLoop_reads hinner h hflags
  . exact forLoop_reads hinner h hflags
  . exact caseStatement_reads hinner h hflags

/-! ### Definitions -/

theorem functionBody_meets (hinner : inner.Fits env level) (hwithin : Within env level 2 s)
    (hflags : s.flags = {}) :
    Meets env s (functionBody inner) fun result s' =>
      ReadsOption env s result s' ∧ ∀ body ∈ result, IsCompound body := by
  apply Meets.and_returns _ functionBody_returns
  unfold functionBody
  apply (peekStatement_meets hwithin.sound).bind
  intro tok s₁ hpeek
  have hopens : tok.kind ≠ .eof → Opens env level statementFlags s₁ := hpeek.opens hwithin.succ
  have hflags₁ := hpeek.stays.flags_eq.trans hflags
  have htok : s₁.token env statementFlags = tok := by rw [hpeek.stays.token_eq, hpeek.eq_token]
  split
  . next hop =>
    apply (subshell_reads hinner (hopens (by simp [hop])) hflags₁ (htok ▸ hop)).bind
    intro node s₂ hnode
    exact hpeek.stays.reads.trans hnode.toReads
  . next hop =>
    apply (arithmeticCommand_reads hinner (hopens (by simp [hop])) (htok ▸ hop)).bind
    intro node s₂ hnode
    exact hpeek.stays.reads.trans hnode.toReads
  . next hkind =>
    rw [meets_bind_source]
    split
    . next compound hcompound =>
      have hcompound : compoundOf? inner tok.text = some compound := by
        split at hcompound
        . exact hcompound
        . cases hcompound
      apply (compoundOf?_reads hinner (hopens (by simp [hkind])) hflags₁ (by rw [htok])
        hcompound).bind
      intro node s₂ hnode
      exact hpeek.stays.reads.trans hnode.toReads
    . exact hpeek.stays
  . exact hpeek.stays

theorem functionDefinition_composes {head targets : List Node} {body : Node} (h : IsCompound body) :
    Composes env .functionDefinition (head ++ body :: targets) s :=
  .mk rfl trivial fun _ _ => ⟨body, by simp, h⟩

theorem functionFrom_reads (hinner : inner.Fits env level) (hwithin : Within env level 2 s)
    (hflags : s.flags = {}) {head : List Node} (h : Reads env s₁ head s) (hne : head ≠ []) :
    Meets env s (functionFrom inner head) fun node s' =>
      Reads env s₁ [node] s' ∧ s.pos ≤ s'.pos := by
  unfold functionFrom
  apply (lineBreaks_reads hinner hwithin.succ).bind
  intro breaks s₂ hbreaks
  have hhead := h.trans hbreaks
  have hwithin₂ := hwithin.reads hbreaks
  apply (functionBody_meets hinner hwithin₂ (hbreaks.flags_eq.trans hflags)).bind
  rintro result s₃ ⟨hresult, hcompound⟩
  cases result with
  | some body =>
    have hbody : Reads env s₂ [body] s₃ := hresult
    apply (redirects_meets hinner (hwithin₂.reads hbody).succ).bind
    intro targets s₄ htargets
    have hmore := hbody.trans htargets.1
    apply (node_made (hhead.trans hmore) _
      (functionDefinition_composes (hcompound body rfl))).mono
    intro node s₅ hmade
    exact ⟨hmade.toReads, by rw [hmade.eq]; exact (hbreaks.trans hmore).pos_le⟩
  | none =>
    have hstays : Stays env s₂ s₃ := hresult
    apply (peekStatement_meets hstays.sound).bind
    intro tok s₄ hpeek
    apply (report_reports hpeek.stays.sound hpeek.next.stop_le_size rfl).bind
    intro _ s₅ hreport
    have hstays₅ := (hstays.trans hpeek.stays).trans hreport.toStays
    apply (node_made (hhead.stays hstays₅) .functionDefinition
      (.mk rfl trivial (fun hclean => absurd hclean hreport.ne_nil) rfl (by simp [hne]))).mono
    intro node s₆ hmade
    exact ⟨hmade.toReads, by rw [hmade.eq]; exact (hbreaks.stays hstays₅).pos_le⟩

theorem functionName_reads (h : Sound env s) :
    Meets env s functionName fun nodes s' => Reads env s nodes s' := by
  unfold functionName
  apply (peek_meets h).bind
  intro tok s₁ hpeek
  split
  . next hkind =>
    apply (hpeek.next.leafAt_meets hpeek.stays.sound (by simp [hkind]) rfl).bind
    intro leaf s₂ hleaf
    exact hpeek.stays.reads.trans hleaf.toReads
  . apply (report_meets hpeek.stays.sound hpeek.next.stop_le_size rfl).bind
    intro _ s₂ hreport
    exact (hpeek.stays.trans hreport).reads

theorem functionParentheses_reads (h : Sound env s) :
    Meets env s functionParentheses fun nodes s' => Reads env s nodes s' := by
  unfold functionParentheses
  apply (peek_meets h).bind
  intro tok s₁ hpeek
  apply (acceptOperator_meets hpeek.stays.sound _).bind
  intro opener s₂ hopener
  have hread := hpeek.stays.reads.trans hopener
  split
  . next hempty =>
    rw [List.isEmpty_iff] at hempty
    rw [hempty] at hread
    exact hread
  . apply (expectOperator_meets hread.sound _ _ hpeek.next.start_le_size).bind
    intro close s₃ hclose
    exact hread.trans hclose.toReads

theorem keywordFunction_reads (hinner : inner.Fits env level)
    (h : Opens env level statementFlags s) (hflags : s.flags = {}) :
    Meets env s (keywordFunction inner) (ReadsPast env s (s.token env statementFlags)) := by
  unfold keywordFunction
  apply (peekStatement_meets h.sound).bind
  intro tok s₁ hpeek
  apply (keywordLeaf_meets hpeek.stays.sound hpeek.next (hpeek.ne_eof h)).bind
  intro keyword s₂ hkeyword
  have hwithin := h.taken hpeek hkeyword
  apply (functionName_reads hwithin.sound).bind
  intro name s₃ hname
  apply (functionParentheses_reads hname.sound).bind
  intro parentheses s₄ hparentheses
  have hmore := hname.trans hparentheses
  have hread := (hpeek.stays.reads.trans hkeyword.toReads).trans hmore
  apply (functionFrom_reads hinner (hwithin.reads hmore) (hread.flags_eq.trans hflags) hread
    (by simp)).mono
  rintro node s₅ ⟨hnode, hle⟩
  refine ⟨hnode, ?_⟩
  rw [← hpeek.eq_token, ← hkeyword.pos_eq]
  exact Nat.le_trans hmore.pos_le hle

theorem functionHead?_meets (h : Opens env level statementFlags s) :
    Meets env s functionHead? fun result s' =>
      Reached env s s' ∧ s'.halted = s.halted ∧ ∀ head ∈ result, Reads env s head s' ∧
        head ≠ [] ∧ Within env level 2 s' ∧ (s.token env statementFlags).span.stop ≤ s'.pos := by
  unfold functionHead?
  apply (peekStatement_meets h.sound).bind
  intro tok s₁ hpeek
  apply (hpeek.next.leafAt_meets hpeek.stays.sound (hpeek.ne_eof h) rfl).bind
  intro name s₂ hname
  have hwithin := h.taken hpeek hname
  have hread₂ := hpeek.stays.reads.trans hname.toReads
  apply (peekPlain_meets hname.sound).bind
  intro opener s₃ hopener
  have hread₃ := hread₂.stays hopener.stays
  have hhalted₃ : s₃.halted = s.halted := by
    rw [hopener.stays.halted_eq, hname.halted_eq, hpeek.stays.halted_eq]
  split
  . next hop =>
    apply (tokenLeaf_meets hopener.stays.sound hopener.next fun _ =>
      isWhole_of_isOperator hop).bind
    intro openerLeaf s₄ hopenerLeaf
    have hread₄ := hread₃.trans hopenerLeaf.toReads
    apply (peekPlain_meets hread₄.sound).bind
    intro close s₅ hclose
    have hread₅ := hread₄.stays hclose.stays
    have hhalted₅ : s₅.halted = s.halted := by
      rw [hclose.stays.halted_eq, hopenerLeaf.halted_eq, hhalted₃]
    split
    . next hop =>
      apply (tokenLeaf_meets hclose.stays.sound hclose.next fun _ =>
        isWhole_of_isOperator hop).bind
      intro closeLeaf s₆ hcloseLeaf
      have hread₆ := hread₅.trans hcloseLeaf.toReads
      refine ⟨hread₆.toReached, hcloseLeaf.halted_eq.trans hhalted₅, ?_⟩
      rintro _ ⟨⟩
      -- the name alone pays for the level of the body
      have hparentheses := hopener.stays.reads.trans
        (hopenerLeaf.toReads.trans (hclose.stays.reads.trans hcloseLeaf.toReads))
      refine ⟨hread₆, by simp, hwithin.reads hparentheses, ?_⟩
      rw [← hpeek.eq_token, ← hname.pos_eq]
      exact hparentheses.pos_le
    . exact ⟨hread₅.toReached, hhalted₅, by simp⟩
  . exact ⟨hread₃.toReached, hhalted₃, by simp⟩

theorem plainFunction?_reads (hinner : inner.Fits env level)
    (h : Opens env level statementFlags s) (hflags : s.flags = {})
    (hkind : (s.token env statementFlags).kind ≠ .eof) :
    Meets env s (plainFunction? inner) (ReadsProgressing env s) := by
  have hhead : Meets env s (attempt functionHead?) fun result s' =>
      (∀ head ∈ result, Reads env s head s' ∧ head ≠ [] ∧ Within env level 2 s' ∧
        (s.token env statementFlags).span.stop ≤ s'.pos) ∧ (result = none → Stays env s s') := by
    apply attempt_meets (functionHead?_meets h)
    . intro head s' hhead
      exact ⟨hhead.2.2, by simp⟩
    . intro s' hhead
      exact ⟨by simp, fun _ => restored_stays_of_running h.sound hhead.1
        (hhead.2.1.trans (State.running_of_token hkind))⟩
  unfold plainFunction?
  apply hhead.bind
  intro result s₁ hresult
  cases result with
  | some head =>
    obtain ⟨hread, hne, hwithin, hstop⟩ := hresult.1 head rfl
    apply (functionFrom_reads hinner hwithin (hread.flags_eq.trans hflags) hread hne).bind
    rintro node s₂ ⟨hnode, hle⟩
    have hlt := h.sound.pos_lt_token hkind
    exact ⟨hnode, .inl (by omega)⟩
  | none => exact hresult.2 rfl

end Grammar
end ShellTree
