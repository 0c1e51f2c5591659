import ShellTree.Grammar.Conditional
import ShellTree.Proofs.Grammar.LineBreak
import ShellTree.Proofs.Grammar.Literal

/-!
This module contains the correctness of if statements and case statements.
-/

namespace ShellTree
namespace Grammar

open Parse Source

variable {env : Env} {level room : Nat} {inner : Nested} {s s₁ s' : State} {nodes : List Node}
variable {tok : Token}

/-! ### If statements -/

theorem elifClause_meets (hinner : inner.Fits env level) (hwithin : Within env level 2 s)
    (hflags : s.flags = {}) (hnext : Next env s tok) (hkind : tok.kind ≠ .eof) :
    Meets env s (elifClause inner tok) (ReadsFrom env s tok) := by
  unfold elifClause
  apply (keywordLeaf_meets hwithin.sound hnext hkind).bind
  intro leaf s₁ hleaf
  have hwithin₁ := hwithin.reads hleaf.toReads
  have hflags₁ := hleaf.flags_eq.trans hflags
  apply (hinner.statements hwithin₁ hflags₁).bind
  intro condition s₂ hcondition
  apply (expectKeyword_meets hcondition.sound _ hnext.start_le_size rfl).bind
  intro keyword s₃ hkeyword
  have hread := hcondition.toReads.trans hkeyword.toReads
  apply (hinner.statements (hwithin₁.reads hread) (hread.flags_eq.trans hflags₁)).bind
  intro body s₄ hbody
  exact hleaf.node_readsFrom (hread.trans hbody.toReads) _ (.of_isLoose rfl (by simp))

theorem elseClause_meets (hinner : inner.Fits env level) (hwithin : Within env level 2 s)
    (hflags : s.flags = {}) (hnext : Next env s tok) (hkind : tok.kind ≠ .eof) :
    Meets env s (elseClause inner tok) (ReadsFrom env s tok) := by
  unfold elseClause
  apply (keywordLeaf_meets hwithin.sound hnext hkind).bind
  intro leaf s₁ hleaf
  apply (hinner.statements (hwithin.reads hleaf.toReads) (hleaf.flags_eq.trans hflags)).bind
  intro body s₂ hbody
  exact hleaf.node_readsFrom hbody.toReads _ (.of_isLoose rfl (by simp))

theorem alternativeStep_grows (hinner : inner.Fits env level) (hwithin : Within env level 2 s)
    (hflags : s.flags = {}) (h : Reads env s₁ nodes s) :
    Meets env s (alternativeStep inner nodes) (Grows env s₁ s id) := by
  unfold alternativeStep
  apply (peekStatement_meets hwithin.sound).bind
  intro tok s₂ hpeek
  have hnodes := h.stays hpeek.stays
  have hwithin₂ := hwithin.stays hpeek.stays
  have hflags₂ := hpeek.stays.flags_eq.trans hflags
  apply Meets.mono _ (GrowsUpTo.of_stays hpeek.stays)
  have hgrows : tok.kind ≠ .eof → ∀ clause s₃, ReadsFrom env s₂ tok clause s₃ →
      Grows env s₁ s₂ id (.yield (nodes ++ [clause])) s₃ := by
    intro hkind clause s₃ hclause
    have hlt := hpeek.next.pos_lt_stop hkind
    have hle := hclause.stop_le
    exact hnodes.grows (hclause.toReads.takes (by omega))
  rw [meets_bind_source]
  split
  . next hkeyword =>
    have hkind := ne_eof_of_isKeyword hkeyword
    exact (elifClause_meets hinner hwithin₂ hflags₂ hpeek.next hkind).bind (hgrows hkind)
  . rw [meets_bind_source]
    split
    . next hkeyword =>
      have hkind := ne_eof_of_isKeyword hkeyword
      exact (elseClause_meets hinner hwithin₂ hflags₂ hpeek.next hkind).bind (hgrows hkind)
    . exact hnodes

theorem ifStatement_reads (hinner : inner.Fits env level) (h : Opens env level statementFlags s)
    (hflags : s.flags = {}) :
    Meets env s (ifStatement inner) (ReadsPast env s (s.token env statementFlags)) := by
  unfold ifStatement
  apply (peekStatement_meets h.sound).bind
  intro tok s₁ hpeek
  have hstart := hpeek.next.start_le_size
  apply (keywordLeaf_meets hpeek.stays.sound hpeek.next (hpeek.ne_eof h)).bind
  intro leaf s₂ hleaf
  have hwithin := h.taken hpeek hleaf
  have hopener := hpeek.stays.reads.trans hleaf.toReads
  have hflags₂ := hopener.flags_eq.trans hflags
  apply (hinner.statements hwithin hflags₂).bind
  intro condition s₃ hcondition
  apply (expectKeyword_meets hcondition.sound _ hstart rfl).bind
  intro keyword s₄ hkeyword
  have hread₄ := hcondition.toReads.trans hkeyword.toReads
  apply (hinner.statements (hwithin.reads hread₄) (hread₄.flags_eq.trans hflags₂)).bind
  intro body s₅ hbody
  have hread₅ := hread₄.trans hbody.toReads
  have hclauses := collect_reads (.refl hread₅.sound) fun clauses s₆ hclauses =>
    alternativeStep_grows hinner (hwithin.reads (hread₅.trans hclauses))
      ((hread₅.trans hclauses).flags_eq.trans hflags₂) hclauses
  apply hclauses.bind
  intro clauses s₆ hclauses
  apply (expectKeyword_meets hclauses.sound _ hstart rfl).bind
  intro close s₇ hclose
  exact hpeek.node_readsPast hleaf ((hread₅.trans hclauses).trans hclose.toReads) _
    (.mk rfl trivial fun hclean _ => (hclose.ends hclean).append _)

/-! ### Case statements -/

theorem patternStep_grows (hinner : inner.Fits env level)
    (hwithin : Within env (level + 1) (room + 1) s) (h : Reads env s₁ nodes s) :
    Meets env s (patternStep inner nodes) (Grows env s₁ s id) := by
  unfold patternStep
  apply (peek_meets hwithin.sound).bind
  intro tok s₂ hpeek
  have hnodes := h.stays hpeek.stays
  apply Meets.mono _ (GrowsUpTo.of_stays hpeek.stays)
  apply (literal_meets hinner (hwithin.stays hpeek.stays)).bind
  intro result s₃ hresult
  cases result with
  | some pattern =>
    apply (acceptOperator_meets hresult.sound _).bind
    intro bar s₄ hbar
    have hmore := hresult.toTakes.trans hbar
    dsimp only
    split
    . exact hnodes.trans hmore.toReads
    . exact hnodes.grows hmore
  | none =>
    have hnext := hresult.1.next hpeek.next
    apply (report_meets hresult.1.sound hnext.stop_le_size rfl).bind
    intro _ s₄ hreport
    exact hnodes.stays (hresult.1.trans hreport)

theorem caseItemBody_reads (hinner : inner.Fits env level) (hwithin : Within env level 2 s)
    (hflags : s.flags = {}) :
    Meets env s (caseItemBody inner) fun nodes s' => Reads env s nodes s' := by
  unfold caseItemBody
  apply (hinner.statements hwithin hflags).bind
  intro body s₁ hbody
  apply (peek_meets hbody.sound).bind
  intro tok s₂ hpeek
  have hbody₂ := hbody.toReads.stays hpeek.stays
  split
  . next hterminator =>
    apply (tokenLeaf_meets hpeek.stays.sound hpeek.next fun _ =>
      isWhole_of_isOneOf hterminator).bind
    intro leaf s₃ hleaf
    exact hbody₂.trans hleaf.toReads
  . exact hbody₂

theorem caseItem_reads (hinner : inner.Fits env level) (hwithin : Within env level 2 s)
    (hflags : s.flags = {}) :
    Meets env s (caseItem inner) fun result s' => Reads env s result.toList s' := by
  unfold caseItem
  apply (peek_meets hwithin.sound).bind
  intro tok s₁ hpeek
  apply (acceptOperator_meets hpeek.stays.sound _).bind
  intro opener s₂ hopener
  have hread₂ := hpeek.stays.reads.trans hopener
  have hpatterns := collect_reads (.refl hread₂.sound) fun patterns s₃ hpatterns =>
    patternStep_grows hinner (hwithin.reads (hread₂.trans hpatterns)).succ hpatterns
  apply hpatterns.bind
  intro patterns s₃ hpatterns
  have hhead : Reads env s (opener ++ patterns) s₃ := hread₂.trans hpatterns
  dsimp only
  split
  . next hempty =>
    rw [List.isEmpty_iff] at hempty
    rw [hempty] at hhead
    exact hhead
  . next hne =>
    rw [List.isEmpty_iff] at hne
    apply (expectOperator_meets hhead.sound _ _ hpeek.next.start_le_size).bind
    intro close s₄ hclose
    have hread₄ := hhead.trans hclose.toReads
    split
    . next hempty =>
      rw [List.isEmpty_iff] at hempty
      rw [hempty, List.append_nil] at hread₄
      apply (node_reads hread₄ .caseItem (.of_isLoose rfl fun hempty => absurd hempty hne)).bind
      intro node s₅ hnode
      exact hnode
    . apply (caseItemBody_reads hinner (hwithin.reads hread₄)
        (hread₄.flags_eq.trans hflags)).bind
      intro body s₅ hbody
      have hcomposes : Composes env .caseItem (opener ++ patterns ++ close ++ body) s₅ :=
        .of_isLoose rfl fun hempty => by simp_all
      apply (node_reads (hread₄.trans hbody) .caseItem hcomposes).bind
      intro node s₆ hnode
      exact hnode

theorem caseItemStep_grows (hinner : inner.Fits env level) (hwithin : Within env level 2 s)
    (hflags : s.flags = {}) (h : Reads env s₁ nodes s) :
    Meets env s (caseItemStep inner nodes) (Grows env s₁ s id) := by
  unfold caseItemStep
  apply (peekStatement_meets hwithin.sound).bind
  intro tok s₂ hpeek
  have hnodes := h.stays hpeek.stays
  have hwithin₂ := hwithin.stays hpeek.stays
  have hflags₂ := hpeek.stays.flags_eq.trans hflags
  apply Meets.mono _ (GrowsUpTo.of_stays hpeek.stays)
  simp only [meets_bind_source, meets_bind_isHalted]
  split
  . exact hnodes
  . rw [meets_bind_position]
    apply (caseItem_reads hinner hwithin₂ hflags₂).bind
    intro item s₃ hitem
    apply (lineBreaks_reads hinner (hwithin₂.reads hitem).succ).bind
    intro breaks s₄ hbreaks
    rw [meets_bind_position]
    have hmore := hitem.trans hbreaks
    have hread := hnodes.trans hmore
    rw [← List.append_assoc] at hread
    have hle := hmore.pos_le
    split
    . exact hread
    . exact ⟨hread, hmore.remaining_lt_of_pos (by omega)⟩

theorem caseSubject_reads (hinner : inner.Fits env level)
    (hwithin : Within env (level + 1) (room + 1) s) :
    Meets env s (caseSubject inner) fun nodes s' => Reads env s nodes s' := by
  unfold caseSubject
  apply (peek_meets hwithin.sound).bind
  intro tok s₁ hpeek
  apply (literal_meets hinner (hwithin.stays hpeek.stays)).bind
  intro result s₂ hresult
  cases result with
  | some subject => exact hpeek.stays.reads.trans hresult.toReads
  | none =>
    have hstays := hpeek.stays.trans hresult.1
    apply (report_meets hstays.sound hpeek.next.stop_le_size rfl).bind
    intro _ s₃ hreport
    exact (hstays.trans hreport).reads

theorem caseStatement_reads (hinner : inner.Fits env level)
    (h : Opens env level statementFlags s) (hflags : s.flags = {}) :
    Meets env s (caseStatement inner) (ReadsPast env s (s.token env statementFlags)) := by
  unfold caseStatement
  apply (peekStatement_meets h.sound).bind
  intro tok s₁ hpeek
  have hstart := hpeek.next.start_le_size
  apply (keywordLeaf_meets hpeek.stays.sound hpeek.next (hpeek.ne_eof h)).bind
  intro leaf s₂ hleaf
  have hwithin := h.taken hpeek hleaf
  have hopener := hpeek.stays.reads.trans hleaf.toReads
  have hflags₂ := hopener.flags_eq.trans hflags
  apply (caseSubject_reads hinner hwithin.succ).bind
  intro subject s₃ hsubject
  apply (acceptOperator_meets hsubject.sound _).bind
  intro semicolon s₄ hsemicolon
  have hread₄ := hsubject.trans hsemicolon
  apply (lineBreaks_reads hinner (hwithin.reads hread₄).succ).bind
  intro breaks s₅ hbreaks
  have hread₅ := hread₄.trans hbreaks
  apply (expectKeyword_meets hread₅.sound _ hstart rfl).bind
  intro keyword s₆ hkeyword
  have hread₆ := hread₅.trans hkeyword.toReads
  apply (lineBreaks_reads hinner (hwithin.reads hread₆).succ).bind
  intro moreBreaks s₇ hmoreBreaks
  have hread₇ := hread₆.trans hmoreBreaks
  have hitems := collect_reads (.refl hread₇.sound) fun items s₈ hitems =>
    caseItemStep_grows hinner (hwithin.reads (hread₇.trans hitems))
      ((hread₇.trans hitems).flags_eq.trans hflags₂) hitems
  apply hitems.bind
  intro items s₈ hitems
  apply (expectKeyword_meets hitems.sound _ hstart rfl).bind
  intro close s₉ hclose
  exact hpeek.node_readsPast hleaf ((hread₇.trans hitems).trans hclose.toReads) _
    (.mk rfl trivial fun hclean _ => (hclose.ends hclean).append _)

end Grammar
end ShellTree
