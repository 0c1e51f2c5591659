import ShellTree.Grammar.Test
import ShellTree.Proofs.Grammar.Literal

/-!
This module contains the correctness of tests. The operators are climbed over row by row; the
pattern operator is the only one that can end in a fault.
-/

namespace ShellTree
namespace Grammar

open Parse Source

variable {env : Env} {level room : Nat} {inner : Nested} {s s₁ s' : State} {nodes : List Node}
variable {tok : Token}

/-! ### Operands -/

theorem reportTestOperand_meets (h : Sound env s) (anchor : Anchor) :
    Meets env s (reportTestOperand anchor) fun _ s' => Stays env s s' := by
  unfold reportTestOperand
  apply (peek_meets h).bind
  intro tok s₁ hpeek
  apply (report_meets hpeek.stays.sound hpeek.next.stop_le_size rfl).mono
  intro _ s₂ hreport
  exact hpeek.stays.trans hreport

theorem testOperandAfter_reads {operand : Parse (Option Node)}
    (h : Meets env s operand (ReadsOption env s)) (op : String) :
    Meets env s (testOperandAfter op operand) fun nodes s' => Reads env s nodes s' := by
  unfold testOperandAfter
  apply h.bind
  intro result s₁ hresult
  cases result with
  | some node => exact hresult
  | none =>
    apply (reportTestOperand_meets hresult.sound _).bind
    intro _ s₂ hreport
    exact (hresult.trans hreport).reads

theorem isOptionWord_meets (h : Sound env s) (hnext : Next env s tok) :
    Meets env s (isOptionWord tok) fun _ s' => Stays env s s' := by
  unfold isOptionWord
  apply Meets.bind (lookAhead_meets ?_) fun _ _ hstays => hstays
  rw [meets_bind_setPosition]
  apply (peek_meets (h.with_pos hnext.spells.right)).mono
  intro following s₁ hpeek
  exact restored_stays h hpeek.stays

theorem parenthesizedTest_reads (hinner : inner.Fits env level)
    (hwithin : Within env (level + 1) room s) (hnext : Next env s tok)
    (hop : tok.kind = .operator "(") :
    Meets env s (parenthesizedTest inner tok) fun node s' => Reads env s [node] s' := by
  unfold parenthesizedTest
  apply (tokenLeaf_opens hwithin.sound hnext hop).bind
  rintro leaf s₂ ⟨hleaf, _⟩
  have hwithin₂ := hwithin.taken hnext (by simp [hop]) hleaf
  apply (testOperandAfter_reads (hinner.test hwithin₂) _).bind
  intro content s₃ hcontent
  apply (expectOperator_meets hcontent.sound _ _ hnext.start_le_size).bind
  intro close s₄ hclose
  exact node_reads ((hleaf.toReads.trans hcontent).trans hclose.toReads) .parenthesizedExpression
    (.mk rfl trivial fun hclean _ => (hclose.ends hclean).append content)

theorem testPrimary_meets (hinner : inner.Fits env level)
    (hwithin : Within env (level + 1) (room + 1) s) :
    Meets env s (testPrimary inner) (ReadsOption env s) := by
  unfold testPrimary
  apply (peek_meets hwithin.sound).bind
  intro tok s₁ hpeek
  have hwithin₁ := hwithin.stays hpeek.stays
  split
  . next hkind =>
    apply (parenthesizedTest_reads hinner hwithin₁ hpeek.next hkind).bind
    intro node s₂ hnode
    exact hpeek.stays.reads.trans hnode
  . next hkind =>
    apply (hpeek.next.leafAt_meets hwithin₁.sound (by simp [hkind]) rfl).bind
    intro node s₂ hnode
    exact hpeek.stays.reads.trans hnode.toReads
  . apply (literal_meets hinner hwithin₁).mono
    intro result s₂ hresult
    exact hresult.readsOption.after hpeek.stays

theorem testUnary_reads (hwithin : Within env (level + 1) room s) (hnext : Next env s tok)
    (hkind : tok.kind ≠ .eof) (hwhole : tok.IsWhole) {operand : Parse (Option Node)}
    (hoperand : ∀ s₁, Within env level 2 s₁ → Meets env s₁ operand (ReadsOption env s₁)) :
    Meets env s (testUnary tok operand) fun node s' => Reads env s [node] s' := by
  unfold testUnary
  apply (tokenLeaf_meets hwithin.sound hnext fun _ => hwhole).bind
  intro op s₂ hop
  apply (testOperandAfter_reads (hoperand s₂ (hwithin.taken hnext hkind hop)) _).bind
  intro content s₃ hcontent
  exact node_reads (hop.toReads.trans hcontent) .unaryExpression
    (.of_isLoose rfl (by simp))

theorem testOperandBody_meets (hinner : inner.Fits env level)
    (hwithin : Within env (level + 1) (room + 1) s) :
    Meets env s (testOperandBody inner) (ReadsOption env s) := by
  unfold testOperandBody
  apply (peek_meets hwithin.sound).bind
  intro tok s₁ hpeek
  have hwithin₁ := hwithin.stays hpeek.stays
  split
  . next hop =>
    apply (testUnary_reads hwithin₁ hpeek.next (ne_eof_of_isOperator hop)
      (isWhole_of_isOperator hop) fun _ h => hinner.testOperand h).bind
    intro node s₂ hnode
    exact hpeek.stays.reads.trans hnode
  . split
    . next hkind =>
      apply (isOptionWord_meets hwithin₁.sound hpeek.next).bind
      intro isWord s₂ hword
      have hstays := hpeek.stays.trans hword
      have hwithin₂ := hwithin₁.stays hword
      split
      . apply (testPrimary_meets hinner hwithin₂).mono
        intro result s₃ hresult
        exact hresult.after hstays
      . apply (testUnary_reads hwithin₂ (hword.next hpeek.next) (by simp [hkind])
          (by simp [Token.IsWhole, hkind]) fun _ h => testPrimary_meets hinner h.succ).bind
        intro node s₃ hnode
        exact hstays.reads.trans hnode
    . apply (testPrimary_meets hinner hwithin₁).mono
      intro result s₂ hresult
      exact hresult.after hpeek.stays

theorem testOperand_meets (hinner : inner.Fits env level) (hwithin : Within env (level + 1) 2 s) :
    Meets env s (testOperand inner) (ReadsOption env s) :=
  nest_readsOption hwithin fun _ h => testOperandBody_meets hinner h

/-! ### Operators -/

theorem rowOperator?_eq_some {row : Operator.Row} {op : String} (hnext : Next env s tok)
    (h : rowOperator? row tok = some op) : tok.text = op ∧ tok.kind ≠ .eof := by
  unfold rowOperator? at h
  split at h
  . next hkind =>
    split at h
    . cases h
      exact ⟨hnext.operator_eq _ hkind, by simp [hkind]⟩
    . contradiction
  . next hkind =>
    split at h
    . cases h
      exact ⟨rfl, by simp [hkind]⟩
    . contradiction
  . contradiction

theorem regexOperand_meets (hinner : inner.Fits env level)
    (hwithin : Within env (level + 1) (room + 1) s)
    (hoperator : ['=', '~'] <:+: env.source.text.toList) :
    Meets env s (regexOperand inner) (ReadsOption env s) := by
  unfold regexOperand
  apply (peekRegex_meets hwithin.sound fun _ => hoperator).bind
  intro result s₁ hpeek
  obtain ⟨hstays, hregex⟩ := hpeek
  cases result with
  | none =>
    apply (testPrimary_meets hinner (hwithin.stays hstays)).mono
    intro result s₂ hresult
    exact hresult.after hstays
  | some regex =>
    obtain ⟨hnext, _, _, hwhole⟩ := hregex regex rfl
    apply (tokenLeaf_meets hstays.sound hnext fun _ => hwhole).bind
    intro leaf s₂ hleaf
    exact hstays.reads.trans hleaf.toReads

theorem testStep_grows (hinner : inner.Fits env level) (hwithin : Within env (level + 1) room s)
    (row : Operator.Row) {tighter : Parse (Option Node)}
    (htighter : ∀ s₁, Within env (level + 1) 2 s₁ → Meets env s₁ tighter (ReadsOption env s₁))
    {left : Node} (h : Reads env s₁ [left] s) :
    Meets env s (testStep inner row tighter left) (Grows env s₁ s fun node => [node]) := by
  unfold testStep
  apply (peek_meets hwithin.sound).bind
  intro tok s₂ hpeek
  have hleft := h.stays hpeek.stays
  have hwithin₂ := hwithin.stays hpeek.stays
  apply Meets.mono _ (GrowsUpTo.of_stays hpeek.stays)
  cases hrow : rowOperator? row tok with
  | none => exact hleft
  | some op =>
    obtain ⟨htext, hkind⟩ := rowOperator?_eq_some hpeek.next hrow
    apply (textLeaf_meets hwithin₂.sound hpeek.next.skips (htext ▸ hpeek.next.spells)
      (htext ▸ hpeek.next.ne_nil hkind)).bind
    intro leaf s₃ hleaf
    have hwithin₃ := (hwithin₂.taken hpeek.next hkind hleaf).succ
    have hoperand : Meets env s₃ (if op = "=~" then regexOperand inner else tighter)
        (ReadsOption env s₃) := by
      split
      . next hop =>
        apply regexOperand_meets hinner hwithin₃
        obtain ⟨before, after, hsource, _⟩ := hpeek.next.spells
        rw [htext, hop] at hsource
        exact ⟨before, after, hsource.symm⟩
      . exact htighter s₃ hwithin₃
    apply (testOperandAfter_reads hoperand _).bind
    intro right s₄ hright
    apply (hleaf.node_joins hleft hpeek.next hkind hright .binaryExpression
      (.of_isLoose rfl (by simp))).bind
    intro node s₅ hnode
    exact hnode

theorem testRows_meets (hinner : inner.Fits env level) (rows : List Operator.Row)
    (hwithin : Within env (level + 1) 2 s) :
    Meets env s (testRows inner rows) (ReadsOption env s) := by
  induction rows generalizing s with
  | nil => exact testOperand_meets hinner hwithin
  | cons row rows ih =>
    unfold testRows
    apply (ih hwithin).bind
    intro result s₁ hresult
    cases result with
    | none => exact hresult
    | some left =>
      -- the right operands are of the tighter rows, as the left one was
      have hclimb := repeatStep_reads (fun node => [node]) hresult fun left s₂ hleft =>
        testStep_grows hinner (hwithin.reads hleft) row (fun _ h => ih h) hleft
      apply hclimb.bind
      intro node s₂ hnode
      exact hnode

theorem test_meets (hinner : inner.Fits env level) (hwithin : Within env (level + 1) 2 s) :
    Meets env s (test inner) (ReadsOption env s) := testRows_meets hinner _ hwithin

/-! ### Commands -/

/-- Junk is read up to the closing bracket, or its absence is reported. -/
def ReadsTestClose (env : Env) (closer : String) (s₁ : State) (junk : List Node × List Node)
    (s' : State) : Prop :=
  ∃ s, ReadsJunk env s₁ junk.1 s ∧ ReadsUpTo env closer s junk.2 s'

abbrev TestJunkSteps (env : Env) (closer : String) (s₁ : State) (junk : List Node × List Node)
    (s : State) : ForInStep (List Node × List Node) → State → Prop :=
  Steps (fun junk s => ReadsJunk env s₁ junk.1 s ∧ junk.2 = []) (ReadsTestClose env closer s₁)
    (fun _ s => s.remaining env) junk s

theorem ReadsTestClose.of_report {closer : String} {junk : List Node} {cause : Cause}
    {span : Span} (h : ReadsJunk env s₁ junk s) (hreport : Reports env s cause span s') :
    ReadsTestClose env closer s₁ (junk, []) s' :=
  ⟨s', h.stays hreport.toStays, .refl hreport.sound, fun hclean => absurd hclean hreport.ne_nil⟩

theorem junkLiteral_meets (hinner : inner.Fits env level)
    (hwithin : Within env (level + 1) (room + 1) s) {tok : Token} (hnext : Next env s tok)
    (htok : tok = s.token env s.flags) (heof : tok.kind ≠ .eof) {junk : List Node}
    (h : ReadsJunk env s₁ junk s)
    (hfirst : junk = [] → tok.kind ≠ .error → ReportedAt s.diagnostics tok.span.start) {s₀ : State}
    (hle : s.remaining env ≤ s₀.remaining env) {closer : String} :
    Meets env s (do
      match ← literal inner with
      | some literal => return .yield (junk ++ [literal], [])
      | none => return .yield (junk ++ [← tokenLeaf tok], []))
      (TestJunkSteps env closer s₁ (junk, []) s₀) := by
  apply (literal_meets hinner hwithin).bind
  intro result s₂ hresult
  cases result with
  | some literal =>
    refine ⟨⟨h.push hresult.toReads fun hjunk hrunning => ?_, rfl⟩,
      Nat.lt_of_lt_of_le hresult.less hle⟩
    have hbegins := hresult.begins
    have hdepth := hresult.proceeds.resolve_left (by simp [hrunning])
    rw [← htok] at hbegins
    rw [hresult.start_eq hdepth, ← htok]
    apply (hfirst hjunk _).mono hresult.reports
    intro herror
    simp [Token.isLiteralStart, herror] at hbegins
  | none =>
    have hstays := hresult.1
    apply ((h.stays hstays).takeToken (hstays.next hnext) heof fun hjunk herror =>
      (hfirst hjunk herror).mono hstays.reports).bind
    intro leaf s₃ hleaf
    have hle₂ := Nat.le_trans hstays.reads.remaining_le hle
    exact ⟨⟨hleaf.1, rfl⟩, Nat.lt_of_lt_of_le hleaf.2 hle₂⟩

theorem testJunkStep_meets (hinner : inner.Fits env level)
    (hwithin : Within env (level + 1) (room + 1) s₁) (closer : String) (construct : Construct)
    {start : Nat} (hstart : start ≤ env.source.size) (junk : List Node × List Node) (s : State)
    (h : ReadsJunk env s₁ junk.1 s ∧ junk.2 = []) :
    Meets env s (testJunkStep inner closer construct start junk)
      (TestJunkSteps env closer s₁ junk s) := by
  obtain ⟨junk, close⟩ := junk
  obtain ⟨h, rfl⟩ := h
  unfold testJunkStep
  apply (peek_meets h.sound).bind
  intro tok s₂ hpeek
  have hjunk := h.stays hpeek.stays
  split
  . next hop =>
    apply ((tokenLeaf_meets hjunk.sound hpeek.next fun _ =>
      isWhole_of_isOperator hop).and_returns tokenLeaf_returns).bind
    rintro leaf s₃ ⟨hleaf, hcloser⟩
    exact ⟨s₂, hjunk, hleaf.toReads, fun _ =>
      endsWith_singleton (hcloser.trans (kindOf_of_isOperator hop))⟩
  . split
    . apply (reportUnclosed_reports hjunk.sound _ hstart rfl).bind
      intro _ s₃ hreport
      exact .of_report hjunk hreport
    . next heof =>
      have hkind := mt isEof_iff.2 heof
      split
      . apply (report_reports hjunk.sound hpeek.next.stop_le_size rfl).bind
        intro _ s₃ hreport
        exact .of_report hjunk hreport
      . have htoken : tok = s₂.token env s₂.flags := by
          rw [hpeek.stays.token_eq, hpeek.stays.flags_eq, hpeek.eq_token]
        have htake : ∀ s₃, Stays env s₂ s₃ →
            (junk = [] → tok.kind ≠ .error → ReportedAt s₃.diagnostics tok.span.start) →
            Meets env s₃ _ (TestJunkSteps env closer s₁ (junk, []) s) :=
          fun s₃ hstays hfirst =>
            junkLiteral_meets hinner (hwithin.reads (hjunk.stays hstays).toReads)
              (hstays.next hpeek.next)
              (by rw [hstays.token_eq, hstays.flags_eq, htoken]) hkind (hjunk.stays hstays) hfirst
              (hpeek.stays.trans hstays).reads.remaining_le
        dsimp only
        split
        . apply (report_reports hjunk.sound hpeek.next.stop_le_size rfl).bind
          intro _ s₃ hreport
          have hreported := hreport.reportedAt rfl (hpeek.next.running hkind)
            (hpeek.next.start_lt_stop hkind)
          exact htake s₃ hreport.toStays fun _ _ => hreported
        . next hunreported =>
          apply htake s₂ (.refl hjunk.sound)
          intro hempty herror
          simp [hempty, herror] at hunreported

theorem testClose_reads (hinner : inner.Fits env level)
    (hwithin : Within env (level + 1) (room + 1) s) (closer : String) (construct : Construct)
    {start : Nat} (hstart : start ≤ env.source.size) :
    Meets env s (testClose inner closer construct start) (ReadsUpTo env closer s) := by
  unfold testClose
  apply (repeatStep_consumes (fun junk s' => ReadsJunk env s junk.1 s' ∧ junk.2 = [])
    ⟨.refl hwithin.sound, rfl⟩ (testJunkStep_meets hinner hwithin closer construct hstart)).bind
  intro junk s₂ hjunk
  obtain ⟨junk, close⟩ := junk
  obtain ⟨s₁, hjunk, hclose⟩ := hjunk
  apply (hjunk.errorAround s₂).bind
  intro errors s₃ herrors
  obtain ⟨herrors, rfl⟩ := herrors
  exact herrors.upTo hclose

theorem testContent_reads (hinner : inner.Fits env level) (hwithin : Within env (level + 1) 2 s)
    (closer : String) (construct : Construct) :
    Meets env s (testContent inner closer construct) fun nodes s' => Reads env s nodes s' := by
  unfold testContent
  apply (peek_meets hwithin.sound).bind
  intro tok s₁ hpeek
  split
  . exact hpeek.stays.reads
  . apply (test_meets hinner (hwithin.stays hpeek.stays)).bind
    intro result s₂ hresult
    cases result with
    | some expression => exact hpeek.stays.reads.trans hresult
    | none =>
      have hstays := hpeek.stays.trans hresult
      apply (peek_meets hstays.sound).bind
      intro tok s₃ hpeek₃
      have hstays₃ := hstays.trans hpeek₃.stays
      dsimp only
      split
      . apply (reportTestOperand_meets hstays₃.sound _).bind
        intro _ s₄ hreport
        exact (hstays₃.trans hreport).reads
      . exact hstays₃.reads

theorem testCommand_composes {leaf : Node} {opener closer : String} {parts : List Node}
    (hopener : (opener, closer) = ("[", "]") ∨ (opener, closer) = ("[[", "]]"))
    (hleaf : leaf.kind = .token opener) (hends : s.diagnostics = [] → EndsWith closer parts) :
    Composes env .testCommand (leaf :: parts) s := by
  refine .mk rfl trivial fun hclean _ => ?_
  obtain heq | heq := hopener
  . cases heq
    exact .inl ⟨startsWith_cons hleaf, hends hclean⟩
  . cases heq
    exact .inr (.inl ⟨startsWith_cons hleaf, hends hclean⟩)

theorem testCommand_reads (hinner : inner.Fits env level) (h : Opens env level statementFlags s)
    (htext : (s.token env statementFlags).text = "[" ∨ (s.token env statementFlags).text = "[[") :
    Meets env s (testCommand inner) (ReadsPast env s (s.token env statementFlags)) := by
  unfold testCommand
  apply (peekStatement_meets h.sound).bind
  intro opener s₁ hpeek
  rw [← hpeek.eq_token] at htext
  have hchoice : ∃ mode closer construct,
      (if opener.text == "[[" then (Mode.doubleTest, "]]", Construct.doubleBracketTest)
        else (Mode.test, "]", Construct.bracketTest)) = (mode, closer, construct) ∧
      mode ≠ .arithmetic ∧
      ((opener.text, closer) = ("[", "]") ∨ (opener.text, closer) = ("[[", "]]")) ∧
      Keyword.keyword? opener.text = some opener.text := by
    obtain htext | htext := htext
    . refine ⟨.test, "]", .bracketTest, ?_, by simp, .inl ?_, ?_⟩ <;> rw [htext] <;> rfl
    . refine ⟨.doubleTest, "]]", .doubleBracketTest, ?_, by simp, .inr ?_, ?_⟩ <;> rw [htext] <;>
        rfl
  obtain ⟨mode, closer, construct, heq, hmode, hopener, hkeyword⟩ := hchoice
  rw [heq]
  apply ((keywordLeaf_meets hpeek.stays.sound hpeek.next (hpeek.ne_eof h)).and_returns
    (keywordLeaf_returns rfl hkeyword)).bind
  rintro leaf s₂ ⟨hleaf, hleafKind⟩
  have hwithin := h.taken hpeek hleaf
  apply Meets.bind (hwithin.inMode hmode fun s₃ hwithin₃ _ => hwithin₃.withFlags ?_)
  . intro parts s₃ hparts
    exact hpeek.node_readsPast hleaf hparts.toReads _
      (testCommand_composes hopener hleafKind hparts.ends)
  . intro s₄ hwithin₄ _
    apply (testContent_reads hinner hwithin₄.succ closer construct).bind
    intro content s₅ hcontent
    apply (testClose_reads hinner (hwithin₄.reads hcontent).succ closer construct
      hpeek.next.start_le_size).bind
    intro close s₆ hclose
    exact hcontent.upTo hclose

end Grammar
end ShellTree
