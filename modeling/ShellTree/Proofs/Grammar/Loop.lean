import ShellTree.Grammar.Loop
import ShellTree.Proofs.Grammar.Arithmetic
import ShellTree.Proofs.Grammar.Compound
import ShellTree.Proofs.Grammar.LineBreak

/-!
This module contains the correctness of groups and loops. Their statements are read under the flags
under which the construct begins, which are those of a statement.
-/

namespace ShellTree
namespace Grammar

open Parse Source

variable {env : Env} {level room : Nat} {inner : Nested} {s s₁ s₂ s' : State} {nodes : List Node}
variable {tok : Token}

/-! ### Groups -/

theorem braceGroup_reads (hinner : inner.Fits env level) (h : Opens env level statementFlags s)
    (hflags : s.flags = {}) :
    Meets env s (braceGroup inner) (ReadsPast env s (s.token env statementFlags)) := by
  unfold braceGroup
  apply (peekStatement_meets h.sound).bind
  intro opener s₁ hpeek
  apply (keywordLeaf_meets hpeek.stays.sound hpeek.next (hpeek.ne_eof h)).bind
  intro leaf s₂ hleaf
  have hopener := hpeek.stays.reads.trans hleaf.toReads
  apply (hinner.statements (h.taken hpeek hleaf) (hopener.flags_eq.trans hflags)).bind
  intro body s₃ hbody
  apply (expectKeyword_meets hbody.sound _ hpeek.next.start_le_size rfl).bind
  intro close s₄ hclose
  exact hpeek.node_readsPast hleaf (hbody.toReads.trans hclose.toReads) _
    (.mk rfl trivial fun hclean _ => (hclose.ends hclean).append _)

theorem subshell_reads (hinner : inner.Fits env level) (h : Opens env level statementFlags s)
    (hflags : s.flags = {}) {op : String}
    (hop : (s.token env statementFlags).kind = .operator op) :
    Meets env s (subshell inner) (ReadsPast env s (s.token env statementFlags)) := by
  unfold subshell
  apply (peekStatement_meets h.sound).bind
  intro opener s₁ hpeek
  apply (tokenLeaf_opens hpeek.stays.sound hpeek.next (hpeek.kind_eq.symm.trans hop)).bind
  intro leaf s₂ hleaf
  replace hleaf := hleaf.1
  have hopener := hpeek.stays.reads.trans hleaf.toReads
  apply (hinner.statements (h.taken hpeek hleaf) (hopener.flags_eq.trans hflags)).bind
  intro body s₃ hbody
  apply (expectOperator_meets hbody.sound _ _ hpeek.next.start_le_size).bind
  intro close s₄ hclose
  exact hpeek.node_readsPast hleaf (hbody.toReads.trans hclose.toReads) _
    (.mk rfl trivial fun hclean _ => (hclose.ends hclean).append _)

/-- The body of a loop is read, or its absence is reported. -/
structure ReadsLoopBody (env : Env) (s : State) (nodes : List Node) (s' : State) : Prop
    extends Reads env s nodes s' where
  body : s'.diagnostics = [] → ∃ body ∈ nodes, body.kind.isLoopBody

theorem ReadsLoopBody.after (h : ReadsLoopBody env s₁ nodes s') (hstays : Stays env s s₁) :
    ReadsLoopBody env s nodes s' := ⟨hstays.reads.trans h.toReads, h.body⟩

/-- A loop has its body last. -/
theorem ReadsLoopBody.composes (h : ReadsLoopBody env s nodes s') {kind : NodeKind}
    (hkind : kind = .forStatement ∨ kind = .cStyleForStatement ∨ kind = .whileStatement)
    (front : List Node) (hfront : front ≠ []) :
    Composes env kind (front ++ nodes) s' := by
  have hbody : s'.diagnostics = [] → ∃ body ∈ front ++ nodes, body.kind.isLoopBody := by
    intro hclean
    obtain ⟨body, hmem, hkind⟩ := h.body hclean
    exact ⟨body, List.mem_append_right _ hmem, hkind⟩
  obtain rfl | rfl | rfl := hkind
  all_goals exact .mk rfl trivial (fun hclean _ => hbody hclean) rfl (by simp [hfront])

theorem doGroup_reads (hinner : inner.Fits env level) (hwithin : Within env level 2 s)
    (hflags : s.flags = {}) (construct : Construct) {start : Nat}
    (hstart : start ≤ env.source.size) :
    Meets env s (doGroup inner construct start) (ReadsLoopBody env s) := by
  unfold doGroup
  apply (peekStatement_meets hwithin.sound).bind
  intro tok s₁ hpeek
  rw [meets_bind_source]
  split
  . next hdo =>
    apply ((keywordLeaf_meets hpeek.stays.sound hpeek.next (ne_eof_of_isKeyword hdo)).and_returns
      (keywordLeaf_returns (text_of_isKeyword hdo) rfl)).bind
    rintro leaf s₂ ⟨hleaf, hleafKind⟩
    have hopener := hpeek.stays.reads.trans hleaf.toReads
    apply (hinner.statements (hwithin.reads hopener) (hopener.flags_eq.trans hflags)).bind
    intro body s₃ hbody
    apply (expectKeyword_meets hbody.sound _ hstart rfl).bind
    intro close s₄ hclose
    have hcomposes : Composes env .doGroup (leaf :: body ++ close) s₄ :=
      .mk rfl trivial fun hclean _ => ⟨startsWith_cons hleafKind, (hclose.ends hclean).append _⟩
    apply ((node_reads ((hopener.trans hbody.toReads).trans hclose.toReads) _ hcomposes).and_returns
      kind_returns).bind
    rintro node s₅ ⟨hnode, hkind⟩
    exact ⟨hnode, fun _ => ⟨node, by simp, by rw [hkind]; rfl⟩⟩
  . apply (reportMissing_meets hpeek.stays.sound hpeek.next _ _ hstart).bind
    intro _ s₂ hreport
    exact ⟨(hpeek.stays.trans hreport.1).reads, fun hclean => absurd hclean hreport.2⟩

theorem whileLoop_reads (hinner : inner.Fits env level) (h : Opens env level statementFlags s)
    (hflags : s.flags = {}) :
    Meets env s (whileLoop inner) (ReadsPast env s (s.token env statementFlags)) := by
  unfold whileLoop
  apply (peekStatement_meets h.sound).bind
  intro tok s₁ hpeek
  apply (keywordLeaf_meets hpeek.stays.sound hpeek.next (hpeek.ne_eof h)).bind
  intro leaf s₂ hleaf
  have hwithin := h.taken hpeek hleaf
  have hopener := hpeek.stays.reads.trans hleaf.toReads
  apply (hinner.statements hwithin (hopener.flags_eq.trans hflags)).bind
  intro condition s₃ hcondition
  have hread := hopener.trans hcondition.toReads
  apply (doGroup_reads hinner (hwithin.reads hcondition.toReads) (hread.flags_eq.trans hflags) _
    hpeek.next.start_le_size).bind
  intro body s₄ hbody
  exact hpeek.node_readsPast hleaf (hcondition.toReads.trans hbody.toReads) _
    (hbody.composes (by simp) (leaf :: condition) (by simp))

/-! ### Arithmetic headers -/

def ReadsAttempt (env : Env) (s : State) (result : Option Node) (s' : State) : Prop :=
  Reached env s s' ∧ ∀ node ∈ result, Reads env s [node] s'

theorem headerAssignment?_meets (hinner : inner.Fits env level) (hwithin : Within env level 2 s)
    (hnext : Next env s tok) (hkind : tok.kind ≠ .eof) :
    Meets env s (headerAssignment? inner tok) (ReadsAttempt env s) := by
  unfold headerAssignment?
  apply (hnext.leafAt_meets hwithin.sound hkind rfl).bind
  intro name s₁ hname
  apply (peek_meets hname.sound).bind
  intro equals s₂ hpeek
  have hname₂ := hname.toReads.stays hpeek.stays
  split
  . next hop =>
    apply ((tokenLeaf_meets hpeek.stays.sound hpeek.next fun _ =>
      isWhole_of_isOperator hop).and_returns tokenLeaf_returns).bind
    rintro equalsLeaf s₃ ⟨hequals, hequalsKind⟩
    have htarget := hname₂.trans hequals.toReads
    apply (hinner.arithmetic (hwithin.reads htarget)).bind
    intro result s₄ hresult
    cases result with
    -- without a value the speculation has no result, whatever it has taken
    | none => exact ⟨(htarget.toReached.trans (Stays.reached hresult)), by simp⟩
    | some value =>
      have hvalue := htarget.trans hresult
      apply (peek_meets hvalue.sound).bind
      intro semicolon s₅ hpeek₅
      have hvalue₅ := hvalue.stays hpeek₅.stays
      split
      . have hoperator : Node.HasOperator [name, equalsLeaf, value] :=
          ⟨name, equalsLeaf, [value], rfl, .inl (hequalsKind.trans (kindOf_of_isOperator hop))⟩
        apply (node_reads hvalue₅ .variableAssignment
          (.of_assigns (by simp) fun _ => .inl hoperator)).bind
        intro node s₆ hnode
        refine ⟨hnode.toReached, ?_⟩
        rintro _ ⟨⟩
        exact hnode
      . exact ⟨hvalue₅.toReached, by simp⟩
  . exact ⟨hname₂.toReached, by simp⟩

theorem headerClause_reads (hinner : inner.Fits env level) (hwithin : Within env level 2 s)
    (allowAssignment : Bool) :
    Meets env s (headerClause inner allowAssignment) fun nodes s' => Reads env s nodes s' := by
  unfold headerClause
  apply (peek_meets hwithin.sound).bind
  intro tok s₁ hpeek
  split
  . exact hpeek.stays.reads
  . apply (atArithmeticClose_meets hpeek.stays.sound).bind
    intro closes s₂ hcloses
    have hstays := hpeek.stays.trans hcloses.1
    have hwithin₂ := hwithin.stays hstays
    split
    . exact hstays.reads
    . split
      . next hname =>
        have hkind : tok.kind ≠ .eof := by
          intro hkind
          simp [hkind] at hname
        have hattempt : Meets env s₂ (attempt (headerAssignment? inner tok))
            fun result s' => Reads env s₂ result.toList s' := by
          apply attempt_meets
            (headerAssignment?_meets hinner hwithin₂ (hcloses.1.next hpeek.next) hkind)
          . intro node s' h
            exact h.2 node rfl
          . intro s' h
            exact restored_reads hwithin₂.sound h.1
        apply hattempt.bind
        intro result s₃ hresult
        have hread := hstays.reads.trans hresult
        cases result with
        | some node => exact hread
        | none =>
          apply (requiredExpression_reads hinner (hwithin.reads hread)).mono
          intro nodes s₄ hnodes
          exact hread.trans hnodes
      . apply (requiredExpression_reads hinner hwithin₂).mono
        intro nodes s₃ hnodes
        exact hstays.reads.trans hnodes

theorem headerClauses_reads (hinner : inner.Fits env level) (hwithin : Within env level 2 s)
    {start : Nat} (hstart : start ≤ env.source.size) :
    Meets env s (headerClauses inner start) fun nodes s' => Reads env s nodes s' := by
  unfold headerClauses
  apply (headerClause_reads hinner hwithin true).bind
  intro first s₁ hfirst
  apply (expectOperator_meets hfirst.sound _ _ hstart).bind
  intro semicolon s₂ hsemicolon
  have hread₂ := hfirst.trans hsemicolon.toReads
  split
  . next hempty =>
    rw [List.isEmpty_iff] at hempty
    rw [hempty, List.append_nil] at hread₂
    exact hread₂
  . apply (headerClause_reads hinner (hwithin.reads hread₂) false).bind
    intro second s₃ hsecond
    have hread₃ := hread₂.trans hsecond
    apply (expectOperator_meets hread₃.sound _ _ hstart).bind
    intro nextSemicolon s₄ hnextSemicolon
    have hread₄ := hread₃.trans hnextSemicolon.toReads
    split
    . next hempty =>
      rw [List.isEmpty_iff] at hempty
      rw [hempty, List.append_nil] at hread₄
      exact hread₄
    . apply (headerClause_reads hinner (hwithin.reads hread₄) false).bind
      intro third s₅ hthird
      exact hread₄.trans hthird

theorem headerLoopBody_reads (hinner : inner.Fits env level) (hwithin : Within env level 2 s)
    (hflags : s.flags = {}) {start : Nat} (hstart : start ≤ env.source.size) :
    Meets env s (headerLoopBody inner start) (ReadsLoopBody env s) := by
  unfold headerLoopBody
  apply (peekStatement_meets hwithin.sound).bind
  intro tok s₁ hpeek
  have hwithin₁ := hwithin.stays hpeek.stays
  have hflags₁ := hpeek.stays.flags_eq.trans hflags
  rw [meets_bind_source]
  split
  . next hbrace =>
    have htok : s₁.token env statementFlags = tok := by rw [hpeek.stays.token_eq, hpeek.eq_token]
    have hopens := hwithin₁.opens (htok ▸ ne_eof_of_isKeyword hbrace)
    apply ((braceGroup_reads hinner hopens hflags₁).and_returns braceGroup_returns).bind
    rintro node s₂ ⟨hnode, hkind⟩
    exact ⟨hpeek.stays.reads.trans hnode.toReads, fun _ => ⟨node, by simp, by rw [hkind]; rfl⟩⟩
  . apply (doGroup_reads hinner hwithin₁ hflags₁ _ hstart).mono
    intro nodes s₂ hnodes
    exact hnodes.after hpeek.stays

theorem loopHeader_reads (hinner : inner.Fits env level) (hwithin : Within env level 2 s)
    {start : Nat} (hstart : start ≤ env.source.size) :
    Meets env s
      (inMode .arithmetic <| withFlags {} do
        let clauses ← headerClauses inner start
        let close ← arithmeticClose .forLoopHeader start
        return clauses ++ close)
      (fun nodes s' => ReadsUpTo env "))" s.inArithmetic nodes s'.inArithmetic) := by
  apply hwithin.inArithmetic fun s₁ hwithin₁ _ => hwithin₁.withFlags ?_
  intro s₂ hwithin₂ _
  apply (headerClauses_reads hinner hwithin₂ hstart).bind
  intro clauses s₃ hclauses
  apply (arithmeticClose_reads hclauses.sound _ hstart).bind
  intro close s₄ hclose
  exact hclauses.upTo hclose

theorem headerLoop_reads (hinner : inner.Fits env level) (hwithin : Within env level 2 s)
    (hflags : s.flags = {}) {keyword : Node} (h : Sound env s₁)
    (hkeyword : Taken env s₁ tok.span keyword s₂) (hstays : Stays env s₂ s) {op : String}
    (hop : (s.token env statementFlags).kind = .operator op) {start : Nat}
    (hstart : start ≤ env.source.size) :
    Meets env s (headerLoop inner keyword start) (ReadsFrom env s₁ tok) := by
  unfold headerLoop
  apply (peekStatement_meets hwithin.sound).bind
  intro opener s₃ hpeek
  apply (tokenLeaf_opens hpeek.stays.sound hpeek.next (hpeek.kind_eq.symm.trans hop)).bind
  rintro leaf s₄ ⟨hleaf, -⟩
  have hread₄ := hpeek.stays.reads.trans hleaf.toReads
  apply (loopHeader_reads hinner (hwithin.reads hread₄) hstart).bind
  intro header s₅ hheader
  have hreached₅ := hheader.toReached.leave_arithmetic hread₄.sound
  have hwithin₅ := (hwithin.reads hread₄).reached hreached₅ hheader.pos_le
  have hflags₅ : s₅.flags = {} := hheader.flags_eq.trans (hread₄.flags_eq.trans hflags)
  have hread₅ := hread₄.inArithmetic.trans hheader.toReads
  apply (acceptOperator_meets hwithin₅.sound _).bind
  intro semicolon s₆ hsemicolon
  apply (lineBreaks_reads hinner (hwithin₅.reads hsemicolon).succ).bind
  intro breaks s₇ hbreaks
  have hafter := hsemicolon.trans hbreaks
  have hread₇ := (hread₅.trans hsemicolon.inArithmetic).trans hbreaks.inArithmetic
  apply (headerLoopBody_reads hinner (hwithin₅.reads hafter) (hafter.flags_eq.trans hflags₅)
    hstart).bind
  intro body s₈ hbody
  exact hkeyword.node_arithmetic h
    (hstays.reads.inArithmetic.trans (hread₇.trans hbody.inArithmetic)) _
    (hbody.composes (by simp) (keyword :: leaf :: header ++ semicolon ++ breaks) (by simp))
    fun _ => .inr (.inl rfl)

/-! ### Values -/

theorem loopVariable_reads (hinner : inner.Fits env level)
    (hwithin : Within env (level + 1) (room + 1) s) :
    Meets env s (loopVariable inner) fun nodes s' => Reads env s nodes s' := by
  unfold loopVariable
  apply (peek_meets hwithin.sound).bind
  intro tok s₁ hpeek
  split
  . next hname =>
    have hkind : tok.kind ≠ .eof := by
      intro hkind
      simp [hkind] at hname
    apply (hpeek.next.leafAt_meets hpeek.stays.sound hkind rfl).bind
    intro leaf s₂ hleaf
    exact hpeek.stays.reads.trans hleaf.toReads
  . apply (report_meets hpeek.stays.sound hpeek.next.stop_le_size rfl).bind
    intro _ s₂ hreport
    have hstays := hpeek.stays.trans hreport
    apply (literal_meets hinner (hwithin.stays hstays)).bind
    intro result s₃ hresult
    exact hstays.reads.trans hresult.readsOption.reads

theorem loopValues_reads (hinner : inner.Fits env level)
    (hwithin : Within env (level + 1) (room + 1) s) :
    Meets env s (loopValues inner) fun nodes s' => Reads env s nodes s' := by
  unfold loopValues
  apply (peek_meets hwithin.sound).bind
  intro tok s₁ hpeek
  rw [meets_bind_source]
  split
  . next hin =>
    have hkind := ne_eof_of_isKeyword hin
    apply (keywordLeaf_meets hpeek.stays.sound hpeek.next hkind).bind
    intro leaf s₂ hleaf
    have hkeyword := hleaf.takes hpeek.next hkind
    have hvalues := repeatStep_consumes (Takes env s) (hkeyword.after hpeek.stays.reads)
      fun values s₃ hvalues => literal_pushes hinner (hwithin.reads hvalues.toReads) hvalues
        (.refl hvalues.sound)
    exact hvalues.mono fun values s₃ hvalues => hvalues.toReads
  . exact hpeek.stays.reads

theorem valueLoop_reads (hinner : inner.Fits env level) (hwithin : Within env level 2 s)
    (hflags : s.flags = {}) {keyword : Node} (hkeyword : Taken env s₁ tok.span keyword s₂)
    (hstays : Stays env s₂ s) (construct : Construct) {start : Nat}
    (hstart : start ≤ env.source.size) :
    Meets env s (valueLoop inner keyword construct start) (ReadsFrom env s₁ tok) := by
  unfold valueLoop
  apply (loopVariable_reads hinner hwithin.succ).bind
  intro name s₃ hname
  apply (loopValues_reads hinner (hwithin.reads hname).succ).bind
  intro values s₄ hvalues
  have hread₄ := hname.trans hvalues
  apply (acceptOperator_meets hread₄.sound _).bind
  intro semicolon s₅ hsemicolon
  have hread₅ := hread₄.trans hsemicolon
  apply (lineBreaks_reads hinner (hwithin.reads hread₅).succ).bind
  intro breaks s₆ hbreaks
  have hread₆ := hread₅.trans hbreaks
  apply (doGroup_reads hinner (hwithin.reads hread₆) (hread₆.flags_eq.trans hflags) _
    hstart).bind
  intro body s₇ hbody
  exact hkeyword.node_readsFrom (hstays.reads.trans (hread₆.trans hbody.toReads)) _
    (hbody.composes (by simp) (keyword :: name ++ values ++ semicolon ++ breaks) (by simp))

theorem forLoop_reads (hinner : inner.Fits env level) (h : Opens env level statementFlags s)
    (hflags : s.flags = {}) :
    Meets env s (forLoop inner) (ReadsPast env s (s.token env statementFlags)) := by
  unfold forLoop
  apply (peekStatement_meets h.sound).bind
  intro tok s₁ hpeek
  apply (keywordLeaf_meets hpeek.stays.sound hpeek.next (hpeek.ne_eof h)).bind
  intro keyword s₂ hkeyword
  have hwithin := h.taken hpeek hkeyword
  have hread := hpeek.stays.reads.trans hkeyword.toReads
  have hstart := hpeek.next.start_le_size
  apply Meets.mono _ fun _ _ hnode => (hpeek.readsFrom hnode).toReadsPast
  split
  . exact valueLoop_reads hinner hwithin (hread.flags_eq.trans hflags) hkeyword
      (.refl hwithin.sound) _ hstart
  . apply (peekStatement_meets hwithin.sound).bind
    intro opener s₃ hpeek₃
    have hwithin₃ := hwithin.stays hpeek₃.stays
    have hflags₃ := (hread.stays hpeek₃.stays).flags_eq.trans hflags
    split
    . next hop =>
      simp only [Token.isOperator, beq_iff_eq] at hop
      rw [← hpeek₃.kind_eq, ← hpeek₃.stays.token_eq] at hop
      exact headerLoop_reads hinner hwithin₃ hflags₃ hpeek.stays.sound hkeyword hpeek₃.stays hop
        hstart
    . exact valueLoop_reads hinner hwithin₃ hflags₃ hkeyword hpeek₃.stays _ hstart

end Grammar
end ShellTree
