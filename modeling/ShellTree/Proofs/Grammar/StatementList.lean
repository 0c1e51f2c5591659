import ShellTree.Grammar.StatementList
import ShellTree.Proofs.Grammar.Statement

/-!
This module contains the correctness of lists of statements. Every step but the last takes a part of
the text or finds that the parse has halted. Recovery takes at least one token, and what it takes
begins with the token that is no statement.
-/

namespace ShellTree
namespace Grammar

open Parse Source

variable {env : Env} {level room : Nat} {inner : Nested} {s s₁ s₂ s' : State} {nodes : List Node}
variable {tok first : Token}

/-! ### Recovery -/

/-- What is no statement is taken from its first token on. A character that begins no token is
reported where it is taken. -/
structure Recovered (env : Env) (s : State) (first : Token) (junk : List Node) (s' : State) : Prop
    extends Reads env s junk s' where
  ne_nil : junk ≠ []
  start_eq : ∀ node ∈ junk.head?, node.span.start = first.span.start
  less : s'.remaining env < s.remaining env
  reported : first.kind = .error → s'.halted = false → ReportedAt s'.diagnostics first.span.start

theorem Recovered.of_first {node : Node} (h : Takes env s [node] s')
    (hstart : node.span.start = first.span.start)
    (hreported : first.kind = .error → s'.halted = false →
      ReportedAt s'.diagnostics first.span.start) : Recovered env s first [node] s' :=
  ⟨h.toReads, by simp, by simpa using hstart, h.less, hreported⟩

theorem Recovered.trans {junk : List Node} (h : Recovered env s first junk s₁)
    (hnodes : Reads env s₁ nodes s') : Recovered env s first (junk ++ nodes) s' := by
  refine ⟨h.toReads.trans hnodes, by simp [h.ne_nil], ?_, ?_, ?_⟩
  . intro node hnode
    obtain ⟨head, hhead⟩ := Option.ne_none_iff_exists'.1 (mt List.head?_eq_none_iff.1 h.ne_nil)
    rw [List.head?_append, hhead, Option.some_or, ← hhead] at hnode
    exact h.start_eq node hnode
  . exact Nat.lt_of_le_of_lt hnodes.remaining_le h.less
  . intro hkind hrunning
    exact (h.reported hkind (hnodes.running hrunning)).mono hnodes.reports

theorem Recovered.stays {junk : List Node} (h : Recovered env s first junk s₁)
    (hstays : Stays env s₁ s') : Recovered env s first junk s' := by
  simpa using h.trans hstays.reads

theorem Recovered.exists_last {junk : List Node} (h : Recovered env s₁ first junk s) :
    ∃ last, junk.getLast? = some last ∧ first.span.start ≤ last.span.stop ∧
      last.span.stop ≤ env.source.size := by
  obtain ⟨last, hlast⟩ := Option.ne_none_iff_exists'.1 (mt List.getLast?_eq_none_iff.1 h.ne_nil)
  obtain ⟨head, hhead⟩ := Option.ne_none_iff_exists'.1 (mt List.head?_eq_none_iff.1 h.ne_nil)
  have hordered := h.tiles.first_le_last hhead hlast
  rw [h.start_eq head hhead] at hordered
  exact ⟨last, hlast, hordered, (h.tiles.trim_right hlast).2.left.le_size⟩

def Recovering (env : Env) (s : State) (first : Token) (junk : List Node) (s' : State) : Prop :=
  junk = [] ∧ Stays env s s' ∨ Recovered env s first junk s'

theorem Recovering.reads {junk : List Node} (h : Recovering env s₁ first junk s) :
    Reads env s₁ junk s := by
  cases h with
  | inl hnone =>
    obtain ⟨rfl, hstays⟩ := hnone
    exact hstays.reads
  | inr hrecovered => exact hrecovered.toReads

theorem Recovering.recovered {junk : List Node} (h : Recovering env s₁ first junk s)
    (hfirst : first = s₁.token env {}) (hpeek : Peeks env s {} tok s₂)
    (hend : junk ≠ [] ∨ tok ≠ first) : Recovered env s₁ first junk s₂ := by
  cases h with
  | inl hnone =>
    obtain ⟨rfl, hstays⟩ := hnone
    have htok : tok = first := by rw [hpeek.eq_token, hstays.token_eq, ← hfirst]
    simp [htok] at hend
  | inr hrecovered => exact hrecovered.stays hpeek.stays

theorem Recovering.take {junk : List Node} (h : Recovering env s₁ first junk s)
    (hfirst : first = s₁.token env {}) (hpeek : Peeks env s {} tok s₂) {node : Node}
    (hnode : Recovered env s₂ tok [node] s') : Recovered env s₁ first (junk ++ [node]) s' := by
  cases h with
  | inl hnone =>
    obtain ⟨rfl, hstays⟩ := hnone
    have htok : tok = first := by rw [hpeek.eq_token, hstays.token_eq, ← hfirst]
    have hstays₂ := hstays.trans hpeek.stays
    rw [htok] at hnode
    refine ⟨hstays₂.reads.trans hnode.toReads, by simp, hnode.start_eq, ?_, hnode.reported⟩
    exact Nat.lt_of_lt_of_le hnode.less hstays₂.reads.remaining_le
  | inr hrecovered => exact (hrecovered.stays hpeek.stays).trans hnode.toReads

theorem recoverLiteral_meets (hinner : inner.Fits env level)
    (hwithin : Within env (level + 1) (room + 1) s) (hflags : s.flags = {})
    (hdepth : s.depth < env.options.maxDepth) (htok : tok = s.token env {})
    (hliteral : tok.isLiteralStart) :
    Meets env s (literal inner) fun result s' =>
      ∃ node, result = some node ∧ Recovered env s tok [node] s' := by
  apply (literal_meets hinner hwithin).mono
  intro result s' hresult
  cases result with
  | none =>
    have hstart := hresult.2
    rw [hflags, ← htok] at hstart
    simp [hliteral] at hstart
  | some node =>
    have hstart := hresult.start_eq hdepth
    rw [hflags, ← htok] at hstart
    refine ⟨node, rfl, .of_first hresult.toTakes hstart ?_⟩
    intro hkind
    simp [Token.isLiteralStart, hkind] at hliteral

theorem recoverToken_meets (hs : Sound env s) (hnext : Next env s tok) (hkind : tok.kind ≠ .eof)
    (hliteral : tok.isLiteralStart = false) :
    Meets env s (tokenLeaf tok) fun leaf s' => Recovered env s tok [leaf] s' := by
  have hwhole := isWhole_of_not_isLiteralStart hliteral hkind
  apply ((tokenLeaf_meets hs hnext fun _ => hwhole).and_returns tokenLeaf_returns).mono
  rintro leaf s' ⟨hleaf, hleafKind⟩
  apply Recovered.of_first (hleaf.takes hnext hkind) (by rw [hleaf.span_eq])
  intro herror hrunning
  have hsettled := (hleaf.accounts hrunning).1.self
  have hlt := hnext.start_lt_stop hkind
  rw [← hleaf.span_eq] at hlt ⊢
  exact hsettled.reported (by rw [hleafKind, herror]; rfl) hlt

/-- A step of recovery. Only what has taken something can end it. -/
abbrev RecoverySteps (env : Env) (s₁ : State) (first : Token) :
    List Node → State → ForInStep (List Node) → State → Prop :=
  Steps (Recovering env s₁ first) (Recovered env s₁ first) (fun _ s => s.remaining env)

theorem afterRecovered_meets {junk : List Node} (h : Recovered env s₁ first junk s')
    (hless : s'.remaining env < s.remaining env) {junk₀ : List Node} :
    Meets env s' (do return if ← isHalted then .done junk else .yield junk)
      (RecoverySteps env s₁ first junk₀ s) := by
  rw [meets_bind_isHalted]
  split
  . exact h
  . exact ⟨.inr h, hless⟩

theorem recoveryStep_meets (hinner : inner.Fits env level)
    (hwithin : Within env (level + 1) (room + 1) s₁) (hflags : s₁.flags = {})
    (hdepth : s₁.depth < env.options.maxDepth) (hfirst : first = s₁.token env {})
    (heof : first.kind ≠ .eof) (hnewline : first.kind ≠ .newline) (ctx : ListContext)
    (junk : List Node) (s : State) (h : Recovering env s₁ first junk s) :
    Meets env s (recoveryStep inner ctx junk) (RecoverySteps env s₁ first junk s) := by
  unfold recoveryStep
  apply (peekPlain_meets h.reads.sound).bind
  intro tok s₂ hpeek
  split
  . next hend =>
    simp only [Bool.or_eq_true, isEof_iff, decide_eq_true_eq] at hend
    -- the first token ends neither the input nor a line
    apply h.recovered hfirst hpeek (.inr _)
    rintro rfl
    simp [heof, hnewline] at hend
  . next hend =>
    simp only [Bool.or_eq_true, isEof_iff, decide_eq_true_eq, not_or] at hend
    rw [meets_bind_source]
    split
    . next hclose =>
      simp only [Bool.and_eq_true, Bool.not_eq_eq_eq_not, Bool.not_true] at hclose
      apply h.recovered hfirst hpeek (.inl _)
      rintro rfl
      simp at hclose
    . have hread := h.reads.stays hpeek.stays
      have hle := hpeek.stays.reads.remaining_le
      dsimp only
      split
      . next hliteral =>
        have hdepth₂ : s₂.depth < env.options.maxDepth := by rwa [hread.depth_eq]
        have htok : tok = s₂.token env {} := by rw [hpeek.stays.token_eq, hpeek.eq_token]
        apply (recoverLiteral_meets hinner (hwithin.reads hread) (hread.flags_eq.trans hflags)
          hdepth₂ htok hliteral).bind
        rintro _ s₃ ⟨node, rfl, hnode⟩
        exact afterRecovered_meets (h.take hfirst hpeek hnode) (Nat.lt_of_lt_of_le hnode.less hle)
      . next hliteral =>
        apply (recoverToken_meets hread.sound hpeek.next hend.1 (by simpa using hliteral)).bind
        intro leaf s₃ hleaf
        exact afterRecovered_meets (h.take hfirst hpeek hleaf) (Nat.lt_of_lt_of_le hleaf.less hle)

theorem recoveryCause_isLocal (tok : Token) : (recoveryCause tok).isLocal := by
  unfold recoveryCause
  split <;> rfl

theorem recoveryError_meets {junk : List Node} (h : Recovered env s₁ first junk s)
    (hexplained : s.halted = false → Explained s.diagnostics junk) :
    Meets env s (do
      if junk.length = 1 && junk.all (fun only => only.isError && only.isLeaf) then
        return junk
      else
        errorAround junk) fun nodes s' =>
          Reads env s₁ nodes s' ∧ s'.remaining env < s₁.remaining env := by
  split
  . exact ⟨h.toReads, h.less⟩
  . apply (errorAround_reads h.toReads s fun _ => hexplained).mono
    rintro errors _ ⟨herrors, rfl⟩
    exact ⟨herrors, h.less⟩

theorem recover_meets (hinner : inner.Fits env level)
    (hwithin : Within env (level + 1) (room + 1) s) (hflags : s.flags = {})
    (hdepth : s.depth < env.options.maxDepth) (ctx : ListContext) :
    Meets env s (recover inner ctx) fun nodes s' => Reads env s nodes s' ∧
      ((s.token env {}).kind ≠ .eof → (s.token env {}).kind ≠ .newline →
        s'.remaining env < s.remaining env) := by
  unfold recover
  apply (peekPlain_meets hwithin.sound).bind
  intro first s₁ hpeek
  split
  . next hend =>
    simp only [Bool.or_eq_true, isEof_iff, decide_eq_true_eq] at hend
    refine ⟨hpeek.stays.reads, ?_⟩
    rw [hpeek.kind_eq]
    intro heof hnewline
    simp [heof, hnewline] at hend
  . next hend =>
    simp only [Bool.or_eq_true, isEof_iff, decide_eq_true_eq, not_or] at hend
    have hwithin₁ := hwithin.stays hpeek.stays
    have hflags₁ := hpeek.stays.flags_eq.trans hflags
    have hdepth₁ : s₁.depth < env.options.maxDepth := by rwa [hpeek.stays.depth_eq]
    have hfirst : first = s₁.token env {} := by rw [hpeek.stays.token_eq, hpeek.eq_token]
    have hle := hpeek.stays.reads.remaining_le
    refine Meets.mono (?_ : Meets env s₁ _ fun nodes s' =>
      Reads env s₁ nodes s' ∧ s'.remaining env < s₁.remaining env) ?_
    . have hloop := repeatStep_consumes (Recovering env s₁ first)
        (.inl ⟨rfl, .refl hwithin₁.sound⟩)
        (recoveryStep_meets hinner hwithin₁ hflags₁ hdepth₁ hfirst hend.1 hend.2 ctx)
      apply hloop.bind
      intro junk s₂ hjunk
      dsimp only
      split
      . obtain ⟨last, hlast, hordered, hstop⟩ := hjunk.exists_last
        simp only [hlast, Option.map_some, Option.getD_some]
        rw [meets_bind_spanBetween hordered]
        apply (report_reports hjunk.sound _ (recoveryCause_isLocal first)).bind
        . intro _ s₃ hreport
          apply recoveryError_meets (hjunk.stays hreport.toStays)
          intro hrunning
          refine ⟨hreport.ne_nil, ?_⟩
          intro node hnode last' hlast' hspan
          rw [hlast, Option.mem_def, Option.some.injEq] at hlast'
          rw [← hlast'] at hspan
          rw [hjunk.start_eq node hnode] at hspan ⊢
          exact hreport.reportedAt (recoveryCause_isLocal first)
            (hreport.toStays.reached.running hrunning) hspan
        . exact hstop
      . next hkind =>
        rw [ne_eq, Decidable.not_not] at hkind
        apply recoveryError_meets hjunk
        intro hrunning
        obtain ⟨node, hnode⟩ :=
          Option.ne_none_iff_exists'.1 (mt List.head?_eq_none_iff.1 hjunk.ne_nil)
        have hreported := hjunk.reported hkind hrunning
        rw [← hjunk.start_eq node hnode] at hreported
        exact hreported.explained hnode
    . intro nodes s' hnodes
      exact ⟨hpeek.stays.reads.trans hnodes.1, fun _ _ => Nat.lt_of_lt_of_le hnodes.2 hle⟩

/-! ### Parts of a list -/

theorem strayCloser_reads (h : Sound env s) (hnext : Next env s tok) (hkind : tok.kind ≠ .eof) :
    Meets env s (strayCloser tok) fun node s' => Reads env s [node] s' ∧ s.pos < s'.pos := by
  unfold strayCloser
  apply (report_reports h hnext.stop_le_size rfl).bind
  intro _ s₁ hreport
  have hnext₁ := hreport.toStays.next hnext
  apply (keywordLeaf_meets hreport.sound hnext₁ hkind).bind
  intro leaf s₂ hleaf
  have hreported := hreport.reportedAt rfl (hnext.running hkind) (hnext.start_lt_stop hkind)
  have hlt := hleaf.pos_lt hnext₁ hkind
  rw [hreport.toStays.pos_eq] at hlt
  rw [← hleaf.span_eq] at hreported
  apply (errorNode_made (hreport.toStays.reads.trans hleaf.toReads) s₂ (by simp) fun _ =>
    (hreported.mono hleaf.reports).explained rfl).mono
  rintro node _ ⟨hnode, rfl⟩
  exact ⟨hnode, hlt⟩

/-- What follows a statement, up to the end of the input when there is nothing else. -/
def ReadsTerminator (env : Env) (s : State) : Option (List Node) → State → Prop
  | none, s' => Stays env s s' ∧
      (s'.halted = true ∨ Skips env.source s'.comments.spans s'.pos env.source.size)
  | some nodes, s' => Takes env s nodes s' ∨ nodes = [] ∧ Stays env s s'

theorem ReadsTerminator.progresses {statement : Node} {nodes : List Node}
    (h : ReadsTerminator env s₁ (some nodes) s') (hstatement : Reads env s [statement] s₁)
    (hprogresses : Progresses env s s₁) :
    Reads env s (statement :: nodes) s' ∧ Progresses env s s' := by
  obtain htakes | ⟨rfl, hstays⟩ := h
  . have hreads := hstatement.trans htakes.toReads
    exact ⟨hreads, .of_less hreads (Nat.lt_of_lt_of_le htakes.less hstatement.remaining_le)⟩
  . exact ⟨hstatement.stays hstays, hprogresses.stays hstays⟩

theorem terminator?_meets (hinner : inner.Fits env level)
    (hwithin : Within env (level + 1) (room + 1) s) (hflags : s.flags = {})
    (hproceeds : s.halted = true ∨ s.depth < env.options.maxDepth) (ctx : ListContext) :
    Meets env s (terminator? inner ctx) (ReadsTerminator env s) := by
  unfold terminator?
  apply (peekPlain_meets hwithin.sound).bind
  intro tok s₁ hpeek
  have hwithin₁ := hwithin.stays hpeek.stays
  split
  . next hop =>
    apply (tokenLeaf_meets hwithin₁.sound hpeek.next fun _ => isWhole_of_isOneOf hop).bind
    intro leaf s₂ hleaf
    exact .inl ((hleaf.takes hpeek.next (ne_eof_of_isOneOf hop)).after hpeek.stays.reads)
  . split
    . apply (lineBreak?_meets hinner hwithin₁ true).bind
      intro result s₂ hresult
      cases result with
      | none => exact .inr ⟨rfl, hpeek.stays.trans hresult.1⟩
      | some nodes => exact .inl ((hresult.1.takes hresult.2).after hpeek.stays.reads)
    . next hnewline =>
      split
      . next heof => exact ⟨hpeek.stays, hpeek.next.skips_rest (isEof_iff.1 heof)⟩
      . next heof =>
        rw [meets_bind_source]
        split
        . exact .inr ⟨rfl, hpeek.stays⟩
        . have hrunning := hpeek.next.running (mt isEof_iff.2 heof)
          rw [hpeek.stays.halted_eq] at hrunning
          have hdepth : s₁.depth < env.options.maxDepth := by
            rw [hpeek.stays.depth_eq]
            simpa [hrunning] using hproceeds
          apply (recover_meets hinner hwithin₁ (hpeek.stays.flags_eq.trans hflags) hdepth ctx).bind
          rintro nodes s₂ ⟨hnodes, hless⟩
          rw [hpeek.stays.token_eq, hpeek.kind_eq] at hless
          have htakes : Takes env s₁ nodes s₂ :=
            ⟨hnodes, hless (mt isEof_iff.2 heof) hnewline⟩
          exact .inl (htakes.after hpeek.stays.reads)

/-- A step of a list, of which every one but the last leaves less to read. -/
abbrev ListSteps (env : Env) (ctx : ListContext) (s₁ s : State) (nodes : List Node)
    (result : ForInStep (List Node)) (s' : State) : Prop :=
  Steps (fun nodes s => Reads env s₁ nodes s) (ReadsList env ctx s₁)
    (fun _ s => s.remaining env) nodes s result s'

theorem ListSteps.of_le {ctx : ListContext} (hle : s₂.remaining env ≤ s.remaining env)
    (result : ForInStep (List Node)) (s' : State) (h : ListSteps env ctx s₁ s₂ nodes result s') :
    ListSteps env ctx s₁ s nodes result s' := by
  cases result with
  | done nodes' => exact h
  | yield nodes' => exact ⟨h.1, Nat.lt_of_lt_of_le h.2 hle⟩

theorem ListSteps.take (ctx : ListContext) (h : Reads env s₁ nodes s₂) {more : List Node}
    (hmore : Reads env s₂ more s') (hless : s'.remaining env < s₂.remaining env)
    (hle : s₂.remaining env ≤ s.remaining env) :
    ListSteps env ctx s₁ s nodes (.yield (nodes ++ more)) s' :=
  ⟨h.trans hmore, Nat.lt_of_lt_of_le hless hle⟩

theorem forceProgress_meets {taken : List Node} (h : Reads env s₁ taken s)
    (hreported : ReportedAt s.diagnostics (s.token env s.flags).span.start)
    (hle : s.remaining env ≤ s₂.remaining env) (ctx : ListContext) :
    Meets env s (forceProgress taken) (ListSteps env ctx s₁ s₂ nodes) := by
  unfold forceProgress
  apply (peek_meets h.sound).bind
  intro tok s₃ hpeek
  have hnodes := h.stays hpeek.stays
  split
  . next heof => exact ⟨hnodes, fun _ => hpeek.next.skips_rest (isEof_iff.1 heof)⟩
  . next heof =>
    rw [← hpeek.eq_token] at hreported
    have hreported₃ := hreported.mono hpeek.stays.reports
    apply (tokenLeaf_meets hnodes.sound hpeek.next fun hclean =>
      absurd hclean hreported₃.ne_nil).bind
    intro leaf s₄ hleaf
    rw [← hleaf.span_eq] at hreported₃
    apply (errorNode_made hleaf.toReads s₄ (by simp) fun _ =>
      (hreported₃.mono hleaf.reports).explained rfl).bind
    rintro node _ ⟨hnode, rfl⟩
    have hless := (hleaf.takes hpeek.next (mt isEof_iff.2 heof)).less
    have hle₃ := hpeek.stays.reads.remaining_le
    exact ⟨hnodes.trans hnode, Nat.lt_of_lt_of_le hless (Nat.le_trans hle₃ hle)⟩

theorem listItemStep_meets (hinner : inner.Fits env level) (hwithin : Within env (level + 1) 2 s)
    (hflags : s.flags = {}) (hrunning : s.halted = false)
    (heof : (s.token env {}).kind ≠ .eof) (hnewline : (s.token env {}).kind ≠ .newline)
    (ctx : ListContext) (h : Reads env s₁ nodes s) :
    Meets env s (listItemStep inner ctx nodes) (ListSteps env ctx s₁ s nodes) := by
  unfold listItemStep
  rw [meets_bind_position]
  apply (statement_meets hinner hwithin hflags .list).bind
  intro result s₂ hresult
  cases result with
  | none =>
    obtain ⟨hstays, hdepth⟩ := hresult
    have hdepth₂ : s₂.depth < env.options.maxDepth := by rwa [hstays.depth_eq]
    apply (recover_meets hinner (hwithin.stays hstays) (hstays.flags_eq.trans hflags) hdepth₂
      ctx).bind
    intro junk s₃ hjunk
    obtain ⟨hjunk, hless⟩ := hjunk
    rw [hstays.token_eq] at hless
    exact .take ctx (h.stays hstays) hjunk (hless heof hnewline) hstays.reads.remaining_le
  | some statement =>
    obtain ⟨hstatement, hproceeds, _, _, hprogresses⟩ := hresult
    have hproceeds₂ : s₂.halted = true ∨ s₂.depth < env.options.maxDepth := by
      rwa [hstatement.depth_eq]
    apply (terminator?_meets hinner (hwithin.reads hstatement) (hstatement.flags_eq.trans hflags)
      hproceeds₂ ctx).bind
    intro result s₃ hresult
    cases result with
    | none => exact ⟨(h.trans hstatement).stays hresult.1, fun _ => hresult.2⟩
    | some terminator =>
      obtain ⟨hmore, hprogresses⟩ := hresult.progresses hstatement hprogresses
      dsimp only
      rw [meets_bind_position, meets_bind_isHalted]
      split
      . next hstuck =>
        simp only [Bool.and_eq_true, decide_eq_true_eq, Bool.not_eq_eq_eq_not, Bool.not_true]
          at hstuck
        exact forceProgress_meets (h.trans hmore) (hprogresses.stuck hstuck.1 hstuck.2)
          hmore.remaining_le ctx
      . next hprogress =>
        refine ⟨h.trans hmore, ?_⟩
        -- a statement that has taken nothing has halted the parse
        cases hhalted : s₃.halted with
        | true => exact hmore.remaining_lt_of_halted hrunning hhalted
        | false =>
          simp only [hhalted, Bool.not_false, Bool.and_true, decide_eq_true_eq] at hprogress
          have hle := hmore.pos_le
          exact hmore.remaining_lt_of_pos (by omega)

theorem ne_eof_of_endsList {src : Source} {ctx : ListContext} (h : endsList src ctx tok) :
    tok.kind ≠ .eof := by
  intro hkind
  simp [endsList, hkind] at h

theorem listStep_meets (hinner : inner.Fits env level) (hwithin : Within env (level + 1) 2 s)
    (hflags : s.flags = {}) (ctx : ListContext) (h : Reads env s₁ nodes s) :
    Meets env s (listStep inner ctx nodes) (ListSteps env ctx s₁ s nodes) := by
  unfold listStep
  apply (tick_meets hwithin.sound).bind
  intro proceeds s₂ hticked
  cases proceeds with
  | false =>
    have hhalts : Halts env s s₂ := hticked
    have hnodes := h.trans hhalts.toReads
    rw [List.append_nil] at hnodes
    exact ⟨hnodes, fun _ => .inl hhalts.is_halted⟩
  | true =>
    obtain ⟨hticked, hrunning⟩ : Stays env s s₂ ∧ s.halted = false := hticked
    rw [if_pos rfl]
    apply (peekStatement_meets hticked.sound).bind
    intro tok s₃ hpeek
    have hstays := hticked.trans hpeek.stays
    have hnodes := h.stays hstays
    have hwithin₃ := hwithin.stays hstays
    have hflags₃ := hstays.flags_eq.trans hflags
    have hle := hstays.reads.remaining_le
    have hrunning₃ : s₃.halted = false := by rwa [hstays.halted_eq]
    have hflags₀ : statementFlags.newlineTrivia = Flags.newlineTrivia {} := rfl
    obtain ⟨heof, hnewline⟩ := hpeek.kind_iff hticked.sound hflags₀
    split
    . next hend => exact ⟨hnodes, fun _ => hpeek.next.skips_rest (isEof_iff.1 hend)⟩
    . next hend =>
      rw [isEof_iff] at hend
      split
      . next hline =>
        apply (lineBreak?_meets hinner hwithin₃ false).bind
        intro result s₄ hresult
        cases result with
        | none => exact absurd (hnewline.1 hline) hresult.2
        | some more =>
          exact .take ctx hnodes hresult.1 (hresult.1.remaining_lt_of_pos hresult.2) hle
      . next hline =>
        rw [meets_bind_source]
        split
        . next hcloser =>
          split
          . apply (strayCloser_reads hwithin₃.sound hpeek.next (ne_eof_of_endsList hcloser)).bind
            intro node s₄ hnode
            exact .take ctx hnodes hnode.1 (hnode.1.remaining_lt_of_pos hnode.2) hle
          . next htop => exact ⟨hnodes, fun h => absurd h htop⟩
        . apply Meets.mono _ (ListSteps.of_le hle)
          exact listItemStep_meets hinner hwithin₃ hflags₃ hrunning₃ (mt heof.2 hend)
            (mt hnewline.2 hline) ctx hnodes

theorem statements_meets (hinner : inner.Fits env level) (hwithin : Within env (level + 1) 2 s)
    (hflags : s.flags = {}) (ctx : ListContext) :
    Meets env s (statements inner ctx) (ReadsList env ctx s) := by
  unfold statements
  apply repeatStep_consumes fun nodes s' => Reads env s nodes s'
  . exact .refl hwithin.sound
  . intro nodes s' hnodes
    exact listStep_meets hinner (hwithin.reads hnodes) (hnodes.flags_eq.trans hflags) ctx hnodes

/-! ### The nodes of a list -/

theorem statementStep_returns (tier : Tier) {left : Node} (hleft : left.kind.isSeparator = false) :
    Returns (statementStep inner tier left) fun result =>
      result.value.kind.isSeparator = false := by
  unfold statementStep
  apply returns_bind
  intro tok
  split
  . exact returns_pure hleft
  . split
    . exact returns_pure hleft
    . split
      . apply returns_bind
        intro targets
        refine kind_returns.bind fun node hnode => returns_pure ?_
        rw [ForInStep.value, hnode]
        rfl
      . unfold joined
        simp only [bind_assoc]
        iterate 3 apply returns_bind; intro
        refine kind_returns.bind fun node hnode => returns_pure ?_
        rw [ForInStep.value, hnode]
        split <;> rfl

theorem statement_returns (tier : Tier) :
    Returns (statement inner tier) fun result =>
      ∀ node ∈ result, node.kind.isSeparator = false := by
  unfold statement
  refine primaryStatement_returns.bind fun result hresult => ?_
  cases result with
  | none => exact returns_pure (by simp)
  | some left =>
    have hloop : Returns (repeatStep (statementStep inner tier) left)
        fun node => node.kind.isSeparator = false :=
      repeatStep_returns (hresult left rfl).isSeparator_eq fun left => statementStep_returns tier
    exact hloop.bind fun node hnode => returns_pure (by simpa using hnode)

theorem errorAround_returns (junk : List Node) :
    Returns (errorAround junk) fun nodes => ∀ node ∈ nodes, node.kind = .error := by
  unfold errorAround
  split
  . exact returns_pure (by simp)
  . refine kind_returns.bind fun node hnode => returns_pure (by simpa using hnode)

theorem recover_returns :
    Returns (recover inner ctx) fun nodes => ∀ node ∈ nodes, node.kind = .error := by
  unfold recover
  apply returns_bind
  intro first
  split
  . exact returns_pure (by simp)
  . apply returns_bind
    intro junk
    have hrest : Returns
        (if junk.length = 1 && junk.all (fun only => only.isError && only.isLeaf) then return junk
          else errorAround junk) fun nodes => ∀ node ∈ nodes, node.kind = .error := by
      split
      . next hall =>
        apply returns_pure
        intro node hnode
        simp only [Bool.and_eq_true, List.all_eq_true, Node.isError, beq_iff_eq] at hall
        exact (hall.2 node hnode).1
      . exact errorAround_returns junk
    dsimp only
    split
    . iterate 2 apply returns_bind; intro
      exact hrest
    . exact hrest

theorem strayCloser_returns (tok : Token) : Returns (strayCloser tok) (·.kind = .error) := by
  unfold strayCloser
  iterate 2 apply returns_bind; intro
  exact kind_returns

theorem noCloser_of_error (h : ∀ node ∈ nodes, node.kind = .error) : NoCloser nodes := by
  intro node hnode
  simp [h node hnode]

theorem noCloser_of_not_isSeparator {node : Node} (h : node.kind.isSeparator = false) :
    NoCloser [node] := by
  rintro _ hnode
  rw [List.mem_singleton] at hnode
  subst hnode
  refine ⟨fun hkind => ?_, fun hkind => ?_⟩
  all_goals
    rw [hkind] at h
    cases h

theorem AreBodies.noCloser (h : AreBodies nodes) : NoCloser nodes := by
  intro node hnode
  obtain hbody | hend := h node hnode
  . simp [hbody]
  . simp [hend]

theorem terminatorLeaf_noCloser {leaf : Node} (hop : tok.isOneOf Operator.terminators)
    (hleaf : leaf.kind = kindOf tok.kind) : NoCloser [leaf] := by
  have hne : ∀ op ∈ Operator.terminators, op ≠ ")" ∧ op ≠ "`" := by decide
  unfold Token.isOneOf at hop
  split at hop
  . next op hkind =>
    obtain ⟨hparenthesis, hbacktick⟩ := hne op (by simpa using hop)
    simp [NoCloser, hleaf, hkind, kindOf, hparenthesis, hbacktick]
  . cases hop

theorem terminator?_returns (ctx : ListContext) :
    Returns (terminator? inner ctx) fun result => ∀ nodes ∈ result, NoCloser nodes := by
  unfold terminator?
  apply returns_bind
  intro tok
  split
  . next hop =>
    refine tokenLeaf_returns.bind fun leaf hleaf => returns_pure ?_
    rintro _ ⟨⟩
    exact terminatorLeaf_noCloser hop hleaf
  . split
    . refine lineBreak?_returns_leaf.bind fun result hresult => returns_pure ?_
      rintro _ ⟨⟩
      cases result with
      | none => simp [NoCloser]
      | some nodes =>
        obtain ⟨leaf, bodies, rfl, hleaf, hbodies⟩ := hresult nodes rfl
        have hcloser : NoCloser [leaf] := by simp [NoCloser, hleaf]
        exact hcloser.append hbodies.noCloser
    . split
      . exact returns_pure (by simp)
      . apply returns_bind
        intro src
        split
        . exact returns_pure (by simp [NoCloser])
        . refine recover_returns.bind fun nodes hnodes => returns_pure ?_
          rintro _ ⟨⟩
          exact noCloser_of_error hnodes

theorem forceProgress_returns_noCloser (h : NoCloser nodes) :
    Returns (forceProgress nodes) fun result => NoCloser result.value := by
  unfold forceProgress
  apply returns_bind
  intro tok
  split
  . exact returns_pure h
  . apply returns_bind
    intro leaf
    refine kind_returns.bind fun node hnode => returns_pure ?_
    exact h.append (noCloser_of_error (by simpa using hnode))

theorem listItemStep_returns (ctx : ListContext) (h : NoCloser nodes) :
    Returns (listItemStep inner ctx nodes) fun result => NoCloser result.value := by
  unfold listItemStep
  apply returns_bind
  intro start
  refine (statement_returns .list).bind fun result hresult => ?_
  cases result with
  | none =>
    refine recover_returns.bind fun junk hjunk => returns_pure ?_
    exact h.append (noCloser_of_error hjunk)
  | some statement =>
    have hstatement := h.append (noCloser_of_not_isSeparator (hresult statement rfl))
    refine (terminator?_returns ctx).bind fun result hresult => ?_
    cases result with
    | none => exact returns_pure hstatement
    | some terminator =>
      have hnodes : NoCloser (nodes ++ statement :: terminator) := by
        simpa using hstatement.append (hresult terminator rfl)
      dsimp only
      iterate 2 apply returns_bind; intro
      split
      . exact forceProgress_returns_noCloser hnodes
      . exact returns_pure hnodes

theorem listStep_returns (ctx : ListContext) (h : NoCloser nodes) :
    Returns (listStep inner ctx nodes) fun result => NoCloser result.value := by
  unfold listStep
  apply returns_bind
  intro proceeds
  split
  . apply returns_bind
    intro tok
    split
    . exact returns_pure h
    . split
      . refine lineBreak?_returns.bind fun result hresult => returns_pure ?_
        cases result with
        | none => simpa [ForInStep.value] using h
        | some bodies => exact h.append (hresult bodies rfl).noCloser
      . apply returns_bind
        intro src
        split
        . split
          . refine (strayCloser_returns tok).bind fun node hnode => returns_pure ?_
            exact h.append (noCloser_of_error (by simpa using hnode))
          . exact returns_pure h
        . exact listItemStep_returns ctx h
  . exact returns_pure h

/-- A list leaves the closer of what is around it alone. -/
theorem statements_returns (ctx : ListContext) : Returns (statements inner ctx) NoCloser := by
  unfold statements
  exact repeatStep_returns (by simp [NoCloser]) fun nodes => listStep_returns ctx

end Grammar
end ShellTree
