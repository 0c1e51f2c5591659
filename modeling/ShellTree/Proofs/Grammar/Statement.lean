import ShellTree.Proofs.Grammar.Command
import ShellTree.Proofs.Grammar.Function
import ShellTree.Proofs.Grammar.Primary

/-!
This module contains the correctness of statements. A joined statement takes the place of its left
operand, and the operator that it takes leaves less to read.
-/

namespace ShellTree
namespace Grammar

open Parse Source

variable {env : Env} {level room : Nat} {inner : Nested} {s s₁ s' : State} {nodes : List Node}
variable {tok : Token}

/-! ### Statements without operators -/

/-- The right operand of an operator, which may be missing. -/
structure ReadsOperand (env : Env) (tier : Tier) (s : State) (nodes : List Node) (s' : State) : Prop
    extends Reads env s nodes s' where
  allows : ∀ node ∈ nodes, tier.Allows node
  ends : nodes ≠ [] → tier.EndsAt env s'

theorem statementAfter_reads (hinner : inner.Fits env level) (hwithin : Within env level 2 s)
    (hflags : s.flags = {}) (op : String) (tier : Tier) :
    Meets env s (statementAfter inner op tier) (ReadsOperand env tier s) := by
  unfold statementAfter
  apply (hinner.statement hwithin hflags).bind
  intro result s₁ hresult
  cases result with
  | some statement =>
    obtain ⟨hreads, _, hallows, hends, _⟩ := hresult
    exact ⟨hreads, by simpa using hallows, fun _ => hends⟩
  | none =>
    apply (peekStatement_meets hresult.1.sound).bind
    intro tok s₂ hpeek
    apply (report_meets hpeek.stays.sound hpeek.next.stop_le_size rfl).bind
    intro _ s₃ hreport
    exact ⟨((hresult.1.trans hpeek.stays).trans hreport).reads, by simp, by simp⟩

theorem negation_reads (hinner : inner.Fits env level) (h : Opens env level statementFlags s)
    (hflags : s.flags = {}) :
    Meets env s (negation inner) (ReadsPast env s (s.token env statementFlags)) := by
  unfold negation
  apply (peekStatement_meets h.sound).bind
  intro tok s₁ hpeek
  apply (keywordLeaf_meets hpeek.stays.sound hpeek.next (hpeek.ne_eof h)).bind
  intro keyword s₂ hkeyword
  have hread := hpeek.stays.reads.trans hkeyword.toReads
  apply (statementAfter_reads hinner (h.taken hpeek hkeyword) (hread.flags_eq.trans hflags)
    _ _).bind
  intro content s₃ hcontent
  exact hpeek.node_readsPast hkeyword hcontent.toReads _
    (.mk rfl hcontent.allows fun _ _ => trivial)

theorem some_progressing {p : Parse Node}
    (h : Meets env s p fun node s' => Reads env s [node] s' ∧ Progresses env s s') :
    Meets env s (do return some (← p)) (ReadsProgressing env s) := by
  apply h.bind
  intro node s' hnode
  exact hnode

theorem some_past {p : Parse Node} (hs : Sound env s)
    (hkind : (s.token env statementFlags).kind ≠ .eof)
    (h : Meets env s p (ReadsPast env s (s.token env statementFlags))) :
    Meets env s (do return some (← p)) (ReadsProgressing env s) :=
  some_progressing (h.mono fun _ _ hnode => hnode.progresses (hs.pos_lt_token hkind))

theorem wordStatement_meets (hinner : inner.Fits env level)
    (hwithin : Within env (level + 1) (room + 1) s) (h : Opens env level statementFlags s)
    (hflags : s.flags = {}) (hkind : (s.token env statementFlags).kind ≠ .eof) {text : String}
    (htext : (s.token env statementFlags).text = text) :
    Meets env s (wordStatement inner text) (ReadsProgressing env s) := by
  unfold wordStatement
  split
  . next compound hcompound =>
    exact some_past h.sound hkind (compoundOf?_reads hinner h hflags htext hcompound)
  . split
    . exact some_past h.sound hkind (keywordFunction_reads hinner h hflags)
    . split
      . exact some_past h.sound hkind (negation_reads hinner h hflags)
      . split
        . exact Stays.refl h.sound
        . split
          . exact some_progressing (declaration_reads hinner hwithin hkind)
          . split
            . exact some_progressing (unset_reads hinner hwithin hkind)
            . apply (plainFunction?_reads hinner h hflags hkind).bind
              intro result s₁ hresult
              cases result with
              | some definition => exact hresult
              | none =>
                have hstays : Stays env s s₁ := hresult
                have hkind₁ : (s₁.token env s₁.flags).kind ≠ .eof := by
                  rw [hstays.token_eq, hstays.flags_eq, hflags]
                  exact token_ne_eof h.sound hkind
                apply (command_reads hinner (hwithin.stays hstays) hkind₁).bind
                intro node s₂ hnode
                exact ⟨hstays.reads.trans hnode.1, hnode.2.after hstays⟩

theorem primaryBody_meets (hinner : inner.Fits env level)
    (hwithin : Within env (level + 1) (room + 1) s) (hflags : s.flags = {}) :
    Meets env s (primaryBody inner) (ReadsProgressing env s) := by
  unfold primaryBody
  apply (peekStatement_meets hwithin.sound).bind
  intro tok s₁ hpeek
  have hwithin₁ := hwithin.stays hpeek.stays
  have hflags₁ := hpeek.stays.flags_eq.trans hflags
  have htok : s₁.token env statementFlags = tok := by rw [hpeek.stays.token_eq, hpeek.eq_token]
  have hcommand : tok.kind ≠ .eof →
      Meets env s₁ (do return some (← command inner)) (ReadsProgressing env s₁) := by
    intro hkind
    apply some_progressing (command_reads hinner hwithin₁ _)
    rw [hflags₁]
    rw [← htok] at hkind
    exact token_ne_eof hwithin₁.sound hkind
  apply Meets.mono _ fun _ _ hresult => ReadsProgressing.after hresult hpeek.stays
  split
  . next hkind =>
    have hne : tok.kind ≠ .eof := by simp [hkind]
    rw [meets_bind_source]
    split
    . exact wordStatement_meets hinner hwithin₁ (hpeek.opens hwithin hne) hflags₁ (htok ▸ hne)
        (by rw [htok])
    . exact hcommand hne
  . next hkind => exact hcommand (by simp [hkind])
  . next hkind =>
    have hne : tok.kind ≠ .eof := by simp [hkind]
    exact some_past hwithin₁.sound (htok ▸ hne)
      (subshell_reads hinner (hpeek.opens hwithin hne) hflags₁ (htok ▸ hkind))
  . next hkind =>
    have hne : tok.kind ≠ .eof := by simp [hkind]
    exact some_past hwithin₁.sound (htok ▸ hne)
      (arithmeticCommand_reads hinner (hpeek.opens hwithin hne) (htok ▸ hkind))
  . split
    . next hstart =>
      rw [Bool.or_eq_true] at hstart
      exact hcommand (hstart.elim Token.ne_eof_of_isRedirectStart ne_eof_of_isLiteralStart)
    . exact Stays.refl hwithin₁.sound

/-- A statement without operators. The parse goes on after it only if the limit on the nesting was
not hit. -/
def ReadsPrimary (env : Env) (s : State) : Option Node → State → Prop
  | none, s' => Stays env s s' ∧ s.depth < env.options.maxDepth
  | some node, s' => Reads env s [node] s' ∧
      (s'.halted = true ∨ s.depth < env.options.maxDepth) ∧ Progresses env s s'

theorem primaryStatement_meets (hinner : inner.Fits env level)
    (hwithin : Within env (level + 1) 2 s) (hflags : s.flags = {}) :
    Meets env s (primaryStatement inner) fun result s' =>
      ReadsPrimary env s result s' ∧ ∀ node ∈ result, node.IsPrimary := by
  apply Meets.and_returns _ (primaryStatement_returns.mono fun result hresult node hnode =>
    (hresult node hnode).isPrimary)
  unfold primaryStatement
  apply nest_meets hwithin
  . intro node s' hnode hhalted _
    exact ⟨hnode, .inl hhalted, .inr (.inl hhalted)⟩
  . intro _ hdepth
    apply (primaryBody_meets hinner hwithin.with_depth hflags).mono
    intro result s' hresult
    cases result with
    | none => exact ⟨Stays.leave hresult, hdepth⟩
    | some node => exact ⟨hresult.1.leave, .inr hdepth, hresult.2.leave⟩

/-! ### Operators -/

/-- The statement can be the left operand of an operator. A pipeline gives its own operands. -/
def IsOperand (node : Node) : Prop := node.kind = .pipeline → node.children ≠ []

theorem leftOperands_reads {left : Node} (h : Reads env s₁ [left] s) (hoperand : IsOperand left)
    (op : StatementOperator) : Reads env s₁ (leftOperands op left) s := by
  unfold leftOperands
  split
  . next hpipeline =>
    simp only [Bool.and_eq_true, decide_eq_true_eq] at hpipeline
    obtain ⟨hbefore, hfits, hafter⟩ := tiles_cons.1 h.tiles
    have hchildren := (Node.fits_of_ne_nil (hoperand hpipeline.2)).1 hfits
    have harithmetic : ¬left.HoldsArithmetic := by simp [Node.HoldsArithmetic, hpipeline.2]
    refine ⟨⟨h.toReached, h.bound.children, h.genuine.children, fun hrunning => ?_,
      fun hcloses => (h.flat hcloses).children harithmetic⟩,
      (hchildren.1.skip_left hbefore).skip_right (tiles_nil.1 hafter)⟩
    obtain ⟨hsettled, hledger⟩ := h.accounts hrunning
    exact ⟨hsettled.children, hledger.children (.inr (by rw [hpipeline.2]; rfl))⟩
  . exact h

theorem leftOperands_binds {left : Node} (hbound : left.IsBound) (hoperand : IsOperand left)
    (hcut : left.kind = .list → left.IsCutOff)
    (hnodes : ∀ node ∈ nodes, Tier.command.Allows node) :
    NodeKind.pipeline.Binds (leftOperands .pipe left ++ nodes) := by
  unfold leftOperands
  simp only [decide_true, Bool.true_and]
  split
  . next hpipeline =>
    rw [decide_eq_true_eq] at hpipeline
    unfold Node.IsBound at hbound
    rw [hpipeline] at hbound
    cases hchildren : left.children with
    | nil => exact absurd hchildren (hoperand hpipeline)
    | cons first rest =>
      rw [hchildren] at hbound
      refine ⟨hbound.1, ?_⟩
      intro child hchild
      exact (List.mem_append.1 hchild).elim (hbound.2 child) (hnodes child)
  . next hpipeline =>
    rw [decide_eq_true_eq] at hpipeline
    refine ⟨?_, hnodes⟩
    rintro first ⟨⟩
    exact ⟨hpipeline, hcut⟩

theorem isSeparator_of_isOneOf {operators : List String} (h : tok.isOneOf operators) :
    (kindOf tok.kind).isSeparator := by
  unfold Token.isOneOf at h
  split at h
  . next text hkind => simp [hkind, kindOf, NodeKind.isSeparator]
  . simp at h

theorem ofToken?_eq_some {op : StatementOperator} (h : StatementOperator.ofToken? tok = some op) :
    tok.kind ≠ .eof ∧ (op = .redirect → tok.isRedirectStart) ∧
      (op ≠ .redirect → (kindOf tok.kind).isSeparator ∧ tok.IsWhole) := by
  unfold StatementOperator.ofToken? at h
  split at h
  . next hop =>
    cases h
    exact ⟨ne_eof_of_isOneOf hop, nofun, fun _ =>
      ⟨isSeparator_of_isOneOf hop, isWhole_of_isOneOf hop⟩⟩
  . split at h
    . next hop =>
      cases h
      exact ⟨ne_eof_of_isOneOf hop, nofun, fun _ =>
      ⟨isSeparator_of_isOneOf hop, isWhole_of_isOneOf hop⟩⟩
    . split at h
      . next hop =>
        cases h
        exact ⟨Token.ne_eof_of_isRedirectStart hop, fun _ => hop, fun hne => absurd rfl hne⟩
      . cases h

/-- A statement while operators are read after it. A list is cut off, or no pipe comes next. -/
structure ReadsLeft (env : Env) (tier : Tier) (s : State) (left : Node) (s' : State) : Prop
    extends Reads env s [left] s' where
  operand : IsOperand left
  proceeds : s'.halted = true ∨ s.depth < env.options.maxDepth
  progresses : Progresses env s s'
  allows : tier.Allows left
  cut : left.kind = .list → left.IsCutOff ∨ Tier.pipeline.EndsAt env s'

theorem ReadsLeft.stays_left {tier : Tier} {left : Node} (h : ReadsLeft env tier s₁ left s)
    (hstays : Stays env s s') : ReadsLeft env tier s₁ left s' where
  toReads := h.toReads.stays hstays
  operand := h.operand
  proceeds := by
    rw [hstays.halted_eq]
    exact h.proceeds
  progresses := h.progresses.stays hstays
  allows := h.allows
  cut := by
    intro hlist
    unfold Tier.EndsAt
    rw [hstays.token_eq]
    exact h.cut hlist

theorem ReadsLeft.isCutOff_of_pipe {tier : Tier} {left : Node} (h : ReadsLeft env tier s₁ left s)
    (hpipe : StatementOperator.ofToken? (s.token env {}) = some .pipe) (hlist : left.kind = .list) :
    left.IsCutOff := by
  apply (h.cut hlist).resolve_right
  intro hends
  simpa [Tier.admits] using hends .pipe hpipe

/-- Only pipelines are left operands again where pipes alone are admitted. -/
theorem Tier.allows_of_admits {tier : Tier} {op : StatementOperator} (h : tier.admits op)
    {node : Node} (hpipe : op = .pipe → node.kind = .pipeline) : tier.Allows node := by
  cases tier with
  | list => trivial
  | pipeline =>
    cases op with
    | pipe => simp [Tier.Allows, hpipe rfl]
    | list => simp [Tier.admits] at h
    | redirect => simp [Tier.admits] at h
  | command => simp [Tier.admits] at h

/-- The node that an operator gives is the next left operand. -/
theorem leftNode_meets (hreads : Reads env s₁ nodes s)
    (hless : s.remaining env < s₁.remaining env) (hdepth : s₁.depth < env.options.maxDepth)
    (kind : NodeKind) (hcomposes : Composes env kind nodes s) {tier : Tier}
    {op : StatementOperator} (htier : tier.admits op) (hpipe : op = .pipe → kind = .pipeline)
    (hoperand : kind = .pipeline → nodes ≠ [])
    (hcut : kind = .list → (∀ node ∈ nodes.tail, node.kind.isSeparator) ∨
      Tier.pipeline.EndsAt env s) :
    Meets env s (node kind nodes) fun node s' => ReadsLeft env tier s₁ node s' ∧ s' = s := by
  apply ((node_made hreads kind hcomposes).and_returns kind_returns).mono
  intro node s' hmade
  obtain ⟨hmade, rfl⟩ := hmade
  obtain rfl := hmade.eq
  refine ⟨⟨hmade.toReads, ?_, .inr hdepth, .of_less hreads hless, ?_, ?_⟩, rfl⟩
  . intro hpipeline
    rw [hmade.children_eq]
    exact hoperand hpipeline
  . exact Tier.allows_of_admits htier hpipe
  . intro hlist
    unfold Node.IsCutOff
    rw [hmade.children_eq]
    exact hcut hlist

/-- What an operator takes after its left operand: the separators, then the right operand. -/
structure ReadsRight (env : Env) (tier : Tier) (s : State) (between right : List Node)
    (s' : State) : Prop extends Reads env s (between ++ right) s' where
  less : s'.remaining env < s.remaining env
  between_ne_nil : between ≠ []
  separates : ∀ node ∈ between, node.kind.isSeparator
  allows : ∀ node ∈ right, tier.Allows node
  ends : right ≠ [] → tier.EndsAt env s'

theorem ReadsRight.allows_all {tier : Tier} {between right : List Node}
    (h : ReadsRight env tier s between right s') : ∀ node ∈ between ++ right, tier.Allows node := by
  intro node hnode
  cases List.mem_append.1 hnode with
  | inl hmem =>
    exact Node.IsPrimary.allows (NodeKind.isJoined_of_isSeparator (h.separates node hmem)) _
  | inr hmem => exact h.allows node hmem

theorem joinedNode_meets {tier : Tier} {left : Node} (h : ReadsLeft env tier s₁ left s)
    {op : StatementOperator} (hredirect : op ≠ .redirect) (htier : tier.admits op)
    (hpipe : op = .pipe → left.kind = .list → left.IsCutOff)
    (hdepth : s₁.depth < env.options.maxDepth) {between right : List Node}
    (hright : ReadsRight env (if op = .pipe then .command else .pipeline) s between right s') :
    Meets env s' (node (if op = .pipe then .pipeline else .list)
      (leftOperands op left ++ (between ++ right))) fun node final =>
        ReadsLeft env tier s₁ node final ∧ final = s' := by
  have hall := (leftOperands_reads h.toReads h.operand op).trans hright.toReads
  have hless := Nat.lt_of_lt_of_le hright.less h.toReads.remaining_le
  cases op with
  | redirect => contradiction
  | pipe =>
    have hbinds := leftOperands_binds h.bound.self h.operand (hpipe rfl) hright.allows_all
    apply leftNode_meets hall hless hdepth .pipeline
      (.mk rfl hbinds (fun _ _ => trivial) rfl (by simp [hright.between_ne_nil])) htier
    . exact fun _ => rfl
    . simp [hright.between_ne_nil]
    . simp
  | list =>
    apply leftNode_meets hall hless hdepth .list
      (.mk rfl hright.allows_all (fun _ _ => trivial) rfl (by simp [hright.between_ne_nil])) htier
    . simp
    . simp
    . intro _
      by_cases hmissing : right = []
      . subst hmissing
        left
        simpa [leftOperands] using hright.separates
      . exact .inr (hright.ends hmissing)

theorem joined_meets (hinner : inner.Fits env level) (hwithin : Within env (level + 1) room s)
    (hflags : s.flags = {}) {tier : Tier} {left : Node} (h : ReadsLeft env tier s₁ left s)
    (hnext : Next env s tok) {op : StatementOperator}
    (hop : StatementOperator.ofToken? tok = some op) (hredirect : op ≠ .redirect)
    (htier : tier.admits op)
    (hpipe : op = .pipe → left.kind = .list → left.IsCutOff)
    (hdepth : s₁.depth < env.options.maxDepth) :
    Meets env s (joined inner op tok left) fun node s' =>
      ReadsLeft env tier s₁ node s' ∧ s'.remaining env < s.remaining env := by
  obtain ⟨hkind, _, hseparator⟩ := ofToken?_eq_some hop
  obtain ⟨hseparator, hwhole⟩ := hseparator hredirect
  unfold joined
  apply ((tokenLeaf_meets hwithin.sound hnext fun _ => hwhole).and_returns tokenLeaf_returns).bind
  intro leaf s₂ hleaf
  obtain ⟨hleaf, hleafkind⟩ := hleaf
  have hwithin₂ := hwithin.taken hnext hkind hleaf
  apply ((lineBreaks_reads hinner hwithin₂.succ).and_returns lineBreaks_returns).bind
  intro breaks s₃ hbreaks
  obtain ⟨hbreaks, hbreakskind⟩ := hbreaks
  have hread := hleaf.toReads.trans hbreaks
  apply (statementAfter_reads hinner (hwithin₂.reads hbreaks) (hread.flags_eq.trans hflags)
    _ _).bind
  intro right s₄ hoperand
  have hless := hleaf.remaining_lt_of_pos (hleaf.pos_lt hnext hkind)
  have hle := (hbreaks.trans hoperand.toReads).remaining_le
  have hright : ReadsRight env (if op = .pipe then .command else .pipeline) s (leaf :: breaks) right
      s₄ := by
    refine ⟨hread.trans hoperand.toReads, Nat.lt_of_le_of_lt hle hless, by simp, ?_,
      hoperand.allows, hoperand.ends⟩
    simp only [List.mem_cons, forall_eq_or_imp]
    exact ⟨by rw [hleafkind]; exact hseparator, hbreakskind⟩
  dsimp only
  rw [List.append_assoc]
  apply (joinedNode_meets h hredirect htier hpipe hdepth hright).mono
  intro node s₅ hnode
  obtain ⟨hnode, rfl⟩ := hnode
  exact ⟨hnode, hright.less⟩

theorem redirected_meets (hinner : inner.Fits env level)
    (hwithin : Within env (level + 1) room s) {tier : Tier} {left : Node}
    (h : ReadsLeft env tier s₁ left s) (hstart : (s.token env s.flags).isRedirectStart)
    (htier : tier.admits .redirect) (hdepth : s₁.depth < env.options.maxDepth) :
    Meets env s (do node .redirectedStatement (left :: (← redirects inner))) fun node s' =>
      ReadsLeft env tier s₁ node s' ∧ s'.remaining env < s.remaining env := by
  apply (redirects_meets hinner hwithin).bind
  intro targets s₂ htargets
  obtain ⟨htargets, hlt⟩ := htargets
  have hless := htargets.remaining_lt_of_pos (hlt hstart)
  apply (leftNode_meets (h.toReads.trans htargets)
    (Nat.lt_of_lt_of_le hless h.toReads.remaining_le) hdepth _ (.of_isLoose rfl (by simp)) htier
    (by simp) (by simp) (by simp)).mono
  intro node s₃ hnode
  obtain ⟨hnode, rfl⟩ := hnode
  exact ⟨hnode, hless⟩

theorem statementStep_meets (hinner : inner.Fits env level)
    (hwithin : Within env (level + 1) (room + 1) s₁) (hflags : s₁.flags = {}) (tier : Tier)
    (left : Node) (s : State) (h : ReadsLeft env tier s₁ left s) :
    Meets env s (statementStep inner tier left)
      (Steps (ReadsLeft env tier s₁)
        (fun left s' => ReadsLeft env tier s₁ left s' ∧ tier.EndsAt env s')
        (fun _ s => s.remaining env) left s) := by
  unfold statementStep
  apply (peekPlain_meets h.sound).bind
  intro tok s₂ hpeek
  have htok : s₂.token env {} = tok := by rw [hpeek.stays.token_eq, hpeek.eq_token]
  have hleft := h.stays_left hpeek.stays
  have hwithin₂ := hwithin.reads hleft.toReads
  have hflags₂ := hleft.flags_eq.trans hflags
  have hle := hpeek.stays.reads.remaining_le
  cases hop : StatementOperator.ofToken? tok with
  | none => exact ⟨hleft, by simp [Tier.EndsAt, htok, hop]⟩
  | some op =>
    obtain ⟨hkind, hredirect, _⟩ := ofToken?_eq_some hop
    -- there is an operator, so that the parse has not halted at the statement
    have hdepth : s₁.depth < env.options.maxDepth := by
      have hrunning := hpeek.next.running hkind
      simpa [hrunning] using hleft.proceeds
    dsimp only
    split
    . next hadmits => exact ⟨hleft, by simpa [Tier.EndsAt, htok, hop] using hadmits⟩
    . next hadmits =>
      have hadmits : tier.admits op := by simpa using hadmits
      split
      . next heq =>
        subst heq
        have hstart : (s₂.token env s₂.flags).isRedirectStart := by
          rw [hflags₂, htok]
          exact hredirect rfl
        rw [← bind_assoc]
        apply (redirected_meets hinner hwithin₂ hleft hstart hadmits hdepth).bind
        intro node s₃ hnode
        exact ⟨hnode.1, Nat.lt_of_lt_of_le hnode.2 hle⟩
      . next hne =>
        have hcut : op = .pipe → left.kind = .list → left.IsCutOff := by
          rintro rfl
          exact hleft.isCutOff_of_pipe (by rw [htok, hop])
        apply (joined_meets hinner hwithin₂ hflags₂ hleft hpeek.next hop hne hadmits hcut
          hdepth).bind
        intro node s₃ hnode
        exact ⟨hnode.1, Nat.lt_of_lt_of_le hnode.2 hle⟩

theorem statement_meets (hinner : inner.Fits env level) (hwithin : Within env (level + 1) 2 s)
    (hflags : s.flags = {}) (tier : Tier) :
    Meets env s (statement inner tier) (ReadsStatement env tier s) := by
  unfold statement
  apply (primaryStatement_meets hinner hwithin hflags).bind
  intro result s₁ hresult
  obtain ⟨hresult, hprimary⟩ := hresult
  cases result with
  | none => exact hresult
  | some left =>
    obtain ⟨hreads, hproceeds, hprogress⟩ := hresult
    have hprimary : left.kind.isJoined = false := hprimary left rfl
    have hleft : ReadsLeft env tier s left s₁ := by
      refine ⟨hreads, ?_, hproceeds, hprogress, Node.IsPrimary.allows hprimary tier, ?_⟩
      all_goals
        intro hkind
        simp [hkind, NodeKind.isJoined] at hprimary
    apply (repeatStep_consumes (ReadsLeft env tier s) hleft
      (statementStep_meets hinner hwithin hflags tier)).bind
    intro node s₂ hnode
    obtain ⟨hnode, hends⟩ := hnode
    exact ⟨hnode.toReads, hnode.proceeds, hnode.allows, hends, hnode.progresses⟩

end Grammar
end ShellTree
