import ShellTree.Grammar.Statement
import ShellTree.Proofs.Parse.Context
import ShellTree.Proofs.Parse.Ensures

/-!
This module contains what the constructs promise to the constructs around them. The level bounds the
number of bytes that are left, and with it how often constructs can be nested. Each of them is read
where there is room for two levels of nesting, since a statement and a literal are one each.
-/

namespace ShellTree

open Parse

/-- A node for which at least the token is taken. -/
structure ReadsPast (env : Env) (s : State) (tok : Token) (node : Node) (s' : State) : Prop
    extends Reads env s [node] s' where
  stop_le : tok.span.stop ≤ s'.pos

/-- A node that a construct makes from its first token on. -/
structure ReadsFrom (env : Env) (s : State) (tok : Token) (node : Node) (s' : State) : Prop
    extends ReadsPast env s tok node s' where
  start_eq : node.span.start = tok.span.start

/-- Something is taken, or the parse has halted, or a report begins with the next token. -/
def Progresses (env : Env) (s s' : State) : Prop :=
  s.pos < s'.pos ∨ s'.halted = true ∨
    Stays env s s' ∧ ReportedAt s'.diagnostics (s.token env s.flags).span.start

/-- A statement that may be missing, in which case nothing is taken. -/
def ReadsProgressing (env : Env) (s : State) : Option Node → State → Prop
  | none, s' => Stays env s s'
  | some node, s' => Reads env s [node] s' ∧ Progresses env s s'

/-- A construct that may be missing, in which case nothing is taken. -/
def ReadsOption (env : Env) (s : State) : Option Node → State → Prop
  | none, s' => Stays env s s'
  | some node, s' => Reads env s [node] s'

/-- A literal is made of the tokens that come next. Unless the limit on the nesting is hit it starts
with the first of them. -/
structure TakesLiteral (env : Env) (s : State) (node : Node) (s' : State) : Prop
    extends Takes env s [node] s' where
  begins : (s.token env s.flags).isLiteralStart
  start_eq : s.depth < env.options.maxDepth →
    node.span.start = (s.token env s.flags).span.start
  proceeds : s'.halted = true ∨ s.depth < env.options.maxDepth

/-- A literal is there exactly where a token begins one. -/
def ReadsLiteral (env : Env) (s : State) : Option Node → State → Prop
  | none, s' => Stays env s s' ∧ (s.token env s.flags).isLiteralStart = false
  | some node, s' => TakesLiteral env s node s'

/-- A redirect is there exactly where a token begins one. -/
def ReadsRedirect (env : Env) (s : State) : Option Node → State → Prop
  | none, s' => Stays env s s' ∧ (s.token env s.flags).isRedirectStart = false
  | some node, s' => Reads env s [node] s' ∧ s.pos < s'.pos

/-- No operator that the tier admits comes next. -/
def Tier.EndsAt (tier : Tier) (env : Env) (s : State) : Prop :=
  ∀ op ∈ StatementOperator.ofToken? (s.token env {}), tier.admits op = false

/-- A statement with all operators that the tier admits. The parse goes on after it only if the
limit on the nesting was not hit. -/
def ReadsStatement (env : Env) (tier : Tier) (s : State) : Option Node → State → Prop
  | none, s' => Stays env s s' ∧ s.depth < env.options.maxDepth
  | some node, s' => Reads env s [node] s' ∧
      (s'.halted = true ∨ s.depth < env.options.maxDepth) ∧ tier.Allows node ∧
      tier.EndsAt env s' ∧ Progresses env s s'

/-- A list of statements. The outermost ends with the text. -/
structure ReadsList (env : Env) (ctx : ListContext) (s : State) (nodes : List Node) (s' : State) :
    Prop extends Reads env s nodes s' where
  ends : ctx.topLevel = true → s'.halted = true ∨
    Skips env.source s'.comments.spans s'.pos env.source.size

/-- A fragment that has been read up to where the parse goes on. It is more than the operator that
opens it, unless the limit on the nesting is hit. -/
structure EndsFragment (env : Env) (s : State) (node : Node) (s' : State) : Prop where
  ends : Ends env node s'
  composite : ∀ op, (s.token env s.flags).kind = .operator op → s'.halted = false →
    node.children ≠ []

/-- What stands in substitutions does not close them, and what stands in texts ends in them. -/
structure Nested.Encloses (inner : Nested) : Prop where
  statements : ∀ ctx, Returns (inner.statements ctx) NoCloser
  redirect : Returns inner.redirect fun result => NoCloser result.toList
  fragment : ∀ env s, Ensures env s inner.fragment fun result s' =>
    ∀ node ∈ result, EndsFragment env s node s'

/-- The constructs read what they are to read where fewer bytes are left than the level says. -/
structure Nested.Fits (env : Env) (level : Nat) (inner : Nested) : Prop where
  statements : ∀ {ctx s}, Within env level 2 s → s.flags = {} →
    Meets env s (inner.statements ctx) (ReadsList env ctx s)
  statement : ∀ {tier s}, Within env level 2 s → s.flags = {} →
    Meets env s (inner.statement tier) (ReadsStatement env tier s)
  redirect : ∀ {s}, Within env level 2 s → Meets env s inner.redirect (ReadsRedirect env s)
  literal : ∀ {s}, Within env level 2 s → Meets env s inner.literal (ReadsLiteral env s)
  fragment : ∀ {s}, Within env level 2 s → Meets env s inner.fragment (ReadsLiteral env s)
  arithmetic : ∀ {row s}, Within env level 2 s →
    Meets env s (inner.arithmetic row) (ReadsOption env s)
  arithmeticOperand : ∀ {s}, Within env level 2 s →
    Meets env s inner.arithmeticOperand (ReadsOption env s)
  test : ∀ {s}, Within env level 2 s → Meets env s inner.test (ReadsOption env s)
  testOperand : ∀ {s}, Within env level 2 s → Meets env s inner.testOperand (ReadsOption env s)
  encloses : inner.Encloses

theorem Nested.none_fits (env : Env) : Nested.none.Fits env 0 := by
  -- no state has fewer than no bytes left
  have hnot : ∀ {s}, ¬ Within env 0 2 s := by
    intro s h
    have := h.sound.pos_le_size
    have := h.size_lt
    omega
  constructor
  case encloses =>
    refine ⟨fun ctx => ?_, ?_, ?_⟩
    all_goals rintro env s a s' ⟨⟩
  all_goals
    intros
    next h => exact absurd ‹Within env 0 2 _› hnot

theorem Parse.GivesUp.stays {env : Env} {s s' : State} (h : GivesUp env s)
    (hstays : Stays env s s') : GivesUp env s' := by
  refine ⟨Waits.atEnd ⟨hstays.pos_eq, hstays.halted_eq⟩ h.1, ?_⟩
  exact h.2.imp hstays.reached.halted (mt hstays.reached.clean)

theorem Parse.Ends.stays {env : Env} {s s' : State} {node : Node} (h : Ends env node s)
    (hstays : Stays env s s') : Ends env node s' :=
  h.imp (·.trans hstays.pos_eq.symm) (Or.imp_right (·.stays hstays))

theorem ReadsLiteral.readsOption {env : Env} {s s' : State} {result : Option Node}
    (h : ReadsLiteral env s result s') : ReadsOption env s result s' := by
  cases result with
  | none => exact h.1
  | some node => exact h.toReads

theorem ReadsOption.reads {env : Env} {s s' : State} {result : Option Node}
    (h : ReadsOption env s result s') : Reads env s result.toList s' := by
  cases result with
  | none => exact Stays.reads h
  | some node => exact h

theorem ReadsOption.after {env : Env} {s s₁ s' : State} {result : Option Node}
    (h : ReadsOption env s₁ result s') (hstays : Stays env s s₁) :
    ReadsOption env s result s' := by
  cases result with
  | none => exact hstays.trans h
  | some node => exact hstays.reads.trans h

theorem ReadsRedirect.reads {env : Env} {s s' : State} {result : Option Node}
    (h : ReadsRedirect env s result s') : Reads env s result.toList s' := by
  cases result with
  | none => exact h.1.reads
  | some node => exact h.1

section

variable {env : Env} {level room : Nat} {s s₁ s₂ s' : State} {tok : Token} {leaf : Node}
variable {nodes : List Node}

/-- The tokens that have to be closed by their text begin literals. -/
theorem isWhole_of_not_isLiteralStart (h : tok.isLiteralStart = false) (hkind : tok.kind ≠ .eof) :
    tok.IsWhole := by
  unfold Token.IsWhole
  split
  . contradiction
  . next hraw => simp [Token.isLiteralStart, hraw] at h
  . next hansi => simp [Token.isLiteralStart, hansi] at h
  . trivial

theorem Parse.Peeks.isWhole (h : Peeks env s s.flags tok s₁)
    (hliteral : ReadsLiteral env s₁ none s₂) (heof : ¬ tok.isEof) : tok.IsWhole := by
  apply isWhole_of_not_isLiteralStart _ (mt isEof_iff.2 heof)
  rw [h.eq_token, ← h.stays.token_eq, ← h.stays.flags_eq]
  exact hliteral.2

theorem Progresses.of_less (h : Reads env s nodes s') (hless : s'.remaining env < s.remaining env) :
    Progresses env s s' := by
  obtain hlt | heq := Nat.lt_or_eq_of_le h.pos_le
  . exact .inl hlt
  . exact .inr (.inl (State.halted_of_remaining_lt heq.symm hless))

theorem Progresses.after (h : Progresses env s₁ s') (hstays : Stays env s s₁) :
    Progresses env s s' := by
  obtain hlt | hhalted | ⟨hstays', hreported⟩ := h
  . rw [hstays.pos_eq] at hlt
    exact .inl hlt
  . exact .inr (.inl hhalted)
  . rw [hstays.token_eq, hstays.flags_eq] at hreported
    exact .inr (.inr ⟨hstays.trans hstays', hreported⟩)

theorem Progresses.stays (h : Progresses env s s₁) (hstays : Stays env s₁ s') :
    Progresses env s s' := by
  obtain hlt | hhalted | ⟨hstays', hreported⟩ := h
  . rw [← hstays.pos_eq] at hlt
    exact .inl hlt
  . exact .inr (.inl (hstays.reached.halted hhalted))
  . exact .inr (.inr ⟨hstays'.trans hstays, hreported.mono hstays.reports⟩)

theorem ReadsPast.progresses {node : Node} (h : ReadsPast env s tok node s')
    (hlt : s.pos < tok.span.stop) : Reads env s [node] s' ∧ Progresses env s s' :=
  ⟨h.toReads, .inl (Nat.lt_of_lt_of_le hlt h.stop_le)⟩

theorem ReadsProgressing.after {result : Option Node} (h : ReadsProgressing env s₁ result s')
    (hstays : Stays env s s₁) : ReadsProgressing env s result s' := by
  cases result with
  | none => exact hstays.trans h
  | some node => exact ⟨hstays.reads.trans h.1, h.2.after hstays⟩

theorem node_progresses (h : Reads env s nodes s₁) (hprogress : Progresses env s s₁)
    {kind : NodeKind} (hkind : Composes env kind nodes s₁) :
    Meets env s₁ (node kind nodes) fun node s' => Reads env s [node] s' ∧ Progresses env s s' := by
  apply (node_made h kind hkind).mono
  intro node s' hmade
  exact ⟨hmade.toReads, by rw [hmade.eq]; exact hprogress⟩

/-- Where a parse is stuck a report begins with the next token. -/
theorem Progresses.stuck (h : Progresses env s s') (hpos : s'.pos = s.pos)
    (hrunning : s'.halted = false) :
    ReportedAt s'.diagnostics (s'.token env s'.flags).span.start := by
  obtain hlt | hhalted | ⟨hstays, hreported⟩ := h
  . omega
  . simp [hhalted] at hrunning
  . rwa [hstays.token_eq, hstays.flags_eq]

theorem Progresses.leave (h : Progresses env { s with depth := s.depth + 1 } s') :
    Progresses env s { s' with depth := s'.depth - 1 } := by
  obtain hlt | hhalted | ⟨hstays, hreported⟩ := h
  . exact .inl hlt
  . exact .inr (.inl hhalted)
  . exact .inr (.inr ⟨hstays.leave, hreported⟩)

theorem Parse.Taken.readsFrom (h : Taken env s tok.span leaf s') : ReadsFrom env s tok leaf s' :=
  ⟨⟨h.toReads, Nat.le_of_eq h.pos_eq.symm⟩, by rw [h.span_eq]⟩

theorem Parse.Made.readsFrom {made : Node} (hmade : Made env s (leaf :: nodes) s₂ made s')
    (h : Taken env s tok.span leaf s₁) (hle : s₁.pos ≤ s₂.pos) : ReadsFrom env s tok made s' := by
  refine ⟨⟨hmade.toReads, ?_⟩, ?_⟩
  . rwa [hmade.eq, ← h.pos_eq]
  . rw [hmade.start_eq leaf rfl, h.span_eq]

theorem Parse.Taken.node_readsFrom (h : Taken env s tok.span leaf s₁)
    (hnodes : Reads env s₁ nodes s₂) (kind : NodeKind)
    (hkind : Composes env kind (leaf :: nodes) s₂) :
    Meets env s₂ (node kind (leaf :: nodes)) (ReadsFrom env s tok) :=
  (node_made (h.toReads.trans hnodes) kind hkind).mono fun _ _ hmade =>
    hmade.readsFrom h hnodes.pos_le

theorem Parse.Taken.node_arithmetic (h : Taken env s tok.span leaf s₁) (hs : Sound env s)
    (hnodes : Reads env s₁.inArithmetic nodes s₂.inArithmetic) (kind : NodeKind)
    (hkind : Composes env kind (leaf :: nodes) s₂)
    (harithmetic : ∀ span, Node.HoldsArithmetic ⟨kind, span, leaf :: nodes⟩) :
    Meets env s₂ (node kind (leaf :: nodes)) (ReadsFrom env s tok) :=
  (Parse.node_arithmetic hs (h.toReads.inArithmetic.trans hnodes) (by simp) kind hkind
    harithmetic).mono fun _ _ hmade => hmade.readsFrom h hnodes.pos_le

theorem ReadsFrom.after {node : Node} (h : ReadsFrom env s₁ tok node s')
    (hstays : Stays env s s₁) : ReadsFrom env s tok node s' :=
  ⟨⟨hstays.reads.trans h.toReads, h.stop_le⟩, h.start_eq⟩

theorem Parse.Peeks.readsFrom {flags : Flags} {node : Node} (hpeek : Peeks env s flags tok s₁)
    (h : ReadsFrom env s₁ tok node s') : ReadsFrom env s (s.token env flags) node s' := by
  rw [← hpeek.eq_token]
  exact h.after hpeek.stays

theorem Parse.Peeks.node_readsFrom {flags : Flags} (hpeek : Peeks env s flags tok s₁)
    (hleaf : Taken env s₁ tok.span leaf s₂) (hnodes : Reads env s₂ nodes s') (kind : NodeKind)
    (hkind : Composes env kind (leaf :: nodes) s') :
    Meets env s' (node kind (leaf :: nodes)) (ReadsFrom env s (s.token env flags)) :=
  (hleaf.node_readsFrom hnodes kind hkind).mono fun _ _ => hpeek.readsFrom

theorem Parse.Peeks.node_readsPast {flags : Flags} (hpeek : Peeks env s flags tok s₁)
    (hleaf : Taken env s₁ tok.span leaf s₂) (hnodes : Reads env s₂ nodes s') (kind : NodeKind)
    (hkind : Composes env kind (leaf :: nodes) s') :
    Meets env s' (node kind (leaf :: nodes)) (ReadsPast env s (s.token env flags)) :=
  (hpeek.node_readsFrom hleaf hnodes kind hkind).mono fun _ _ hnode => hnode.toReadsPast

theorem tokenLeaf_opens (h : Sound env s) (hnext : Next env s tok) {op : String}
    (hop : tok.kind = .operator op) :
    Meets env s (tokenLeaf tok) fun leaf s' =>
      Taken env s tok.span leaf s' ∧ leaf.kind = .token op := by
  have hwhole : tok.IsWhole := by simp [Token.IsWhole, hop]
  apply ((tokenLeaf_meets h hnext fun _ => hwhole).and_returns tokenLeaf_returns).mono
  intro leaf s' hleaf
  exact ⟨hleaf.1, by rw [hleaf.2, hop]; rfl⟩

theorem fromOpener_meets (h : Opens env level s.flags s) {op text : String}
    (hop : (s.token env s.flags).kind = .operator op) (kind : NodeKind)
    (hkind : ∀ leaf parts s', leaf.kind = .token op →
      (s'.diagnostics = [] → EndsWith text parts) → Composes env kind (leaf :: parts) s')
    {body : Token → Parse (List Node)}
    (hbody : ∀ opener s₁, opener.span.start ≤ env.source.size → Within env level 2 s₁ →
      Meets env s₁ (body opener) (ReadsUpTo env text s₁)) :
    Meets env s
      (do
        let opener ← peek
        let leaf ← tokenLeaf opener
        let parts ← body opener
        node kind (leaf :: parts))
      (ReadsFrom env s (s.token env s.flags)) := by
  apply (peek_meets h.sound).bind
  intro opener s₁ hpeek
  apply (tokenLeaf_opens hpeek.stays.sound hpeek.next (hpeek.kind_eq.symm.trans hop)).bind
  intro leaf s₂ hleaf
  apply (hbody opener s₂ hpeek.next.start_le_size (h.taken hpeek hleaf.1)).bind
  intro parts s₃ hparts
  exact hpeek.node_readsFrom hleaf.1 hparts.toReads kind (hkind _ _ _ hleaf.2 hparts.ends)

theorem nest_readsOption (h : Within env level (room + 1) s) {body : Parse (Option Node)}
    (hbody : ∀ s₁, Within env level room s₁ → Meets env s₁ body (ReadsOption env s₁)) :
    Meets env s (nest body) (ReadsOption env s) := by
  apply nest_meets h
  . intro node s' hnode _ _
    exact hnode
  . intro _ _
    apply (hbody _ h.with_depth).mono
    intro result s' hresult
    cases result with
    | none => exact Stays.leave hresult
    | some node => exact Reads.leave hresult

theorem Parse.Taken.node_joins {left : List Node} (h : Taken env s tok.span leaf s₁)
    (hleft : Reads env s₂ left s) (hnext : Next env s tok) (hkind : tok.kind ≠ .eof)
    (hnodes : Reads env s₁ nodes s') (kind : NodeKind)
    (hcomposes : Composes env kind (left ++ leaf :: nodes) s') :
    Meets env s' (node kind (left ++ leaf :: nodes)) fun joined final =>
      Reads env s₂ [joined] final ∧ final.remaining env < s.remaining env := by
  apply (node_made (hleft.trans (h.toReads.trans hnodes)) kind hcomposes).mono
  intro joined final hmade
  have hless := h.remaining_lt_of_pos (h.pos_lt hnext hkind)
  have hle := hnodes.remaining_le
  exact ⟨hmade.toReads, by rw [hmade.eq]; omega⟩

end

end ShellTree
