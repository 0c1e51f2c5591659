import ShellTree.Parse.Nested
import ShellTree.Proofs.Behind.Carries

/-!
This module contains the primitives of the parsing monad in an outer parse: reports, contexts,
speculation and tokens.
-/

namespace ShellTree
namespace Parse

variable {α : Type} [Moves α] {E : Embedding}

/-! ### Reports and limits -/

theorem report_carries (cause : Cause) (span : Span) :
    Carries E (report cause span) (report cause (moved E.width span)) := by
  apply carries_bind_isHalted
  intro halted
  apply carries_ite Iff.rfl
  . intro _
    apply carries_bind_source
    apply modify_carries
    intro s own
    refine ⟨id, rfl, rfl, ?_⟩
    simp only [Embedding.state, List.map_append, List.append_assoc]
    rfl
  . intro _
    exact carries_pure rfl

theorem reportUnclosed_carries (what : Unclosed) (start : Nat) :
    Carries E (reportUnclosed what start) (reportUnclosed what (start + E.width)) := by
  apply carries_bind_source
  rw [E.behind.size_eq]
  apply (spanBetween_carries start _).bind
  intro span
  exact report_carries (.unterminated what) span

theorem halted_of_halt {cause : Cause} {env : Env} {s s' : State}
    (h : halt cause env s = .ok (⟨⟩, s')) : s'.halted = true := by
  unfold halt at h
  obtain ⟨_, _, _, h⟩ := bind_run.1 h
  obtain ⟨_, _, _, h⟩ := bind_run.1 h
  obtain ⟨_, _, _, h⟩ := bind_run.1 h
  obtain ⟨_, _, _, h⟩ := bind_run.1 h
  cases h
  rfl

theorem halt_carries (cause : Cause) : Carries E (halt cause) (halt cause) := by
  apply position_carries.bind
  intro offset
  apply carries_bind_source
  rw [E.behind.size_eq]
  apply (spanBetween_carries offset _).bind
  intro span
  apply (report_carries cause span).bind
  intro _
  exact modify_carries fun _ _ => ⟨fun _ => rfl, rfl, rfl, rfl⟩

/-- The outer parse need not do what halts the inner one, unless the two are the same. -/
theorem carries_halt {cause : Cause} {a : α} {m' : Parse α}
    (htight : E.IsTight → Carries E (do halt cause; return a) m') :
    Carries E (do halt cause; return a) m' := by
  have hhalted : ∀ s b s', (do halt cause; return a : Parse α) E.inner s = .ok (b, s') →
      s'.halted = true := by
    intro s b s' heq
    obtain ⟨_, s₁, hhalt, ha⟩ := bind_run.1 heq
    cases ha
    exact halted_of_halt hhalt
  constructor
  . intro s b s' heq _
    exact hhalted s b s' heq
  . intro s b s' heq hs'
    cases hs' with
    | inl hE => exact (htight hE).run s b s' heq (.inl hE)
    | inr hs' =>
      rw [hhalted s b s' heq] at hs'
      cases hs'
  . intro s heq hE
    exact (htight hE).fails s heq hE

theorem carries_ite_of_halt {p p' : Prop} [Decidable p] [Decidable p'] {cause cause' : Cause}
    {a : α} {n n' : Parse α} (ha : moved E.width a = a) (hp : p' → p)
    (htight : E.IsTight → (p → p') ∧ cause' = cause) (h : ¬p → Carries E n n') :
    Carries E (if p then do halt cause; return a else n)
      (if p' then do halt cause'; return a else n') := by
  split
  . next hpos =>
    apply carries_halt
    intro hE
    obtain ⟨hp', rfl⟩ := htight hE
    rw [if_pos (hp' hpos)]
    exact (halt_carries cause').bind fun _ => carries_pure ha.symm
  . next hneg =>
    rw [if_neg (mt hp hneg)]
    exact h hneg

theorem haltedNode_carries : Carries E haltedNode haltedNode := by
  apply position_carries.bind
  intro offset
  apply carries_pure
  rw [Node.moved_leaf, moved_empty]
  rfl

theorem enter_carries : Carries E enter enter := by
  have hle := E.maxDepth_le
  have hfrom : ∀ depth depth', E.Depths depth depth' → Carries E
      (do
        let limit := (← read).options.maxDepth
        if ← isHalted then
          return false
        else if depth > limit then
          halt (.nestingTooDeep limit)
          return false
        else
          modify fun s => { s with depth := depth }
          return true)
      (do
        let limit := (← read).options.maxDepth
        if ← isHalted then
          return false
        else if depth' > limit then
          halt (.nestingTooDeep limit)
          return false
        else
          modify fun s => { s with depth := depth' }
          return true) := by
    intro depth depth' hdepths
    apply carries_bind_read
    apply carries_bind_isHalted
    intro halted
    apply carries_ite Iff.rfl
    . intro _
      exact carries_pure rfl
    . intro _
      apply carries_ite_of_halt rfl
      . intro hdeep
        have := E.depths_le depth depth' hdepths
        omega
      . intro hE
        rw [hE.depths_eq depth depth' hdepths, hE.options_eq]
        exact ⟨id, rfl⟩
      . intro _
        apply Carries.bind
        . apply carries_modify
          . exact fun _ => id
          . intro s own hown
            exact ⟨⟨own.comments, depth'⟩, ⟨hown.logs, hdepths⟩, rfl⟩
        . intro _
          exact carries_pure rfl
  exact ⟨fun s => (hfrom _ _ (E.depths_refl (s.depth + 1))).halted s,
    fun s a s' heq hs' own hown =>
      (hfrom _ _ (E.depths_succ _ _ hown.depths)).run s a s' heq hs' own hown,
    fun s heq hE own hown =>
      (hfrom _ _ (E.depths_succ _ _ hown.depths)).fails s heq hE own hown⟩

theorem leave_carries : Carries E leave leave := by
  apply carries_modify
  . exact fun _ => id
  . intro s own hown
    exact ⟨⟨own.comments, own.depth - 1⟩, ⟨hown.logs, E.depths_pred _ _ hown.depths⟩, rfl⟩

theorem nest_carries {body body' : Parse (Option Node)} (h : Carries E body body') :
    Carries E (nest body) (nest body') := by
  apply enter_carries.bind
  intro entered
  apply carries_ite Iff.rfl
  . intro _
    apply h.bind
    intro result
    exact leave_carries.bind fun _ => carries_pure rfl
  . intro _
    exact haltedNode_carries.bind fun _ => carries_pure rfl

theorem tick_carries : Carries E tick tick := by
  apply carries_bind_isHalted
  intro halted
  apply carries_ite Iff.rfl
  . intro _
    exact carries_pure rfl
  . intro _
    apply carries_bind_read
    apply carries_ite_of_halt rfl
    . rw [E.cancelled_eq]
      exact id
    . intro _
      rw [E.cancelled_eq]
      exact ⟨id, rfl⟩
    . intro _
      apply carries_bind_get
      intro s own
      have hboundaries : (E.state s own).boundaries + 1 = s.boundaries + 1 + E.boundaries :=
        Nat.add_right_comm ..
      dsimp only
      rw [hboundaries]
      apply carries_bind_modify
      . exact fun _ _ => ⟨id, rfl, rfl, rfl⟩
      . apply carries_bind_read
        have hle := E.statements_le
        cases houter : E.outer.options.maxStatements with
        | none =>
          cases hinner : E.inner.options.maxStatements with
          | none => exact carries_pure rfl
          | some limit =>
            dsimp only
            split
            . apply carries_halt
              intro hE
              rw [hE.options_eq, hinner] at houter
              cases houter
            . exact carries_pure rfl
        | some limit =>
          obtain ⟨limit', hinner, hlimit⟩ := hle limit houter
          rw [Option.mem_def] at hinner
          rw [hinner]
          apply carries_ite_of_halt rfl
          . intro hmany
            omega
          . intro hE
            rw [hE.options_eq, hinner, Option.some.injEq] at houter
            rw [hE.boundaries_eq, houter]
            exact ⟨id, rfl⟩
          . intro _
            exact carries_pure rfl

/-! ### Contexts -/

theorem inMode_carries {mode : Mode} {body body' : Parse α} (h : Carries E body body') :
    Carries E (inMode mode body) (inMode mode body') := by
  unfold inMode pushMode popMode
  apply carries_bind_modify
  . exact fun _ _ => ⟨id, rfl, rfl, rfl⟩
  . apply h.bind
    intro a
    apply carries_bind_modify
    . exact fun _ _ => ⟨id, rfl, rfl, rfl⟩
    . exact carries_pure rfl

theorem withFlags_carries {flags : Flags} {body body' : Parse α} (h : Carries E body body') :
    Carries E (withFlags flags body) (withFlags flags body') := by
  apply carries_bind_get
  intro s own
  apply carries_bind_modify
  . exact fun _ _ => ⟨id, rfl, rfl, rfl⟩
  . apply h.bind
    intro a
    apply carries_bind_modify
    . exact fun _ _ => ⟨id, rfl, rfl, rfl⟩
    . exact carries_pure rfl

theorem withinBackticks_carries {body body' : Parse α} (h : Carries E body body') :
    Carries E (withinBackticks body) (withinBackticks body') := by
  apply carries_bind_get
  intro s own
  apply carries_bind_modify
  . exact fun _ _ => ⟨id, rfl, rfl, rfl⟩
  . apply h.bind
    intro a
    apply carries_bind_modify
    . exact fun _ _ => ⟨id, rfl, rfl, rfl⟩
    . exact carries_pure rfl

/-! ### Speculation -/

theorem restore_carries (s : State) (own : Apart) :
    Carries E (restore ⟨s.pos, s.diagnostics.length, s.pending⟩)
      (restore ⟨(E.state s own).pos, (E.state s own).diagnostics.length,
        (E.state s own).pending⟩) := by
  apply modify_carries
  intro s₁ own₁
  refine ⟨id, rfl, rfl, ?_⟩
  unfold Embedding.state
  -- the reports of the text before come first, so that none of them is taken back
  cases s₁.halted <;> simp [List.take_append, List.take_of_length_le]

theorem attempt_carries {body body' : Parse (Option α)} (h : Carries E body body') :
    Carries E (attempt body) (attempt body') := by
  apply carries_bind_get
  intro s own
  apply h.bindOption
  . exact (restore_carries s own).bind fun _ => carries_pure rfl
  . intro a
    exact carries_pure rfl

theorem lookAhead_carries {body body' : Parse α} (h : Carries E body body') :
    Carries E (lookAhead body) (lookAhead body') := by
  apply carries_bind_get
  intro s own
  apply h.bind
  intro a
  exact (restore_carries s own).bind fun _ => carries_pure rfl

/-! ### The next token -/

theorem remember_carries (comments : List Span) :
    Carries E (remember comments) (remember (moved E.width comments)) := by
  apply carries_modify
  . exact fun _ => id
  . intro s own hown
    exact ⟨⟨_, own.depth⟩, ⟨E.insertAll s.comments own.comments comments hown.logs, hown.depths⟩,
      rfl⟩

theorem mode_state (s : State) (own : Apart) : (E.state s own).mode = s.mode := by
  unfold State.mode
  simp only [Embedding.state, isEmpty_moved]

theorem peekWith_carries (flags : Flags) : Carries E (peekWith flags) (peekWith flags) := by
  apply carries_bind_get
  intro s own
  apply carries_ite Iff.rfl
  . intro _
    exact carries_pure rfl
  . intro _
    apply carries_bind_source
    apply (liftM_carries _).bind
    . rintro ⟨tok, comments⟩
      exact (remember_carries comments).bind fun _ => carries_pure rfl
    . rw [mode_state]
      exact Lexer.next_moved E.behind ..

theorem peek_carries : Carries E peek peek := carries_bind_get fun s _ => peekWith_carries s.flags

theorem peekRegex_carries (inExpansion : Bool) :
    Carries E (peekRegex inExpansion) (peekRegex inExpansion) := by
  apply carries_bind_get
  intro s own
  apply carries_ite Iff.rfl
  . intro _
    exact carries_pure rfl
  . intro _
    apply carries_bind_source
    apply (liftM_carries (Lexer.nextRegex_moved E.behind ..)).bind
    rintro ⟨tok, comments⟩
    exact (remember_carries comments).bind fun _ => carries_pure rfl

theorem peekHeredocMarker_carries : Carries E peekHeredocMarker peekHeredocMarker := by
  apply carries_bind_get
  intro s own
  apply carries_ite Iff.rfl
  . intro _
    exact carries_pure rfl
  . intro _
    apply carries_bind_source
    have hmoved : Lexer.nextHeredocMarker E.outer.source (E.state s own).pos =
        moved E.width (Lexer.nextHeredocMarker E.inner.source s.pos) :=
      Lexer.nextHeredocMarker_moved E.behind s.pos
    rw [hmoved]
    exact (remember_carries _).bind fun _ => carries_pure rfl

/-! ### Nodes -/

theorem leafAt_carries (kind : NodeKind) {span span' : Span} (h : span' = moved E.width span) :
    Carries E (leafAt kind span) (leafAt kind span') := by
  subst h
  exact (setPosition_carries span.stop).bind fun _ => carries_pure (Node.moved_leaf kind span).symm

theorem takeText_carries (text : String) : Carries E (takeText text) (takeText text) :=
  position_carries.bind fun _ => leafAt_carries _ (moved_ofWidth ..).symm

theorem tokenLeaf_carries (tok : Token) :
    Carries E (tokenLeaf tok) (tokenLeaf (moved E.width tok)) := by
  apply (setPosition_carries tok.span.stop).bind
  intro _
  apply carries_ite_bind Iff.rfl (report_carries _ tok.span)
  exact carries_pure (Node.moved_leaf ..).symm

theorem keywordLeaf_carries (tok : Token) :
    Carries E (keywordLeaf tok) (keywordLeaf (moved E.width tok)) := leafAt_carries _ rfl

theorem node_carries (kind : NodeKind) {children children' : List Node}
    (h : children' = moved E.width children) :
    Carries E (node kind children) (node kind children') := by
  subst h
  unfold node
  have hhead : (moved E.width children).head? = moved E.width children.head? := List.head?_map
  have hempty : Carries E (do return (⟨kind, .empty (← position), children⟩ : Node))
      (do return (⟨kind, .empty (← position), moved E.width children⟩ : Node)) := by
    apply position_carries.bind
    intro offset
    apply carries_pure
    rw [Node.moved_mk, moved_empty]
    rfl
  rw [hhead, getLast?_moved]
  cases children.head? with
  | none => exact hempty
  | some first =>
    cases children.getLast? with
    | none => exact hempty
    | some last =>
      dsimp only [moved_some]
      rw [Node.moved_span, Node.moved_span]
      apply (spanBetween_carries ..).bind
      intro span
      exact carries_pure (Node.moved_mk ..).symm

theorem errorAround_carries (junk : List Node) :
    Carries E (errorAround junk) (errorAround (moved E.width junk)) := by
  apply carries_ite (by rw [isEmpty_moved])
  . intro _
    exact carries_pure rfl
  . intro _
    exact (node_carries .error rfl).bind fun _ => carries_pure rfl

/-! ### Keywords and expected tokens -/

theorem isBareWord_moved (tok : Token) :
    isBareWord E.outer.source (moved E.width tok) = isBareWord E.inner.source tok := by
  unfold isBareWord
  rw [Token.moved_span, moved_stop, Embedding.width, E.behind.tail?_eq]
  rfl

theorem isKeyword_moved (tok : Token) (keyword : String) :
    isKeyword E.outer.source (moved E.width tok) keyword =
      isKeyword E.inner.source tok keyword := by
  unfold isKeyword
  rw [isBareWord_moved, Token.moved_text]

theorem reportMissing_carries (tok : Token) (expected : String) (construct : Construct)
    (start : Nat) :
    Carries E (reportMissing tok expected construct start)
      (reportMissing (moved E.width tok) expected construct (start + E.width)) := by
  apply carries_ite Iff.rfl
  . intro _
    exact reportUnclosed_carries ..
  . intro _
    exact report_carries ..

theorem expectOperator_carries (op : String) (construct : Construct) (start : Nat) :
    Carries E (expectOperator op construct start)
      (expectOperator op construct (start + E.width)) := by
  apply peek_carries.bind
  intro tok
  apply carries_ite Iff.rfl
  . intro _
    exact (tokenLeaf_carries tok).bind fun _ => carries_pure rfl
  . intro _
    exact (reportMissing_carries ..).bind fun _ => carries_pure rfl

theorem expectKeyword_carries (keyword : String) (construct : Construct) (start : Nat) :
    Carries E (expectKeyword keyword construct start)
      (expectKeyword keyword construct (start + E.width)) := by
  apply (peekWith_carries _).bind
  intro tok
  apply carries_bind_source
  apply carries_ite (by rw [isKeyword_moved])
  . intro _
    exact (keywordLeaf_carries tok).bind fun _ => carries_pure rfl
  . intro _
    exact (reportMissing_carries ..).bind fun _ => carries_pure rfl

theorem acceptOperator_carries (op : String) :
    Carries E (acceptOperator op) (acceptOperator op) := by
  apply peek_carries.bind
  intro tok
  apply carries_ite Iff.rfl
  . intro _
    exact (tokenLeaf_carries tok).bind fun _ => carries_pure rfl
  . intro _
    exact carries_pure rfl

/-! ### Loops that collect nodes -/

theorem remaining_state (s : State) (own : Apart) :
    (E.state s own).remaining E.outer = s.remaining E.inner := by
  have hsize := E.behind.size_eq
  simp only [State.remaining, Embedding.state, Embedding.width]
  rw [hsize, Nat.add_sub_add_right]
  rfl

theorem loop_carries {step step' : α → Parse (ForInStep α)} {a a' : α}
    (ha : a' = moved E.width a) (hstep : ∀ a, Carries E (step a) (step' (moved E.width a))) :
    Carries E (repeatStep step a) (repeatStep step' a') := by
  apply repeatStep_carries ha _ hstep
  intro _ s own
  exact ⟨s.remaining E.inner, rfl, congrArg (fun n => Except.ok (n, E.state s own))
    (remaining_state s own)⟩

theorem doneIfHalted_carries (a : α) :
    Carries E (do return if ← isHalted then ForInStep.done a else .yield a)
      (do return if ← isHalted then ForInStep.done (moved E.width a)
        else .yield (moved E.width a)) := by
  apply carries_bind_isHalted
  intro halted
  apply carries_pure
  cases halted <;> rfl

end Parse

/-- What the constructs do in a parse by itself, they do in the outer parse. -/
structure Nested.Carried (E : Parse.Embedding) (inner outer : Nested) : Prop where
  statements : ∀ ctx, Parse.Carries E (inner.statements ctx) (outer.statements ctx)
  statement : ∀ tier, Parse.Carries E (inner.statement tier) (outer.statement tier)
  redirect : Parse.Carries E inner.redirect outer.redirect
  literal : Parse.Carries E inner.literal outer.literal
  fragment : Parse.Carries E inner.fragment outer.fragment
  arithmetic : ∀ minRow, Parse.Carries E (inner.arithmetic minRow) (outer.arithmetic minRow)
  arithmeticOperand : Parse.Carries E inner.arithmeticOperand outer.arithmeticOperand
  test : Parse.Carries E inner.test outer.test
  testOperand : Parse.Carries E inner.testOperand outer.testOperand

end ShellTree
