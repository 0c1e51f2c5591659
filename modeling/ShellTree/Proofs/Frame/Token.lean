import ShellTree.Parse.Nested
import ShellTree.Proofs.Frame.Frames

/-!
This module contains the frame of the primitives of the parsing monad: reports and limits, contexts,
speculation and tokens.
-/

namespace ShellTree
namespace Parse

variable {α : Type} [HasNodes α] {env : Env} {depth extra : Nat} {s s' : State}

/-! ### Reports and limits -/

theorem report_run {cause : Cause} {span : Span} (h : report cause span env s = .ok (⟨⟩, s')) :
    (s.halted = true → s' = s) ∧
      (s.halted = false → ∃ diagnostic, diagnostic.cause = cause ∧
        s' = { s with diagnostics := s.diagnostics ++ [diagnostic] }) := by
  unfold report at h
  obtain ⟨halted, s₁, hhalted, hrun⟩ := bind_run.1 h
  cases hhalted
  split at hrun
  . next hs =>
    obtain ⟨src, s₂, hsrc, hrun⟩ := bind_run.1 hrun
    cases hsrc
    cases hrun
    refine ⟨fun hs' => ?_, fun _ => ⟨_, rfl, rfl⟩⟩
    simp [hs'] at hs
  . next hs =>
    cases hrun
    refine ⟨fun _ => rfl, fun hs' => ?_⟩
    simp [hs'] at hs

theorem report_frames (cause : Cause) (span : Span) :
    Frames env depth extra (report cause span) := by
  intro s a s' hrun _
  obtain ⟨hhalted, hrunning⟩ := report_run hrun
  refine ⟨?_, shallow_unit a⟩
  cases hs : s.halted with
  | true =>
    rw [hhalted hs]
    exact .refl env s
  | false =>
    obtain ⟨diagnostic, _, rfl⟩ := hrunning hs
    exact {
      Framed.refl env s with
      reports := List.prefix_append _ _
      halted := by simp [hs]
      halts := by simp [hs] }

theorem reportUnclosed_frames (what : Unclosed) (start : Nat) :
    Frames env depth extra (reportUnclosed what start) := by
  apply frames_bind_source
  apply frames_bind_liftM
  intro span
  exact report_frames _ span

/-- A halt is reported as what it is. -/
theorem halt_frames {cause : Cause} (hcause : EndsParse env cause.kind) :
    Frames env depth 0 (halt cause) := by
  intro s a s' hrun _
  unfold halt at hrun
  obtain ⟨offset, _, hoffset, hrun⟩ := bind_run.1 hrun
  cases hoffset
  obtain ⟨src, _, hsrc, hrun⟩ := bind_run.1 hrun
  cases hsrc
  obtain ⟨span, s₁, hspan, hrun⟩ := bind_run.1 hrun
  rw [spanBetween_run hspan] at hrun
  obtain ⟨_, s₂, hreport, hrun⟩ := bind_run.1 hrun
  cases hrun
  obtain ⟨hhalted, hrunning⟩ := report_run hreport
  refine ⟨?_, shallow_unit _⟩
  cases hs : s.halted with
  | true =>
    rw [hhalted hs]
    exact { Framed.refl env s with halted := fun _ => ⟨rfl, rfl⟩, halts := by simp [hs] }
  | false =>
    obtain ⟨diagnostic, rfl, rfl⟩ := hrunning hs
    exact {
      Framed.refl env s with
      reports := List.prefix_append _ _
      halted := by simp [hs]
      halts := fun _ _ => ⟨diagnostic, by simp, hcause⟩ }

theorem haltedNode_frames : Frames env depth extra haltedNode :=
  frames_bind_position fun offset => frames_pure (shallow_leaf rfl (.empty offset))

/-- A level is entered where there is one left. -/
theorem enter_run {entered : Bool} (h : enter env s = .ok (entered, s')) :
    if entered then s.depth + 1 ≤ env.options.maxDepth ∧ s' = { s with depth := s.depth + 1 }
      else Framed env s s' := by
  unfold enter at h
  obtain ⟨_, _, hget, h⟩ := bind_run.1 h
  cases hget
  obtain ⟨_, _, hread, h⟩ := bind_run.1 h
  cases hread
  obtain ⟨_, _, hhalted, h⟩ := bind_run.1 h
  cases hhalted
  split at h
  . cases h
    exact .refl env s
  . split at h
    . obtain ⟨_, _, hhalt, h⟩ := bind_run.1 h
      cases h
      exact (halt_frames (.inl rfl) s _ _ hhalt rfl).1
    . next hlimit =>
      cases h
      exact ⟨Nat.le_of_not_lt hlimit, rfl⟩

/-- The body has a level to itself. -/
theorem nest_frames {body : Parse (Option Node)} (h : Frames env (depth + 1) 1 body) :
    Frames env depth extra (nest body) := by
  intro s a s' hrun hdepth
  unfold nest at hrun
  obtain ⟨entered, s₁, henter, hrun⟩ := bind_run.1 hrun
  have hentered := enter_run henter
  cases entered with
  | false =>
    obtain ⟨node, s₂, hnode, hrun⟩ := bind_run.1 hrun
    cases hrun
    obtain ⟨hframed, hshallow⟩ :=
      haltedNode_frames s₁ node s' hnode (hentered.depth_eq.trans hdepth)
    exact ⟨Framed.trans hentered hframed, shallow_some.2 hshallow⟩
  | true =>
    obtain ⟨hlimit, rfl⟩ := hentered
    obtain ⟨result, s₂, hbody, hrun⟩ := bind_run.1 hrun
    obtain ⟨_, _, hleave, hrun⟩ := bind_run.1 hrun
    cases hleave
    cases hrun
    obtain ⟨hframed, hshallow⟩ := h _ a s₂ hbody (congrArg (· + 1) hdepth)
    have hleft : s₂.depth - 1 = s.depth := by simp [hframed.depth_eq]
    refine ⟨{ hframed with depth_eq := hleft }, fun _ => ?_⟩
    have hlevels := hshallow (hdepth ▸ hlimit)
    omega

theorem tick_frames : Frames env depth extra tick := by
  apply frames_bind_isHalted
  intro halted
  apply frames_ite
  . intro _
    exact frames_pure (shallow_bool _)
  . intro _
    apply frames_bind_read
    apply frames_ite
    . intro hcancelled
      exact (halt_frames (.inr ⟨rfl, hcancelled⟩)).seq fun _ _ => frames_pure (shallow_bool _)
    . intro _
      apply frames_bind_get
      intro s
      apply Frames.seq
      . exact frames_modify fun s' => { Framed.refl env s' with }
      intro _ _
      apply frames_bind_read
      cases env.options.maxStatements with
      | none => exact frames_pure (shallow_bool _)
      | some limit =>
        apply frames_ite
        . intro _
          exact (halt_frames (.inl rfl)).seq fun _ _ => frames_pure (shallow_bool _)
        . intro _
          exact frames_pure (shallow_bool _)

/-! ### Contexts -/

theorem inMode_frames {mode : Mode} {body : Parse α} (h : Frames env depth extra body) :
    Frames env depth extra (inMode mode body) := by
  intro s a s' hrun hdepth
  obtain ⟨_, _, hpush, hrun⟩ := bind_run.1 hrun
  cases hpush
  obtain ⟨a', s₁, hbody, hrun⟩ := bind_run.1 hrun
  obtain ⟨_, _, hpop, hrun⟩ := bind_run.1 hrun
  cases hpop
  cases hrun
  obtain ⟨hframed, hshallow⟩ := h _ a s₁ hbody hdepth
  refine ⟨{ hframed with modes_eq := fun hmodes => ?_ }, hshallow⟩
  have hmodes₁ : s₁.modes = mode :: s.modes := hframed.modes_eq (List.cons_ne_nil _ _)
  simp [hmodes₁, hmodes]

theorem withFlags_frames {flags : Flags} {body : Parse α} (h : Frames env depth extra body) :
    Frames env depth extra (withFlags flags body) := by
  intro s a s' hrun hdepth
  obtain ⟨_, _, hget, hrun⟩ := bind_run.1 hrun
  cases hget
  obtain ⟨_, _, hset, hrun⟩ := bind_run.1 hrun
  cases hset
  obtain ⟨a', s₁, hbody, hrun⟩ := bind_run.1 hrun
  obtain ⟨_, _, hreset, hrun⟩ := bind_run.1 hrun
  cases hreset
  cases hrun
  obtain ⟨hframed, hshallow⟩ := h _ a s₁ hbody hdepth
  exact ⟨{ hframed with flags_eq := rfl }, hshallow⟩

theorem withinBackticks_frames {body : Parse α} (h : Frames env depth extra body) :
    Frames env depth extra (withinBackticks body) := by
  intro s a s' hrun hdepth
  obtain ⟨_, _, hget, hrun⟩ := bind_run.1 hrun
  cases hget
  obtain ⟨_, _, hset, hrun⟩ := bind_run.1 hrun
  cases hset
  obtain ⟨a', s₁, hbody, hrun⟩ := bind_run.1 hrun
  obtain ⟨_, _, hreset, hrun⟩ := bind_run.1 hrun
  cases hreset
  cases hrun
  obtain ⟨hframed, hshallow⟩ := h _ a s₁ hbody hdepth
  exact ⟨{ hframed with inBacktick_eq := rfl }, hshallow⟩

/-! ### Speculation -/

theorem attempt_frames {body : Parse (Option α)} (h : Frames env depth extra body) :
    Frames env depth extra (attempt body) := by
  intro s a s' hrun hdepth
  obtain ⟨_, _, hsaved, hrun⟩ := bind_run.1 hrun
  cases hsaved
  obtain ⟨result, s₁, hbody, hrun⟩ := bind_run.1 hrun
  obtain ⟨hframed, hshallow⟩ := h s result s₁ hbody hdepth
  cases result with
  | some a =>
    cases hrun
    exact ⟨hframed, hshallow⟩
  | none =>
    obtain ⟨_, _, hrestore, hrun⟩ := bind_run.1 hrun
    cases hrestore
    cases hrun
    exact ⟨hframed.restore, shallow_none⟩

theorem lookAhead_frames {body : Parse α} (h : Frames env depth extra body) :
    Frames env depth extra (lookAhead body) := by
  intro s a s' hrun hdepth
  obtain ⟨_, _, hsaved, hrun⟩ := bind_run.1 hrun
  cases hsaved
  obtain ⟨a', s₁, hbody, hrun⟩ := bind_run.1 hrun
  obtain ⟨hframed, hshallow⟩ := h s a' s₁ hbody hdepth
  obtain ⟨_, _, hrestore, hrun⟩ := bind_run.1 hrun
  cases hrestore
  cases hrun
  exact ⟨hframed.restore, hshallow⟩

/-! ### The next token -/

theorem remember_frames (comments : List Span) : Frames env depth extra (remember comments) :=
  frames_modify fun s => { Framed.refl env s with }

theorem peekWith_frames (flags : Flags) : Frames env depth extra (peekWith flags) := by
  apply frames_bind_get
  intro s
  apply frames_ite
  . intro _
    exact frames_pure (shallow_of_eq_nil rfl)
  . intro _
    apply frames_bind_source
    apply frames_bind_liftM
    rintro ⟨tok, comments⟩
    exact (remember_frames comments).seq fun _ _ => frames_pure (shallow_of_eq_nil rfl)

theorem peek_frames : Frames env depth extra peek :=
  frames_bind_get fun s => peekWith_frames s.flags

theorem shallow_token? (tok : Option Token) : Shallow env depth extra tok := by
  cases tok <;> exact shallow_of_eq_nil rfl

theorem peekRegex_frames (inExpansion : Bool) :
    Frames env depth extra (peekRegex inExpansion) := by
  apply frames_bind_get
  intro s
  apply frames_ite
  . intro _
    exact frames_pure shallow_none
  . intro _
    apply frames_bind_source
    apply frames_bind_liftM
    rintro ⟨tok, comments⟩
    exact (remember_frames comments).seq fun _ _ => frames_pure (shallow_token? tok)

theorem peekHeredocMarker_frames : Frames env depth extra peekHeredocMarker := by
  apply frames_bind_get
  intro s
  apply frames_ite
  . intro _
    exact frames_pure shallow_none
  . intro _
    apply frames_bind_source
    exact (remember_frames _).seq fun _ _ => frames_pure (shallow_token? _)

/-! ### Nodes -/

theorem leafAt_frames {kind : NodeKind} (hkind : kind.takesLevel = false) (span : Span) :
    Frames env depth extra (leafAt kind span) :=
  (setPosition_frames _).seq fun _ _ => frames_pure (shallow_leaf hkind span)

theorem takeText_frames (text : String) : Frames env depth extra (takeText text) :=
  frames_bind_position fun _ => leafAt_frames rfl _

theorem takesLevel_kindOf (kind : TokenKind) : (kindOf kind).takesLevel = false := by
  cases kind <;> rfl

theorem tokenLeaf_frames (tok : Token) : Frames env depth extra (tokenLeaf tok) := by
  apply (setPosition_frames _).seq
  intro _ _
  apply frames_ite_seq (report_frames _ _)
  exact frames_pure (shallow_leaf (takesLevel_kindOf tok.kind) tok.span)

theorem keywordLeaf_frames (tok : Token) : Frames env depth extra (keywordLeaf tok) := by
  apply leafAt_frames
  cases Keyword.keyword? tok.text <;> rfl

theorem node_frames_of {kind : NodeKind} {children : List Node}
    (h : ∀ span, Shallow env depth extra (⟨kind, span, children⟩ : Node)) :
    Frames env depth extra (node kind children) := by
  unfold node
  split
  . apply frames_bind_liftM
    intro span
    exact frames_pure (h span)
  . apply frames_bind_position
    intro offset
    exact frames_pure (h _)

theorem node_frames {kind : NodeKind} {children : List Node} (hkind : kind.takesLevel = false)
    (h : Shallow env depth extra children) : Frames env depth extra (node kind children) :=
  node_frames_of fun _ => h.plainNode hkind

/-- The node can take the level of its own. -/
theorem levelNode_frames {kind : NodeKind} {children : List Node}
    (h : Shallow env depth extra children) : Frames env depth (extra + 1) (node kind children) :=
  node_frames_of fun _ => h.node

theorem errorAround_frames {junk : List Node} (h : Shallow env depth extra junk) :
    Frames env depth extra (errorAround junk) := by
  apply frames_ite
  . intro _
    exact frames_pure shallow_nil
  . intro _
    exact (node_frames rfl h).inList

/-! ### Keywords and expected tokens -/

theorem reportMissing_frames (tok : Token) (expected : String) (construct : Construct)
    (start : Nat) : Frames env depth extra (reportMissing tok expected construct start) :=
  frames_ite (fun _ => reportUnclosed_frames _ _) fun _ => report_frames _ _

theorem expectOperator_frames (op : String) (construct : Construct) (start : Nat) :
    Frames env depth extra (expectOperator op construct start) := by
  apply peek_frames.seq
  intro tok _
  apply frames_ite
  . intro _
    exact (tokenLeaf_frames tok).inList
  . intro _
    exact (reportMissing_frames _ _ _ _).seq fun _ _ => frames_pure shallow_nil

theorem expectKeyword_frames (keyword : String) (construct : Construct) (start : Nat) :
    Frames env depth extra (expectKeyword keyword construct start) := by
  apply (peekWith_frames _).seq
  intro tok _
  apply frames_bind_source
  apply frames_ite
  . intro _
    exact (keywordLeaf_frames tok).inList
  . intro _
    exact (reportMissing_frames _ _ _ _).seq fun _ _ => frames_pure shallow_nil

theorem acceptOperator_frames (op : String) : Frames env depth extra (acceptOperator op) := by
  apply peek_frames.seq
  intro tok _
  apply frames_ite
  . intro _
    exact (tokenLeaf_frames tok).inList
  . intro _
    exact frames_pure shallow_nil

theorem doneIfHalted_frames {a : α} (h : Shallow env depth extra a) :
    Frames env depth extra (do return if ← isHalted then ForInStep.done a else .yield a) := by
  apply frames_bind_isHalted
  intro halted
  cases halted <;> exact frames_pure h

end Parse

/-- The constructs leave the frame at every depth. An operand of an arithmetic expression may take
the level of the expression around it. -/
structure Nested.Framed (env : Parse.Env) (inner : Nested) : Prop where
  statements : ∀ depth ctx, Parse.Frames env depth 0 (inner.statements ctx)
  statement : ∀ depth tier, Parse.Frames env depth 0 (inner.statement tier)
  redirect : ∀ depth, Parse.Frames env depth 0 inner.redirect
  literal : ∀ depth, Parse.Frames env depth 0 inner.literal
  fragment : ∀ depth, Parse.Frames env depth 0 inner.fragment
  arithmetic : ∀ depth minRow, Parse.Frames env depth 0 (inner.arithmetic minRow)
  arithmeticOperand : ∀ depth, Parse.Frames env depth 1 inner.arithmeticOperand
  test : ∀ depth, Parse.Frames env depth 0 inner.test
  testOperand : ∀ depth, Parse.Frames env depth 0 inner.testOperand

end ShellTree
