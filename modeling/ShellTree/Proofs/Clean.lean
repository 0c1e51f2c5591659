import ShellTree.Proofs.Behind.Token
import ShellTree.Proofs.Construct
import ShellTree.Proofs.Grammar.ListPart
import ShellTree.Proofs.Written.Runs

/-!
This module contains what a run that reports nothing has gone through. Reports are never taken back,
so that nothing is reported on the way either: no limit was hit, and no token was missing.
-/

namespace ShellTree
namespace Parse

variable {α : Type} {env : Env} {s s₁ s' : State} {cause : Cause} {span : Span}

/-- Nothing has been reported, and the parse goes on. -/
structure State.IsClean (s : State) : Prop where
  diagnostics_eq : s.diagnostics = []
  running : s.halted = false

theorem Framed.isClean (h : Framed env s s') (hclean : s'.IsClean) : s.IsClean where
  diagnostics_eq := by
    have hreports := h.reports
    rw [hclean.diagnostics_eq] at hreports
    exact List.prefix_nil.1 hreports
  running := by
    rw [← Bool.not_eq_true]
    intro hs
    have hs' := (h.halted hs).1
    rw [hclean.running] at hs'
    cases hs'

theorem Frames.isClean [HasNodes α] {m : Parse α} {a : α} (h : Frames env s.depth 0 m)
    (hrun : m env s = .ok (a, s')) (hclean : s'.IsClean) : s.IsClean :=
  (h.framed hrun rfl).isClean hclean

theorem not_isClean_of_report (h : report cause span env s = .ok (⟨⟩, s')) : ¬s'.IsClean := by
  obtain ⟨hhalted, hrunning⟩ := report_run h
  intro hclean
  cases hs : s.halted with
  | true =>
    have hs' := hclean.running
    rw [hhalted hs, hs] at hs'
    cases hs'
  | false =>
    obtain ⟨diagnostic, _, rfl⟩ := hrunning hs
    have hreports := hclean.diagnostics_eq
    simp at hreports

theorem not_isClean_of_reportUnclosed {what : Unclosed} {start : Nat}
    (h : reportUnclosed what start env s = .ok (⟨⟩, s')) : ¬s'.IsClean := by
  unfold reportUnclosed at h
  obtain ⟨_, _, hsource, h⟩ := bind_run.1 h
  cases hsource
  obtain ⟨_, _, _, h⟩ := bind_run.1 h
  exact not_isClean_of_report h

theorem not_isClean_of_tokenLeaf {tok : Token} {leaf : Node} (hkind : tok.kind = .error)
    (h : tokenLeaf tok env s = .ok (leaf, s')) : ¬s'.IsClean := by
  unfold tokenLeaf at h
  obtain ⟨_, _, _, h⟩ := bind_run.1 h
  rw [if_pos hkind] at h
  obtain ⟨_, _, hreport, h⟩ := bind_run.1 h
  cases h
  exact not_isClean_of_report hreport

/-- What goes on has not hit a limit. -/
theorem run_of_tick (h : tick env s = .ok (true, s')) :
    s' = { s with boundaries := s.boundaries + 1 } ∧ env.cancelled = false ∧
      ∀ limit ∈ env.options.maxStatements, s.boundaries < limit := by
  have hnot : ∀ {cause s₁}, (do halt cause; return false : Parse Bool) env s₁ =
      .ok (true, s') → False := by
    intro cause s₁ h
    obtain ⟨_, _, _, h⟩ := bind_run.1 h
    cases h
  unfold tick at h
  obtain ⟨_, _, hhalted, h⟩ := bind_run.1 h
  cases hhalted
  split at h
  . cases h
  . obtain ⟨_, _, hread, h⟩ := bind_run.1 h
    cases hread
    split at h
    . exact (hnot h).elim
    . next hcancelled =>
      obtain ⟨_, _, hget, h⟩ := bind_run.1 h
      cases hget
      obtain ⟨_, _, hmodify, h⟩ := bind_run.1 h
      cases hmodify
      obtain ⟨_, _, hread, h⟩ := bind_run.1 h
      cases hread
      cases hmax : env.options.maxStatements with
      | none =>
        rw [hmax] at h
        cases h
        exact ⟨rfl, by simpa using hcancelled, by simp⟩
      | some limit =>
        rw [hmax] at h
        dsimp only at h
        split at h
        . exact (hnot h).elim
        . next hlimit =>
          cases h
          refine ⟨rfl, by simpa using hcancelled, ?_⟩
          rintro _ ⟨⟩
          omega

theorem halted_of_enter (h : enter env s = .ok (false, s')) : s'.halted = true := by
  unfold enter at h
  obtain ⟨_, _, hget, h⟩ := bind_run.1 h
  cases hget
  obtain ⟨_, _, hread, h⟩ := bind_run.1 h
  cases hread
  obtain ⟨_, _, hhalted, h⟩ := bind_run.1 h
  cases hhalted
  split at h
  . next hs =>
    cases h
    exact hs
  . split at h
    . obtain ⟨_, _, hhalt, h⟩ := bind_run.1 h
      cases h
      exact halted_of_halt hhalt
    . cases h

theorem nest_run_of_running {body : Parse (Option Node)} {result : Option Node}
    (h : nest body env s = .ok (result, s')) (hs' : s'.halted = false) :
    s.depth < env.options.maxDepth ∧ ∃ s₁,
      body env { s with depth := s.depth + 1 } = .ok (result, s₁) ∧
        s' = { s₁ with depth := s₁.depth - 1 } := by
  unfold nest at h
  obtain ⟨entered, s₁, henter, h⟩ := bind_run.1 h
  cases entered with
  | true =>
    obtain ⟨hdepth, rfl⟩ := enter_run henter
    obtain ⟨_, s₂, hbody, h⟩ := bind_run.1 h
    obtain ⟨_, _, hleave, h⟩ := bind_run.1 h
    cases hleave
    cases h
    exact ⟨hdepth, s₂, hbody, rfl⟩
  | false =>
    obtain ⟨_, _, hnode, h⟩ := bind_run.1 h
    cases hnode
    cases h
    rw [halted_of_enter henter] at hs'
    cases hs'

theorem inMode_run {mode : Mode} {body : Parse α} {a : α} :
    inMode mode body env s = .ok (a, s') ↔ ∃ s₁,
      body env { s with modes := mode :: s.modes } = .ok (a, s₁) ∧
        s' = { s₁ with modes := if s₁.modes.tail.isEmpty then [.command] else s₁.modes.tail } := by
  unfold inMode
  constructor
  . intro h
    obtain ⟨_, _, hpush, h⟩ := bind_run.1 h
    cases hpush
    obtain ⟨_, s₁, hbody, h⟩ := bind_run.1 h
    obtain ⟨_, _, hpop, h⟩ := bind_run.1 h
    cases hpop
    cases h
    exact ⟨s₁, hbody, rfl⟩
  . rintro ⟨s₁, hbody, rfl⟩
    exact bind_run.2 ⟨_, _, rfl, bind_run.2 ⟨a, s₁, hbody, rfl⟩⟩

theorem withFlags_run {flags : Flags} {body : Parse α} {a : α} :
    withFlags flags body env s = .ok (a, s') ↔ ∃ s₁,
      body env { s with flags := flags } = .ok (a, s₁) ∧ s' = { s₁ with flags := s.flags } := by
  unfold withFlags
  constructor
  . intro h
    obtain ⟨_, _, hget, h⟩ := bind_run.1 h
    cases hget
    obtain ⟨_, _, hset, h⟩ := bind_run.1 h
    cases hset
    obtain ⟨_, s₁, hbody, h⟩ := bind_run.1 h
    obtain ⟨_, _, hset, h⟩ := bind_run.1 h
    cases hset
    cases h
    exact ⟨s₁, hbody, rfl⟩
  . rintro ⟨s₁, hbody, rfl⟩
    exact bind_run.2 ⟨_, _, rfl, bind_run.2 ⟨_, _, rfl, bind_run.2 ⟨a, s₁, hbody, rfl⟩⟩⟩

/-! ### Loops -/

section

variable {step : α → Parse (ForInStep α)} {a b : α}

/-- A loop begins with its first step. It ends there if the step is done, and keeps up what all its
steps keep up. -/
theorem repeatStep_first [HasNodes α]
    (h : repeatStep step a (fun _ => remaining) env s = .ok (b, s')) (hclean : s'.IsClean)
    (hframes : ∀ {depth extra a}, Shallow env depth extra a → Frames env depth extra (step a)) :
    s.IsClean ∧ ∃ result s₁, step a env s = .ok (result, s₁) ∧ s₁.IsClean ∧
      (∀ d, result = .done d → d = b ∧ s₁ = s') ∧
      ∀ p : α → Prop, (∀ a, p a → Returns (step a) fun result => p result.value) →
        p result.value → p b := by
  unfold repeatStep at h
  obtain ⟨_, _, hsource, h⟩ := bind_run.1 h
  cases hsource
  unfold repeatUpTo at h
  obtain ⟨_, s₀, hbefore, h⟩ := bind_run.1 h
  rw [Grammar.remaining_run hbefore] at h
  obtain ⟨result, s₁, hstep, h⟩ := bind_run.1 h
  obtain ⟨extra, ha⟩ := Grammar.exists_shallow env s.depth a
  have hstart := (hframes ha _ _ _ hstep rfl).1
  cases result with
  | done d =>
    cases h
    refine ⟨hstart.isClean hclean, _, _, hstep, hclean, ?_, fun _ _ => id⟩
    exact fun _ heq => ⟨(ForInStep.done.inj heq).symm, rfl⟩
  | yield a' =>
    obtain ⟨_, s₂, hafter, h⟩ := bind_run.1 h
    rw [Grammar.remaining_run hafter] at h
    split at h
    . obtain ⟨extra, ha'⟩ := Grammar.exists_shallow env s₁.depth a'
      have hrest := repeatUpTo_frames (fun _ => remaining_frames) (fun _ => hframes) ha'
      have hclean₁ := (hrest _ _ _ _ h rfl).1.isClean hclean
      refine ⟨hstart.isClean hclean₁, _, s₁, hstep, hclean₁, ?_, ?_⟩
      . rintro _ ⟨⟩
      . exact fun p hp ha => repeatUpTo_returns hp _ ha _ _ _ _ h
    . cases h

/-- A loop that collects nodes begins with those that its first step adds. -/
theorem repeatStep_collects {step : List Node → Parse (ForInStep (List Node))}
    {parts nodes : List Node}
    (h : repeatStep step parts (fun _ => remaining) env s = .ok (nodes, s')) (hclean : s'.IsClean)
    (hframes : ∀ {depth extra parts}, Shallow env depth extra parts →
      Frames env depth extra (step parts))
    (hadds : ∀ parts, Returns (step parts) fun result => parts <+: result.value) :
    s.IsClean ∧ ∃ result s₁, step parts env s = .ok (result, s₁) ∧ s₁.IsClean ∧
      result.value <+: nodes ∧ ∀ d, result = .done d → d = nodes := by
  obtain ⟨hstart, result, s₁, hstep, hclean₁, hends, hkeeps⟩ := repeatStep_first h hclean hframes
  refine ⟨hstart, result, s₁, hstep, hclean₁, ?_, fun d hd => (hends d hd).1⟩
  exact hkeeps (result.value <+: ·) (fun parts hparts => (hadds parts).mono fun _ => hparts.trans)
    (List.prefix_refl _)

end

end Parse

namespace Grammar

open Parse

variable {env : Env} {s s₁ s' : State} {inner : Nested} {construct : Construct} {start : Nat}
variable {nodes : List Node}

/-! ### Arithmetic -/

/-- Whatever stands before the closing parentheses is reported. -/
theorem arithmeticJunkStep_clean {result : ForInStep (List Node × Bool)}
    (h : arithmeticJunkStep construct start ([], false) env s = .ok (result, s'))
    (hclean : s'.IsClean) :
    atArithmeticClose env s = .ok (true, s') ∧ result = .done ([], true) := by
  unfold arithmeticJunkStep at h
  obtain ⟨closes, s₁, hcloses, h⟩ := bind_run.1 h
  split at h
  . next htrue =>
    cases h
    exact ⟨htrue ▸ hcloses, rfl⟩
  . obtain ⟨tok, s₂, _, h⟩ := bind_run.1 h
    split at h
    . obtain ⟨_, s₃, hreport, h⟩ := bind_run.1 h
      cases h
      exact absurd hclean (not_isClean_of_reportUnclosed hreport)
    . dsimp only at h
      split at h
      . obtain ⟨_, s₃, hreport, h⟩ := bind_run.1 h
        obtain ⟨leaf, s₄, hleaf, h⟩ := bind_run.1 h
        cases h
        have hclean₃ := (tokenLeaf_frames tok).isClean hleaf hclean
        exact absurd hclean₃ (not_isClean_of_report hreport)
      . next hkind =>
        obtain ⟨leaf, s₃, hleaf, h⟩ := bind_run.1 h
        cases h
        have herror : tok.kind = .error := by simpa using hkind
        exact absurd hclean (not_isClean_of_tokenLeaf herror hleaf)

/-- The construct that the parentheses close shows in reports only. -/
theorem arithmeticClose_clean (h : arithmeticClose construct start env s = .ok (nodes, s'))
    (hclean : s'.IsClean) :
    (∀ construct' start', arithmeticClose construct' start' env s = .ok (nodes, s')) ∧
      ∃ close, nodes = [close] ∧ close.span.stop = s'.pos := by
  unfold arithmeticClose at h
  obtain ⟨⟨junk, closed⟩, s₁, hloop, hrun⟩ := bind_run.1 h
  obtain ⟨extra, hjunk⟩ := exists_shallow env s₁.depth junk
  have hclean₁ : s₁.IsClean := by
    obtain ⟨errors, s₂, herrors, hrun⟩ := bind_run.1 hrun
    apply (errorAround_frames hjunk _ _ _ herrors rfl).1.isClean
    split at hrun
    . obtain ⟨tok, s₃, hpeek, hrun⟩ := bind_run.1 hrun
      obtain ⟨close, s₄, hleaf, hrun⟩ := bind_run.1 hrun
      cases hrun
      exact peek_frames.isClean hpeek ((leafAt_frames rfl _).isClean hleaf hclean)
    . cases hrun
      exact hclean
  have hstep : arithmeticJunkStep construct start ([], false) env s =
      .ok (.done (junk, closed), s₁) := by
    obtain ⟨_, result, s₂, hstep, hclean₂, hends, _⟩ := repeatStep_first hloop hclean₁
      (arithmeticJunkStep_frames construct start)
    obtain ⟨_, rfl⟩ := arithmeticJunkStep_clean hstep hclean₂
    obtain ⟨heq, rfl⟩ := hends _ rfl
    exact heq ▸ hstep
  obtain ⟨hcloses, hdone⟩ := arithmeticJunkStep_clean hstep hclean₁
  cases hdone
  refine ⟨fun construct' start' => ?_, ?_⟩
  . unfold arithmeticClose
    refine bind_run.2 ⟨([], true), s₁, repeatStep_run ?_, hrun⟩
    exact bind_run.2 ⟨true, s₁, hcloses, rfl⟩
  . obtain ⟨errors, s₂, herrors, hrun⟩ := bind_run.1 hrun
    cases herrors
    rw [if_pos rfl] at hrun
    obtain ⟨tok, s₃, hpeek, hrun⟩ := bind_run.1 hrun
    obtain ⟨close, s₄, hleaf, hrun⟩ := bind_run.1 hrun
    cases hleaf
    cases hrun
    exact ⟨_, rfl, rfl⟩

theorem arithmeticBody_clean (h : arithmeticBody inner construct start env s = .ok (nodes, s'))
    (hclean : s'.IsClean) :
    (∀ construct' start', arithmeticBody inner construct' start' env s = .ok (nodes, s')) ∧
      ∃ close ∈ nodes.getLast?, close.span.stop = s'.pos := by
  unfold arithmeticBody at h
  obtain ⟨closes, s₁, hcloses, hrun⟩ := bind_run.1 h
  obtain ⟨expression, s₂, hexpression, hrun⟩ : ∃ expression s₂,
      (if closes then pure [] else requiredExpression inner) env s₁ = .ok (expression, s₂) ∧
        (do return expression ++ (← arithmeticClose construct start)) env s₂ = .ok (nodes, s') := by
    cases closes with
    | true => exact ⟨[], s₁, rfl, hrun⟩
    | false => exact bind_run.1 hrun
  obtain ⟨close, s₃, hclose, hrun⟩ := bind_run.1 hrun
  cases hrun
  obtain ⟨hany, close, rfl, hstop⟩ := arithmeticClose_clean hclose hclean
  refine ⟨fun construct' start' => ?_, close, by simp, hstop⟩
  unfold arithmeticBody
  refine bind_run.2 ⟨closes, s₁, hcloses, ?_⟩
  have hrest : (do return expression ++ (← arithmeticClose construct' start')) env s₂ =
      .ok (expression ++ [close], s') := bind_run.2 ⟨_, _, hany construct' start', rfl⟩
  cases closes with
  | true =>
    cases hexpression
    exact hrest
  | false => exact bind_run.2 ⟨expression, s₂, hexpression, hrest⟩

/-! ### Literals and arguments -/

theorem literalStep_extends (parts : List Node) :
    Returns (literalStep inner parts) fun result => parts <+: result.value := by
  unfold literalStep
  apply returns_bind
  intro tok
  split
  . apply returns_bind
    intro part
    cases part with
    | none => exact returns_pure (List.prefix_refl parts)
    | some part => exact returns_pure (List.prefix_append parts [part])
  . exact returns_pure (List.prefix_refl parts)

theorem argumentStep_extends (parts : List Node) :
    Returns (argumentStep inner parts) fun result => parts <+: result.value := by
  unfold argumentStep
  apply returns_bind
  intro tok
  split
  . apply returns_bind
    intro argument
    cases argument with
    | none => exact returns_pure (List.prefix_refl parts)
    | some argument => exact returns_pure (List.prefix_append parts [argument])
  . apply returns_bind
    intro isInner
    split
    . apply returns_bind
      intro redirect
      cases redirect with
      | none => exact returns_pure (List.prefix_refl parts)
      | some redirect => exact returns_pure (List.prefix_append parts [redirect])
    . exact returns_pure (List.prefix_refl parts)

/-- A literal begins with a fragment, which it is unless it joins several. -/
theorem literal_clean {part : Node} (hinner : inner.Framed env)
    (h : literal inner env s = .ok (some part, s')) (hclean : s'.IsClean) :
    ∃ first s₁, fragment inner env s = .ok (some first, s₁) ∧ s₁.IsClean ∧
      (part.kind ≠ .concatenation → first = part) := by
  unfold literal at h
  obtain ⟨first, s₁, hfragment, h⟩ := bind_run.1 h
  cases first with
  | none => cases h
  | some first =>
    obtain ⟨parts, s₂, hloop, h⟩ := bind_run.1 h
    suffices hend : s₂.IsClean ∧ (part.kind ≠ .concatenation → parts = [part]) by
      obtain ⟨hclean₁, _, _, hstep, _, hparts, _⟩ :=
        repeatStep_collects hloop hend.1 (literalStep_frames hinner) literalStep_extends
      refine ⟨first, s₁, hfragment, hclean₁, fun hkind => ?_⟩
      obtain ⟨_, heq⟩ := (literalStep_extends [first] _ _ _ _ hstep).trans hparts
      rw [hend.2 hkind] at heq
      cases heq
      rfl
    have hjoined : (do return some (← node .concatenation parts) : Parse (Option Node)) env s₂ =
        .ok (some part, s') → s₂.IsClean ∧ (part.kind ≠ .concatenation → parts = [part]) := by
      intro h
      obtain ⟨joined, s₃, hnode, h⟩ := bind_run.1 h
      cases h
      obtain ⟨extra, hparts⟩ := exists_shallow env s₂.depth parts
      refine ⟨(node_frames rfl hparts _ _ _ hnode rfl).1.isClean hclean, fun hkind => ?_⟩
      exact absurd (kind_returns _ _ _ _ hnode) hkind
    match parts, h with
    | [only], h =>
      cases h
      exact ⟨hclean, fun _ => rfl⟩
    | [], h => exact hjoined h
    | _ :: _ :: _, h => exact hjoined h

theorem fragment_clean {part : Node} (h : fragment inner env s = .ok (some part, s'))
    (hclean : s'.IsClean) : s.depth < env.options.maxDepth ∧ ∃ tok s₁ s₂,
      peek env s = .ok (tok, s₁) ∧ fragmentOf inner tok env { s₁ with depth := s₁.depth + 1 } =
        .ok (part, s₂) ∧ s' = { s₂ with depth := s₂.depth - 1 } := by
  unfold fragment at h
  obtain ⟨tok, s₁, hpeek, h⟩ := bind_run.1 h
  split at h
  . obtain ⟨hdepth, s₂, hbody, hs'⟩ := nest_run_of_running h hclean.running
    obtain ⟨_, s₃, hpart, hbody⟩ := bind_run.1 hbody
    cases hbody
    have hframed := peek_frames.framed hpeek rfl
    exact ⟨hframed.depth_eq ▸ hdepth, tok, s₁, _, hpeek, hpart, hs'⟩
  . cases h

/-! ### Statements -/

theorem statementStep_returns_joined (tier : Tier) (left : Node) :
    Returns (statementStep inner tier left) fun result =>
      result.value = left ∨ result.value.kind.isJoined := by
  unfold statementStep
  apply returns_bind
  intro tok
  split
  . exact returns_pure (.inl rfl)
  . split
    . exact returns_pure (.inl rfl)
    . split
      . apply returns_bind
        intro targets
        refine kind_returns.bind fun node hnode => returns_pure (.inr ?_)
        rw [ForInStep.value, hnode]
        rfl
      . unfold joined
        simp only [bind_assoc]
        iterate 3 apply returns_bind; intro
        refine kind_returns.bind fun node hnode => returns_pure (.inr ?_)
        rw [ForInStep.value, hnode]
        split <;> rfl

theorem statement_clean {tier : Tier} {node : Node} (hinner : inner.Framed env)
    (h : statement inner tier env s = .ok (some node, s')) (hclean : s'.IsClean)
    (hkind : node.kind.isJoined = false) :
    ∃ s₁, primaryStatement inner env s = .ok (some node, s₁) ∧ s₁.IsClean := by
  unfold statement at h
  obtain ⟨result, s₁, hprimary, h⟩ := bind_run.1 h
  cases result with
  | none => cases h
  | some left =>
    obtain ⟨_, s₂, hloop, h⟩ := bind_run.1 h
    cases h
    obtain ⟨hclean₁, _, _, hstep, _, _, hkeeps⟩ :=
      repeatStep_first hloop hclean (statementStep_frames hinner tier)
    have hnode := hkeeps (fun node => node = left ∨ node.kind.isJoined)
      (fun node hnode => (statementStep_returns_joined tier node).mono fun result hresult => by
        obtain heq | hjoined := hresult
        . exact heq ▸ hnode
        . exact .inr hjoined)
      (statementStep_returns_joined tier left _ _ _ _ hstep)
    obtain rfl : node = left := hnode.resolve_right (by simp [hkind])
    exact ⟨s₁, hprimary, hclean₁⟩

theorem forceProgress_extends (nodes : List Node) :
    Returns (forceProgress nodes) fun result => nodes <+: result.value := by
  unfold forceProgress
  apply returns_bind
  intro tok
  split
  . exact returns_pure (List.prefix_refl nodes)
  . iterate 2 apply returns_bind; intro
    exact returns_pure (List.prefix_append nodes _)

theorem listStep_extends (ctx : ListContext) (nodes : List Node) :
    Returns (listStep inner ctx nodes) fun result => nodes <+: result.value := by
  intro env s result s' h
  rw [listStep_eq, map_eq_pure_bind] at h
  obtain ⟨more, s₁, _, h⟩ := bind_run.1 h
  cases h
  cases more with
  | done more => exact List.prefix_append nodes more
  | yield more => exact List.prefix_append nodes more

theorem listItemStep_clean {ctx : ListContext} {result : ForInStep (List Node)} {node : Node}
    (hinner : inner.Framed env) (hsome : ∀ s₁, statement inner .list env s ≠ .ok (none, s₁))
    (h : listItemStep inner ctx [] env s = .ok (result, s')) (hclean : s'.IsClean)
    (hresult : result.value <+: [node]) :
    ∃ s₁, statement inner .list env s = .ok (some node, s₁) ∧ s₁.IsClean := by
  unfold listItemStep at h
  obtain ⟨_, _, hposition, h⟩ := bind_run.1 h
  cases hposition
  obtain ⟨found, s₁, hstatement, h⟩ := bind_run.1 h
  cases found with
  | none => exact absurd hstatement (hsome s₁)
  | some statement =>
    obtain ⟨terminator, s₂, hterminator, h⟩ := bind_run.1 h
    have hclean₁ : s₂.IsClean → s₁.IsClean := (terminator?_frames hinner ctx).isClean hterminator
    suffices hfirst : s₂.IsClean ∧ [statement] <+: result.value by
      obtain ⟨_, heq⟩ := hfirst.2.trans hresult
      cases heq
      exact ⟨s₁, hstatement, hclean₁ hfirst.1⟩
    cases terminator with
    | none =>
      cases h
      exact ⟨hclean, List.prefix_refl _⟩
    | some terminator =>
      obtain ⟨_, _, hposition, h⟩ := bind_run.1 h
      cases hposition
      obtain ⟨_, _, hhalted, h⟩ := bind_run.1 h
      cases hhalted
      have hprefix : [statement] <+: [] ++ statement :: terminator := ⟨terminator, rfl⟩
      split at h
      . obtain ⟨extra, hnodes⟩ := exists_shallow env s₂.depth ([] ++ statement :: terminator)
        exact ⟨(forceProgress_frames hnodes _ _ _ h rfl).1.isClean hclean,
          hprefix.trans (forceProgress_extends _ _ _ _ _ h)⟩
      . cases h
        exact ⟨hclean, hprefix⟩

end Grammar

end ShellTree
