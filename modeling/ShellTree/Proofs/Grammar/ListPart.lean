import ShellTree.Proofs.Script
import ShellTree.Proofs.Tree

/-!
This module contains the lines of a script. A list of statements is read part by part, so that from
the end of a line on it is read as a list of its own.
-/

namespace ShellTree
namespace Grammar

open Parse Source

variable {env : Env} {level room : Nat} {inner : Nested} {ctx : ListContext} {s s' : State}
variable {nodes : List Node}

/-! ### Parts of a list -/

def addBefore (before : List Node) : ForInStep (List Node) → ForInStep (List Node)
  | .done nodes => .done (before ++ nodes)
  | .yield nodes => .yield (before ++ nodes)

theorem forceProgress_eq (before nodes : List Node) :
    forceProgress (before ++ nodes) = addBefore before <$> forceProgress nodes := by
  unfold forceProgress
  simp only [map_bind, apply_ite (addBefore before <$> ·), map_pure, addBefore,
    List.append_assoc]

theorem listItemStep_eq (nodes : List Node) :
    listItemStep inner ctx nodes = addBefore nodes <$> listItemStep inner ctx [] := by
  unfold listItemStep
  simp only [map_bind]
  apply bind_congr
  intro start
  apply bind_congr
  intro result
  cases result with
  | none => simp only [map_bind, map_pure, addBefore, List.nil_append]
  | some statement =>
    dsimp only
    simp only [map_bind]
    apply bind_congr
    intro result
    cases result with
    | none => simp only [map_pure, addBefore, List.nil_append]
    | some terminator =>
      simp only [map_bind, apply_ite (addBefore nodes <$> ·), map_pure, addBefore,
        List.nil_append, ← forceProgress_eq]

theorem listStep_eq (nodes : List Node) :
    listStep inner ctx nodes = addBefore nodes <$> listStep inner ctx [] := by
  unfold listStep
  simp only [map_bind, apply_ite (addBefore nodes <$> ·), map_pure, addBefore, List.append_nil,
    List.nil_append]
  rw [← listItemStep_eq]

/-- What a list of statements reads from a state on, with so many steps. -/
abbrev listFrom (inner : Nested) (ctx : ListContext) (fuel : Nat) : Parse (List Node) :=
  repeatUpTo (listStep inner ctx) (fun _ => remaining) fuel []

theorem repeatUpTo_listStep (fuel : Nat) (nodes : List Node) :
    repeatUpTo (listStep inner ctx) (fun _ => remaining) fuel nodes =
      (nodes ++ ·) <$> listFrom inner ctx fuel := by
  unfold listFrom
  induction fuel generalizing nodes with
  | zero => rfl
  | succ fuel ih =>
    unfold repeatUpTo
    rw [map_bind]
    apply bind_congr
    intro left
    rw [listStep_eq, map_bind, bind_map_left]
    apply bind_congr
    intro result
    cases result with
    | done more => simp only [addBefore, map_pure]
    | yield more =>
      simp only [addBefore, map_bind]
      apply bind_congr
      intro less
      rw [apply_ite ((nodes ++ ·) <$> ·), ih (nodes ++ more), ih more]
      simp only [Functor.map_map, List.append_assoc]
      rfl

/-! ### What ends a line -/

def IsLineEnd (node : Node) : Prop := node.kind = .token "\n"

theorem not_isLineEnd {node : Node} (h : node.kind.isSeparator = false) : ¬IsLineEnd node := by
  intro hend
  rw [hend] at h
  cases h

/-- The line break has just been read, and no bodies come after it. -/
structure AtLineEnd (env : Env) (line : Node) (s : State) : Prop where
  pos_eq : s.pos = line.span.stop
  pending_eq : s.pending = []
  running : s.halted = false

/-- A line break among the nodes is the last of them, unless bodies follow it. -/
def IsPart (env : Env) (nodes : List Node) (s' : State) : Prop :=
  ∀ before line after, nodes = before ++ line :: after → IsLineEnd line →
    env.source.Spells line.span.start line.span.stop ['\n'] ∧
      (after = [] ∧ AtLineEnd env line s' ∨ ∃ body ∈ after.head?, body.kind = .heredocBody)

theorem isPart_of_not (h : ∀ node ∈ nodes, ¬IsLineEnd node) : IsPart env nodes s' := by
  rintro before line after rfl hline
  exact absurd hline (h line (by simp))

theorem IsPart.cons {statement : Node} (hstatement : ¬IsLineEnd statement)
    (h : IsPart env nodes s') : IsPart env (statement :: nodes) s' := by
  intro before line after heq hline
  cases before with
  | nil =>
    cases heq
    exact absurd hline hstatement
  | cons first before =>
    cases heq
    exact h before line after rfl hline

theorem isPart_of_leaf {leaf : Node}
    (hspells : env.source.Spells leaf.span.start leaf.span.stop ['\n'])
    (hnodes : ∀ node ∈ nodes, ¬IsLineEnd node)
    (hafter : nodes = [] ∧ AtLineEnd env leaf s' ∨
      ∃ body ∈ nodes.head?, body.kind = .heredocBody) : IsPart env (leaf :: nodes) s' := by
  intro before line after heq hline
  cases before with
  | nil =>
    cases heq
    exact ⟨hspells, hafter⟩
  | cons first before =>
    cases heq
    exact absurd hline (hnodes line (by simp))

theorem AreBodies.not_isLineEnd (h : AreBodies nodes) : ∀ node ∈ nodes, ¬IsLineEnd node := by
  intro node hnode hend
  cases h node hnode with
  | inl hbody => cases hend.symm.trans hbody
  | inr hdelimiter => cases hend.symm.trans hdelimiter

theorem pendingBodies_meets (hinner : inner.Fits env level) (h : Within env level 2 s) :
    Meets env s (pendingBodies inner) fun nodes s' => AreBodies nodes ∧
      (nodes = [] ∧ s' = { s with pending := [] } ∨
        ∃ body ∈ nodes.head?, body.kind = .heredocBody) := by
  unfold pendingBodies
  rw [meets_bind_get, meets_bind_set]
  cases hpending : s.pending with
  | nil => exact ⟨by simp [AreBodies], .inl ⟨rfl, rfl⟩⟩
  | cons request requests =>
    have hs : Sound env { s with pending := [] } := { h.sound with pending := by simp }
    have hreads := bodies_reads hinner s.pending hs (.done h.sound.boundary) h.sound.pending
      h.toRoom
    rw [← hpending]
    apply (hreads.and_returns (bodies_returns s.pending s.pos)).mono
    rintro nodes s' ⟨_, hbodies, hfirst⟩
    exact ⟨hbodies, .inr (hfirst (by simp [hpending]))⟩

theorem lineBreak?_part (hinner : inner.Fits env level) (h : Within env (level + 1) room s) :
    Meets env s (lineBreak? inner true) fun result s' => ∀ nodes ∈ result, IsPart env nodes s' := by
  unfold lineBreak?
  apply (peekPlain_meets h.sound).bind
  intro tok s₁ hpeek
  split
  . next hkind =>
    have hne : tok.kind ≠ .eof := by simp [hkind]
    have hwhole : tok.IsWhole := by simp [Token.IsWhole, hkind]
    apply (tokenLeaf_meets hpeek.stays.sound hpeek.next fun _ => hwhole).bind
    intro leaf s₂ hleaf
    have hwithin := (h.stays hpeek.stays).taken hpeek.next hne hleaf
    apply (pendingBodies_meets hinner hwithin).bind
    rintro nodes s₃ ⟨hbodies, hafter⟩ _ ⟨⟩
    have hspells := hpeek.next.spells
    rw [hpeek.next.newline_eq hkind, ← hleaf.span_eq] at hspells
    refine isPart_of_leaf hspells hbodies.not_isLineEnd (hafter.imp_left ?_)
    rintro ⟨rfl, rfl⟩
    refine ⟨rfl, ?_, rfl, ?_⟩
    . rw [hleaf.span_eq]
      exact hleaf.pos_eq
    . exact hleaf.halted_eq.trans (hpeek.next.running hne)
  . rintro _ ⟨⟩

theorem not_isLineEnd_of_isError {node : Node} (h : node.kind = .error) : ¬IsLineEnd node :=
  fun hend => by cases hend.symm.trans h

theorem not_isLineEnd_of_terminator {leaf : Node} {tok : Token}
    (hop : tok.isOneOf Operator.terminators) (hleaf : leaf.kind = kindOf tok.kind) :
    ¬IsLineEnd leaf := by
  intro hend
  rw [IsLineEnd, hleaf] at hend
  unfold Token.isOneOf at hop
  split at hop
  . next op hkind =>
    rw [hkind] at hend
    cases hend
    revert hop
    decide
  . cases hop

theorem terminator?_part (hinner : inner.Fits env level)
    (hwithin : Within env (level + 1) (room + 1) s) (hflags : s.flags = {})
    (hproceeds : s.halted = true ∨ s.depth < env.options.maxDepth) (ctx : ListContext) :
    Meets env s (terminator? inner ctx) fun result s' => ∀ nodes ∈ result, IsPart env nodes s' := by
  unfold terminator?
  apply (peekPlain_meets hwithin.sound).bind
  intro tok s₁ hpeek
  have hwithin₁ := hwithin.stays hpeek.stays
  split
  . next hop =>
    apply ((tokenLeaf_meets hwithin₁.sound hpeek.next fun _ =>
      isWhole_of_isOneOf hop).and_returns tokenLeaf_returns).bind
    rintro leaf s₂ ⟨_, hleaf⟩ _ ⟨⟩
    exact isPart_of_not (by simpa using not_isLineEnd_of_terminator hop hleaf)
  . split
    . apply (lineBreak?_part hinner hwithin₁).bind
      rintro result s₂ hresult _ ⟨⟩
      cases result with
      | none => exact isPart_of_not (by simp)
      | some nodes => exact hresult nodes rfl
    . split
      . rintro _ ⟨⟩
      . next heof =>
        rw [meets_bind_source]
        split
        . rintro _ ⟨⟩
          exact isPart_of_not (by simp)
        . have hrunning := hpeek.next.running (mt isEof_iff.2 heof)
          rw [hpeek.stays.halted_eq] at hrunning
          have hdepth : s₁.depth < env.options.maxDepth := by
            rw [hpeek.stays.depth_eq]
            simpa [hrunning] using hproceeds
          have hflags₁ := hpeek.stays.flags_eq.trans hflags
          have hmeets := recover_meets hinner hwithin₁ hflags₁ hdepth ctx
          apply (hmeets.and_returns recover_returns).bind
          rintro nodes s₂ ⟨_, herrors⟩ _ ⟨⟩
          exact isPart_of_not fun node hnode => not_isLineEnd_of_isError (herrors node hnode)

/-! ### Steps -/

/-- A step adds a part to the list, or ends the list without a line break. -/
def AddsPart (env : Env) : ForInStep (List Node) → State → Prop
  | .done nodes, _ => ∀ node ∈ nodes, ¬IsLineEnd node
  | .yield nodes, s' => IsPart env nodes s'

theorem IsPart.not_isLineEnd (h : IsPart env nodes s') (hreads : Reads env s nodes s')
    (hpos : s'.pos = s.pos) : ∀ node ∈ nodes, ¬IsLineEnd node := by
  -- a line break is a character, which would have been taken
  intro line hline hend
  obtain ⟨before, after, rfl⟩ := List.append_of_mem hline
  have hlt := (h before line after rfl hend).1.lt (by simp)
  have hwithin := hreads.tiles.within line hline
  omega

theorem forceProgress_returns (h : ∀ node ∈ nodes, ¬IsLineEnd node) :
    Returns (forceProgress nodes) fun result => ∀ node ∈ result.value, ¬IsLineEnd node := by
  unfold forceProgress
  apply returns_bind
  intro tok
  split
  . exact returns_pure h
  . apply returns_bind
    intro leaf
    refine kind_returns.bind fun node hnode => returns_pure ?_
    simp only [ForInStep.value, List.mem_append, List.mem_singleton, or_imp, forall_and, forall_eq]
    exact ⟨h, not_isLineEnd_of_isError hnode⟩

theorem addsPart_of_not {result : ForInStep (List Node)}
    (h : ∀ node ∈ result.value, ¬IsLineEnd node) : AddsPart env result s' := by
  cases result with
  | done nodes => exact h
  | yield nodes => exact isPart_of_not h

theorem listItemStep_part (hinner : inner.Fits env level) (hwithin : Within env (level + 1) 2 s)
    (hflags : s.flags = {}) (ctx : ListContext) :
    Meets env s (listItemStep inner ctx []) (AddsPart env) := by
  unfold listItemStep
  rw [meets_bind_position]
  apply ((statement_meets hinner hwithin hflags .list).and_returns (statement_returns .list)).bind
  rintro result s₁ ⟨hresult, hstatement⟩
  cases result with
  | none =>
    obtain ⟨hstays, hdepth⟩ := hresult
    have hdepth₁ : s₁.depth < env.options.maxDepth := by rwa [hstays.depth_eq]
    have hmeets := recover_meets hinner (hwithin.stays hstays) (hstays.flags_eq.trans hflags)
      hdepth₁ ctx
    apply (hmeets.and_returns recover_returns).bind
    rintro junk s₂ ⟨_, herrors⟩
    exact isPart_of_not fun node hnode => not_isLineEnd_of_isError (herrors node hnode)
  | some statement =>
    obtain ⟨hreads, hproceeds, _, _, hprogresses⟩ := hresult
    have hstatement := not_isLineEnd (hstatement statement rfl)
    have hwithin₁ := hwithin.reads hreads
    have hflags₁ := hreads.flags_eq.trans hflags
    have hproceeds₁ : s₁.halted = true ∨ s₁.depth < env.options.maxDepth := by
      rwa [hreads.depth_eq]
    apply ((terminator?_meets hinner hwithin₁ hflags₁ hproceeds₁ ctx).and
      (terminator?_part hinner hwithin₁ hflags₁ hproceeds₁ ctx)).bind
    rintro result s₂ ⟨hresult, hpart⟩
    cases result with
    | none => exact List.forall_mem_singleton.2 hstatement
    | some terminator =>
      obtain ⟨hmore, hprogresses⟩ := hresult.progresses hreads hprogresses
      have hpart := (hpart terminator rfl).cons hstatement
      dsimp only
      rw [meets_bind_position, meets_bind_isHalted]
      split
      . next hstuck =>
        -- progress is forced only where no line break was read
        simp only [Bool.and_eq_true, decide_eq_true_eq, Bool.not_eq_eq_eq_not, Bool.not_true]
          at hstuck
        have hnodes := hpart.not_isLineEnd hmore hstuck.1
        have hreported := hprogresses.stuck hstuck.1 hstuck.2
        have hmeets : Meets env s₂ (forceProgress (statement :: terminator))
            (ListSteps env ctx s s []) := forceProgress_meets hmore hreported hmore.remaining_le ctx
        apply (hmeets.and_returns (forceProgress_returns hnodes)).mono
        rintro result s₃ ⟨_, hresult⟩
        exact addsPart_of_not hresult
      . exact hpart

theorem listStep_part (hinner : inner.Fits env level) (hwithin : Within env (level + 1) 2 s)
    (hflags : s.flags = {}) (ctx : ListContext) :
    Meets env s (listStep inner ctx []) (AddsPart env) := by
  unfold listStep
  apply (tick_meets hwithin.sound).bind
  intro proceeds s₁ hticked
  cases proceeds with
  | false => exact List.forall_mem_nil _
  | true =>
    obtain ⟨hticked, _⟩ : Stays env s s₁ ∧ s.halted = false := hticked
    rw [if_pos rfl]
    apply (peekStatement_meets hticked.sound).bind
    intro tok s₂ hpeek
    have hstays := hticked.trans hpeek.stays
    have hwithin₂ := hwithin.stays hstays
    split
    . exact List.forall_mem_nil _
    . split
      . apply ((lineBreak?_meets hinner hwithin₂ false).and_returns lineBreak?_returns).bind
        rintro result s₃ ⟨_, hresult⟩
        apply isPart_of_not
        cases result with
        | none => exact List.forall_mem_nil _
        | some nodes => exact (hresult nodes rfl).not_isLineEnd
      . rw [meets_bind_source]
        split
        . next hcloser =>
          split
          . have hmeets := strayCloser_reads hwithin₂.sound hpeek.next (ne_eof_of_endsList hcloser)
            apply (hmeets.and_returns (strayCloser_returns tok)).bind
            rintro node s₃ ⟨_, hnode⟩
            exact isPart_of_not (List.forall_mem_singleton.2 (not_isLineEnd_of_isError hnode))
          . exact List.forall_mem_nil _
        . exact listItemStep_part hinner hwithin₂ (hstays.flags_eq.trans hflags) ctx

/-! ### The rest of a list -/

theorem remaining_run {left : Nat} (h : remaining env s = .ok (left, s')) : s' = s := by
  cases h
  rfl

/-- A run of a list is a step, and a run of the rest unless the step has ended the list. -/
theorem listFrom_run {fuel : Nat} (h : listFrom inner ctx (fuel + 1) env s = .ok (nodes, s')) :
    listStep inner ctx [] env s = .ok (.done nodes, s') ∨
      ∃ part rest s₁, nodes = part ++ rest ∧
        listStep inner ctx [] env s = .ok (.yield part, s₁) ∧
        listFrom inner ctx fuel env s₁ = .ok (rest, s') := by
  unfold listFrom repeatUpTo at h
  obtain ⟨before, s₀, hbefore, hrun⟩ := bind_run.1 h
  rw [remaining_run hbefore] at hrun
  obtain ⟨result, s₁, hstep, hrun⟩ := bind_run.1 hrun
  cases result with
  | done nodes =>
    cases hrun
    exact .inl hstep
  | yield part =>
    obtain ⟨after, s₂, hafter, hrun⟩ := bind_run.1 hrun
    rw [remaining_run hafter] at hrun
    split at hrun
    . rw [repeatUpTo_listStep, map_eq_pure_bind] at hrun
      obtain ⟨rest, s₃, hrest, hrun⟩ := bind_run.1 hrun
      cases hrun
      exact .inr ⟨part, rest, s₁, rfl, hstep, hrest⟩
    . cases hrun

/-- Behind a line break a list is read as a list of its own. -/
theorem listFrom_split (hinner : inner.Fits env level) {fuel : Nat}
    (hwithin : Within env (level + 1) 2 s) (hflags : s.flags = {}) {front back : List Node}
    {line : Node} (hrun : listFrom inner ctx fuel env s = .ok (front ++ line :: back, s'))
    (hline : IsLineEnd line) (hback : ∀ node ∈ back.head?, node.kind ≠ .heredocBody) :
    ∃ fuel' ≤ fuel, ∃ s₁, Reached env s s₁ ∧ AtLineEnd env line s₁ ∧
      env.source.Spells line.span.start line.span.stop ['\n'] ∧
      listFrom inner ctx fuel' env s₁ = .ok (back, s') := by
  induction fuel generalizing s front with
  | zero => cases hrun
  | succ fuel ih =>
    have hparts := listStep_part hinner hwithin hflags ctx
    have hsteps := listStep_meets hinner hwithin hflags ctx (.refl hwithin.sound)
    obtain hstep | ⟨part, rest, s₁, heq, hstep, hrest⟩ := listFrom_run hrun
    . have hnone := hparts.of_run hstep
      exact absurd hline (hnone line (by simp))
    . have hpart := hparts.of_run hstep
      have hreads : Reads env s part s₁ := (hsteps.of_run hstep).1
      have hlater : ∀ front', rest = front' ++ line :: back →
          ∃ fuel' ≤ fuel + 1, ∃ s₁, Reached env s s₁ ∧ AtLineEnd env line s₁ ∧
            env.source.Spells line.span.start line.span.stop ['\n'] ∧
            listFrom inner ctx fuel' env s₁ = .ok (back, s') := by
        rintro front' rfl
        obtain ⟨fuel', hle, s₂, hreached, hfound⟩ :=
          ih (hwithin.reads hreads) (hreads.flags_eq.trans hflags) hrest
        exact ⟨fuel', Nat.le_succ_of_le hle, s₂, hreads.toReached.trans hreached, hfound⟩
      obtain ⟨found, hfound, hback'⟩ | ⟨front', _, hrest'⟩ := List.append_eq_append_iff.1 heq
      . cases found with
        | nil => exact hlater [] hback'.symm
        | cons first after =>
          rw [List.cons_append, List.cons.injEq] at hback'
          obtain ⟨rfl, rfl⟩ := hback'
          -- the part ends with the line break, since what follows is no body
          obtain ⟨hspells, hends⟩ := hpart front line after hfound hline
          obtain ⟨rfl, hends⟩ | ⟨body, hbody, hkind⟩ := hends
          . exact ⟨fuel, Nat.le_succ fuel, s₁, hreads.toReached, hends, hspells, hrest⟩
          . refine absurd hkind (hback body ?_)
            rw [List.head?_append, hbody]
            rfl
      . exact hlater front' hrest'

end Grammar
end ShellTree
