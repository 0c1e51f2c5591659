import ShellTree.Program
import ShellTree.Proofs.Grammar.StatementList

/-!
This module contains the correctness of a whole script. The constructs are tied together by
induction on the level, and the size of the source bounds the level that a script needs.
-/

namespace ShellTree
namespace Grammar

open Parse Source

variable {env : Env} {level : Nat} {inner : Nested} {s s' : State}

theorem constructs_fits (hinner : inner.Fits env level) :
    (constructs inner).Fits env (level + 1) where
  statements hwithin hflags := statements_meets hinner hwithin hflags _
  statement hwithin hflags := statement_meets hinner hwithin hflags _
  redirect hwithin := redirect_meets hinner hwithin
  literal hwithin := literal_meets hinner hwithin
  fragment hwithin := fragment_meets hinner hwithin
  arithmetic hwithin := arithmetic_meets hinner hwithin _
  arithmeticOperand hwithin := arithmeticOperand_meets hinner hwithin
  test hwithin := test_meets hinner hwithin
  testOperand hwithin := testOperand_meets hinner hwithin
  encloses :=
    ⟨statements_returns, redirect_returns, fun _ _ => fragment_ends hinner.encloses⟩

theorem nested_fits (env : Env) (level : Nat) : (nested level).Fits env level := by
  -- no bytes are left below level zero, so that nothing is called there
  induction level with
  | zero => exact Nested.none_fits env
  | succ level ih => exact constructs_fits ih

/-- The requests are reported to lack their bodies. -/
structure ReportsRequests (env : Env) (requests : List Heredoc.Request) (s s' : State) : Prop where
  sound : Sound env s'
  eq : s' = { s with diagnostics := s'.diagnostics }
  reports : s.diagnostics <+: s'.diagnostics
  missingEnds_eq : missingEnds s'.diagnostics = missingEnds s.diagnostics
  missingBodies_eq : s.halted = false →
    missingBodies s'.diagnostics = missingBodies s.diagnostics ++ requests.map (·.delimiter)

theorem reportRequest_meets (request : Heredoc.Request) (h : Sound env s)
    (hrequest : request.redirectStart ≤ env.source.size) :
    Meets env s (reportUnclosed (.heredocStart request.delimiter) request.redirectStart)
      fun _ s' => ReportsRequests env [request] s s' := by
  unfold reportUnclosed
  rw [meets_bind_source, meets_bind_spanBetween hrequest]
  apply report_appends h (fun _ _ => unterminated_sound hrequest) rfl
  . intro hhalted
    exact ⟨h, rfl, List.prefix_refl _, rfl, by simp [hhalted]⟩
  . intro line column hrunning hsound
    refine ⟨hsound, rfl, List.prefix_append _ _, ?_, fun _ => ?_⟩
    . simp [missingEnds, Cause.missingEnd?]
    . simp [missingBodies, Cause.missingBody?]

theorem reportRequests_meets (requests : List Heredoc.Request) (h : Sound env s)
    (hrequests : ∀ request ∈ requests, request.redirectStart ≤ env.source.size) :
    Meets env s (requests.forM fun request =>
      reportUnclosed (.heredocStart request.delimiter) request.redirectStart)
      fun _ s' => ReportsRequests env requests s s' := by
  induction requests generalizing s with
  | nil => exact ⟨h, rfl, List.prefix_refl _, rfl, by simp⟩
  | cons request requests ih =>
    simp only [List.mem_cons, forall_eq_or_imp] at hrequests
    unfold List.forM
    apply (reportRequest_meets request h hrequests.1).bind
    intro _ s₁ hfirst
    apply (ih hfirst.sound hrequests.2).mono
    intro _ s₂ hmore
    refine ⟨hmore.sound, by rw [hmore.eq, hfirst.eq], hfirst.reports.trans hmore.reports,
      hmore.missingEnds_eq.trans hfirst.missingEnds_eq, fun hrunning => ?_⟩
    have hrunning₁ : s₁.halted = false := by rw [hfirst.eq]; exact hrunning
    rw [hmore.missingBodies_eq hrunning₁, hfirst.missingBodies_eq hrunning, List.append_assoc]
    rfl

theorem reportPending_meets (h : Sound env s) :
    Meets env s reportPending fun _ s' =>
      ReportsRequests env s.pending { s with pending := [] } s' := by
  unfold reportPending
  rw [meets_bind_get, meets_bind_set]
  exact reportRequests_meets s.pending { h with pending := by simp } h.pending

theorem unread_meets (h : Sound env s) (hends : s.halted = true ∨
    Skips env.source s.comments.spans s.pos env.source.size) :
    Meets env s unread fun nodes s' => s' = s ∧
      Tiles env.source s.comments.spans nodes s.pos env.source.size ∧ Node.AllBound nodes ∧
      Node.AllGenuine env.source nodes ∧ (s.halted = false → nodes = []) := by
  have hle := h.pos_le_size
  unfold unread
  rw [meets_bind_get, meets_bind_source]
  dsimp only
  split
  . next hunread =>
    rw [meets_bind_spanBetween hle]
    obtain ⟨cs, _, hcs⟩ := h.boundary.exists_tail?
    have hgenuine : (Node.leaf .error ⟨s.pos, env.source.size, hle⟩).IsGenuine env.source :=
      Node.isGenuine_leaf (by simp) (by simp) (by simp [NodeKind.canBeEmpty]) (by simp)
    refine ⟨rfl, .leaf hcs, .leaf _ _, .wrap .nil hgenuine, fun hrunning => ?_⟩
    simp [hrunning] at hunread
  . next hread =>
    refine ⟨rfl, tiles_nil.2 ?_, .nil, .nil, fun _ => rfl⟩
    cases hends with
    | inl hhalted =>
      simp only [hhalted, Bool.true_and, decide_eq_true_eq] at hread
      have hpos : s.pos = env.source.size := by omega
      exact hpos ▸ .done h.boundary
    | inr hskips => exact hskips

structure IsScript (env : Env) (root : Node) (s : State) : Prop where
  sound : Sound env s
  kind_eq : root.kind = .program
  span_eq : root.span = ⟨0, env.source.size, Nat.zero_le _⟩
  tiles : Tiles env.source s.comments.spans root.children 0 env.source.size
  bound : Node.AllBound root.children
  genuine : Node.AllGenuine env.source root.children
  settled : s.halted = false → Node.AllSettled env.source s.diagnostics root.children
  balanced : s.halted = false → Balanced env.source root.children s.diagnostics

theorem sound_initial (env : Env) : Sound env {} where
  boundary := boundary_zero
  modes_ne_nil := by simp
  pending := by simp
  comments := ⟨by simp, by simp⟩
  reports := by simp
  running := by simp
  halted := by simp

/-- A script is read to its end, whatever it is. -/
theorem script_meets (env : Env) : Meets env {} script (IsScript env) := by
  have hwithin : Within env (env.source.size + 2) 2 {} :=
    ⟨⟨by simp, by simp⟩, sound_initial env⟩
  unfold script
  rw [meets_bind_source]
  apply ((nested_fits env (env.source.size + 2)).statements hwithin rfl).bind
  intro nodes s₁ hnodes
  apply (reportPending_meets hnodes.sound).bind
  intro _ s₂ hreported
  have hpos : s₂.pos = s₁.pos := by rw [hreported.eq]
  have hhalted : s₂.halted = s₁.halted := by rw [hreported.eq]
  have hcomments : s₂.comments = s₁.comments := by rw [hreported.eq]
  have hends : s₂.halted = true ∨
      Skips env.source s₂.comments.spans s₂.pos env.source.size := by
    rw [hhalted, hpos, hcomments]
    exact hnodes.ends rfl
  apply (unread_meets hreported.sound hends).bind
  rintro rest _ ⟨rfl, hrest, hbound, hgenuine, hnone⟩
  rw [meets_bind_spanBetween (Nat.zero_le _)]
  -- reports move nothing, so that the rest follows the nodes of the list
  rw [hpos, hcomments] at hrest
  refine ⟨hreported.sound, rfl, rfl, ?_, hnodes.bound.append hbound,
    hnodes.genuine.append hgenuine, fun hrunning => ?_, fun hrunning => ?_⟩
  . rw [hcomments]
    exact hnodes.tiles.append hrest
  all_goals
    rw [hnone hrunning, List.append_nil]
    rw [hhalted] at hrunning
    obtain ⟨hsettled, hledger⟩ := hnodes.accounts hrunning
  . exact hsettled.mono hreported.reports
  . exact hledger.balanced hreported.missingEnds_eq (hreported.missingBodies_eq hrunning)

end Grammar

end ShellTree
