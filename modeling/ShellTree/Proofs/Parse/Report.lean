import ShellTree.Parse.Report
import ShellTree.Proofs.Parse.State

/-!
This module contains what the reports and the limits of a parse do to its state. Nothing is reported
after a halt, and a halt takes nothing of the text.
-/

namespace ShellTree

theorem Cause.missing_eq_none {cause : Cause} (h : cause.isLocal) :
    cause.missingEnd? = none ∧ cause.missingBody? = none := by
  cases cause with
  | unterminated what => simp [isLocal, kind] at h
  | _ => exact ⟨rfl, rfl⟩

namespace Parse

variable {env : Env} {level room : Nat} {s s' : State}

theorem Sound.with_diagnostic (h : Sound env s) (hs : s.halted = false) {diagnostic : Diagnostic}
    (hdiagnostic : diagnostic.Sound env) (hfinal : diagnostic.kind.isFinal = false) :
    Sound env { s with diagnostics := s.diagnostics ++ [diagnostic] } where
  boundary := h.boundary
  modes_ne_nil := h.modes_ne_nil
  pending := h.pending
  comments := h.comments
  reports := by
    simp only [List.mem_append, List.mem_singleton]
    rintro _ (hmem | rfl)
    . exact h.reports _ hmem
    . exact hdiagnostic
  running := by
    simp only [List.mem_append, List.mem_singleton]
    rintro _ _ (hmem | rfl)
    . exact h.running hs _ hmem
    . exact hfinal
  halted := by simp [hs]

theorem Sound.with_final (h : Sound env s) (hs : s.halted = false) (diagnostic : Diagnostic)
    (hdiagnostic : diagnostic.Sound env) (hfinal : diagnostic.kind.isFinal = true) :
    Sound env { s with diagnostics := s.diagnostics ++ [diagnostic], halted := true } where
  boundary := h.boundary
  modes_ne_nil := h.modes_ne_nil
  pending := h.pending
  comments := h.comments
  reports := by
    simp only [List.mem_append, List.mem_singleton]
    rintro _ (hmem | rfl)
    . exact h.reports _ hmem
    . exact hdiagnostic
  running := by simp
  halted := fun _ => ⟨s.diagnostics, diagnostic, rfl, hfinal, h.running hs⟩

/-- The cause is reported, unless the parse has halted. -/
structure Reports (env : Env) (s : State) (cause : Cause) (span : Span) (s' : State) : Prop
    extends Stays env s s' where
  mem : s.halted = false → ∃ diagnostic ∈ s'.diagnostics, diagnostic.cause = cause ∧
    diagnostic.span = span

theorem Reports.ne_nil {cause : Cause} {span : Span} (h : Reports env s cause span s') :
    s'.diagnostics ≠ [] := by
  intro hclean
  have hs := h.toStays.reached.running (h.sound.running_of_clean hclean)
  obtain ⟨diagnostic, hmem, _⟩ := h.mem hs
  simp [hclean] at hmem

theorem Reports.reportedAt {cause : Cause} {span : Span} (h : Reports env s cause span s')
    (hcause : cause.isLocal) (hs : s.halted = false) (hspan : span.start < span.stop) :
    ReportedAt s'.diagnostics span.start := by
  obtain ⟨diagnostic, hmem, rfl, rfl⟩ := h.mem hs
  exact ⟨diagnostic, hmem, hcause, rfl, hspan⟩

theorem report_appends (h : Sound env s) {cause : Cause} {span : Span}
    (hdiagnostic : ∀ line column, env.source.lineColumn span.start = (line, column) →
      Diagnostic.Sound env ⟨cause, span, line, column⟩)
    (hfinal : cause.kind.isFinal = false) {post : Unit → State → Prop}
    (hhalted : s.halted = true → post () s)
    (hrunning : ∀ line column, s.halted = false →
      Sound env { s with diagnostics := s.diagnostics ++ [⟨cause, span, line, column⟩] } →
        post () { s with diagnostics := s.diagnostics ++ [⟨cause, span, line, column⟩] }) :
    Meets env s (report cause span) post := by
  unfold report
  rw [meets_bind_isHalted]
  split
  . next hs =>
    simp only [Bool.not_eq_eq_eq_not, Bool.not_true] at hs
    rw [meets_bind_source]
    exact hrunning _ _ hs (h.with_diagnostic hs (hdiagnostic _ _ rfl) hfinal)
  . next hs =>
    simp only [Bool.not_eq_eq_eq_not, Bool.not_true, Bool.not_eq_false] at hs
    exact hhalted hs

theorem report_reports_of_sound (h : Sound env s) {cause : Cause} {span : Span}
    (hdiagnostic : ∀ line column, env.source.lineColumn span.start = (line, column) →
      Diagnostic.Sound env ⟨cause, span, line, column⟩)
    (hfinal : cause.kind.isFinal = false)
    (hmissing : cause.missingEnd? = none ∧ cause.missingBody? = none) :
    Meets env s (report cause span) fun _ s' => Reports env s cause span s' := by
  apply report_appends h hdiagnostic hfinal
  . intro hs
    exact ⟨.refl h, by simp [hs]⟩
  . intro line column hs hsound
    refine ⟨⟨hsound, rfl, List.prefix_append _ _, ?_, ?_, fun _ => id⟩, fun _ => ?_⟩
    . simp [missingEnds, hmissing.1]
    . simp [missingBodies, hmissing.2]
    . exact ⟨⟨cause, span, line, column⟩, by simp, rfl, rfl⟩

theorem report_reports (h : Sound env s) {cause : Cause} {span : Span}
    (hstop : span.stop ≤ env.source.size) (hcause : cause.isLocal) :
    Meets env s (report cause span) fun _ s' => Reports env s cause span s' := by
  have hmissing := Cause.missing_eq_none hcause
  simp only [Cause.isLocal, Bool.or_eq_true, beq_iff_eq] at hcause
  apply report_reports_of_sound h _ _ hmissing
  . intro line column hposition
    refine ⟨hstop, hposition.symm, ?_, ?_⟩
    all_goals
      intro hkind
      simp only [Diagnostic.kind] at hkind
      simp [hkind] at hcause
  . cases hcause with
    | inl hkind => simp [hkind, ErrorKind.isFinal]
    | inr hkind => simp [hkind, ErrorKind.isFinal]

theorem report_meets (h : Sound env s) {cause : Cause} {span : Span}
    (hstop : span.stop ≤ env.source.size) (hcause : cause.isLocal) :
    Meets env s (report cause span) fun _ s' => Stays env s s' :=
  (report_reports h hstop hcause).mono fun _ _ hreports => hreports.toStays

theorem unterminated_sound {what : Unclosed} {start line column : Nat}
    (hstart : start ≤ env.source.size) (hposition : env.source.lineColumn start = (line, column)) :
    Diagnostic.Sound env
      ⟨.unterminated what, ⟨start, env.source.size, hstart⟩, line, column⟩ :=
  ⟨Nat.le_refl _, hposition.symm, fun _ => rfl, fun hkind => by cases hkind⟩

theorem reportUnclosed_reports (h : Sound env s) (what : Unclosed) {start : Nat}
    (hstart : start ≤ env.source.size) (hwhat : what.isHeredoc = false) :
    Meets env s (reportUnclosed what start) fun _ s' =>
      Reports env s (.unterminated what) ⟨start, env.source.size, hstart⟩ s' := by
  unfold reportUnclosed
  rw [meets_bind_source, meets_bind_spanBetween hstart]
  exact report_reports_of_sound h (fun _ _ => unterminated_sound hstart) rfl
    (Unclosed.missing_eq_none hwhat)

structure Halts (env : Env) (s s' : State) : Prop extends Reads env s [] s' where
  pos_eq : s'.pos = s.pos
  is_halted : s'.halted = true

theorem Halts.refl (h : Sound env s) (hs : s.halted = true) : Halts env s s :=
  ⟨.refl h, rfl, hs⟩

theorem halt_meets (h : Sound env s) (hs : s.halted = false) {cause : Cause}
    (hcause : cause.kind.isFinal = true) (hlimited : cause.IsLimited env) :
    Meets env s (halt cause) fun _ s' => Halts env s s' := by
  unfold halt report
  rw [meets_bind_position, meets_bind_source, meets_bind_spanBetween h.pos_le_size]
  simp only [hs, meets_bind_assoc, meets_bind_isHalted, Bool.not_false, if_true,
    meets_bind_source, meets_bind_modify, meets_modify]
  have hsound := h.with_final hs ⟨cause, ⟨s.pos, env.source.size, h.pos_le_size⟩,
    (env.source.lineColumn s.pos).1, (env.source.lineColumn s.pos).2⟩
    ⟨Nat.le_refl _, rfl, fun _ => rfl, hlimited⟩ hcause
  refine ⟨⟨⟨⟨hsound, rfl, rfl, rfl, rfl, fun _ => rfl, List.prefix_append _ _, fun _ => id⟩,
    .nil, .nil, fun hrunning => absurd hrunning.symm Bool.false_ne_true, fun _ => trivial⟩, ?_⟩,
    rfl, rfl⟩
  exact tiles_nil.2 (.done h.boundary)

theorem Halts.haltedNode (h : Halts env s s') :
    Reads env s [.leaf .error (.empty s'.pos)] s' := by
  have hgenuine : (Node.leaf .error (.empty s'.pos)).IsGenuine env.source :=
    Node.isGenuine_leaf (by simp) (by simp) (by simp [NodeKind.canBeEmpty]) (by simp)
  have hleaf : Reads env s' [.leaf .error (.empty s'.pos)] s' :=
    ⟨⟨.refl h.sound, .leaf _ _, .wrap .nil hgenuine, fun hrunning => by
      simp [h.is_halted] at hrunning, fun _ => Node.allFlat_leaf⟩, .leaf h.sound.boundary⟩
  exact h.toReads.trans hleaf

theorem Sound.with_depth (h : Sound env s) (depth : Nat) : Sound env { s with depth := depth } :=
  { h with }

theorem nest_meets (h : Within env level (room + 1) s) {body : Parse (Option Node)}
    {post : Option Node → State → Prop}
    (hhalt : ∀ node s', Reads env s [node] s' → s'.halted = true →
      s.halted = true ∨ env.options.maxDepth ≤ s.depth → post (some node) s')
    (hbody : s.halted = false → s.depth < env.options.maxDepth →
      Meets env { s with depth := s.depth + 1 } body fun result s' =>
        post result { s' with depth := s'.depth - 1 }) :
    Meets env s (nest body) post := by
  unfold nest enter
  simp only [meets_bind_assoc, meets_bind_get, meets_bind_read, meets_bind_isHalted]
  split
  . next hs =>
    exact hhalt _ s (Halts.refl h.sound hs).haltedNode hs (.inl hs)
  . next hs =>
    simp only [Bool.not_eq_true] at hs
    split
    . next hlimit =>
      have := h.depth_le
      have := h.sound.pos_le_size
      rw [meets_bind_assoc]
      apply (halt_meets h.sound hs rfl fun _ => .inl ⟨rfl, by omega⟩).bind
      intro _ s' hs'
      exact hhalt _ s' hs'.haltedNode hs'.is_halted (.inr (by omega))
    . next hlimit =>
      rw [meets_bind_assoc, meets_bind_modify, meets_bind_pure]
      apply (hbody hs (by omega)).bind
      intro result s' hpost
      exact hpost

theorem Sound.with_boundaries (h : Sound env s) (boundaries : Nat) :
    Sound env { s with boundaries := boundaries } := { h with }

theorem tick_meets (h : Sound env s) :
    Meets env s tick fun proceeds s' =>
      if proceeds then Stays env s s' ∧ s.halted = false else Halts env s s' := by
  unfold tick
  rw [meets_bind_isHalted]
  split
  . next hs => exact Halts.refl h hs
  . next hs =>
    simp only [Bool.not_eq_true] at hs
    rw [meets_bind_read]
    split
    . apply (halt_meets h hs rfl fun hkind => by cases hkind).bind
      intro _ s' hs'
      exact hs'
    . simp only [meets_bind_get, meets_bind_modify, meets_bind_read]
      have hcounted := h.with_boundaries (s.boundaries + 1)
      have hstays : Stays env s { s with boundaries := s.boundaries + 1 } :=
        ⟨hcounted, rfl, List.prefix_refl _, rfl, rfl, fun _ => id⟩
      cases hlimit : env.options.maxStatements with
      | none => exact ⟨hstays, hs⟩
      | some limit =>
        dsimp only
        split
        . apply (halt_meets hcounted hs rfl fun _ => .inr ⟨limit, hlimit, rfl⟩).bind
          intro _ s' hs'
          exact ⟨hstays.reads.trans hs'.toReads, hs'.pos_eq, hs'.is_halted⟩
        . exact ⟨hstays, hs⟩

end Parse

end ShellTree
