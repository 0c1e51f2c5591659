import ShellTree.Grammar.Redirect
import ShellTree.Proofs.Parse.Nested

/-!
This module contains the correctness of redirects. The operator of a here-document only asks for a
body; the text goes on behind its delimiter.
-/

namespace ShellTree

open Parse

theorem Token.ne_eof_of_isRedirectStart {tok : Token} (h : tok.isRedirectStart) :
    tok.kind ≠ .eof := by
  simp only [isRedirectStart, Bool.or_eq_true, decide_eq_true_eq] at h
  cases h with
  | inl hdescriptor => simp [hdescriptor]
  | inr hoperator => exact ne_eof_of_isOneOf hoperator

/-- A marker and the request that it makes. -/
theorem Parse.Next.marker_reads {env : Env} {s : State} {tok : Token} (h : Next env s tok)
    (hs : Sound env s) (hlt : tok.span.start < tok.span.stop) {request : Heredoc.Request}
    (hstart : request.redirectStart ≤ env.source.size)
    (hdelimiter : request.delimiter = Heredoc.delimiterOf tok.text) :
    Reads env s [.leaf .heredocStart tok.span]
      { s with pos := tok.span.stop, pending := s.pending ++ [request] } := by
  have hsound : Sound env { s with pos := tok.span.stop, pending := s.pending ++ [request] } := by
    refine { hs with boundary := h.spells.right, pending := ?_ }
    intro request' hmem
    rw [List.mem_append, List.mem_singleton] at hmem
    obtain hmem | rfl := hmem
    . exact hs.pending request' hmem
    . exact hstart
  have hsettled : (Node.leaf .heredocStart tok.span).Settled env.source s.diagnostics :=
    Node.settled_of_standsAlone rfl fun _ => trivial
  have hgenuine : (Node.leaf .heredocStart tok.span).IsGenuine env.source :=
    Node.isGenuine_leaf (by simp) (by simp) (fun _ => hlt) (by simp)
  refine ⟨⟨{ Reached.refl hs with sound := hsound }, .leaf _ _, .wrap .nil hgenuine,
    fun _ => ⟨.wrap .nil hsettled, ?_⟩, fun _ => Node.allFlat_leaf⟩,
    (Tiles.leaf h.spells).skip_left h.skips⟩
  exact .ask h.spells.textOf?_eq hdelimiter

namespace Grammar

open Source

variable {env : Env} {level room : Nat} {inner : Nested} {s s₁ s' : State} {nodes : List Node}
variable {tok : Token}

theorem isHeredocStart_meets (hnext : Next env s tok) :
    Meets env s (isHeredocStart tok) fun _ s' => s' = s := by
  unfold isHeredocStart
  split
  . rfl
  . obtain ⟨cs, htail, hcs⟩ := hnext.spells.right.exists_tail?
    rw [meets_bind_charactersAt htail]
    rfl
  . rfl

theorem redirectTarget_reads (hinner : inner.Fits env level) (hwithin : Within env level 2 s)
    (op : String) :
    Meets env s (redirectTarget inner op) fun nodes s' => Reads env s nodes s' := by
  unfold redirectTarget
  apply (peek_meets hwithin.sound).bind
  intro tok s₁ hpeek
  apply (hinner.literal (hwithin.stays hpeek.stays)).bind
  intro result s₂ hresult
  cases result with
  | some target => exact hpeek.stays.reads.trans hresult.toReads
  | none =>
    have hstays := hpeek.stays.trans hresult.1
    apply (report_meets hstays.sound hpeek.next.stop_le_size rfl).bind
    intro _ s₃ hreport
    exact (hstays.trans hreport).reads

theorem heredocMarker_reads (h : Sound env s) (op : String) {start : Nat}
    (hstart : start ≤ env.source.size) :
    Meets env s (heredocMarker op start) fun nodes s' => Reads env s nodes s' := by
  unfold heredocMarker
  apply (peekHeredocMarker_meets h).bind
  intro result s₁ hresult
  obtain ⟨hstays, hmarker⟩ := hresult
  cases result with
  | some marker =>
    obtain ⟨hnext, hlt, _⟩ := hmarker marker rfl
    exact hstays.reads.trans (hnext.marker_reads hstays.sound hlt hstart rfl)
  | none =>
    apply (peek_meets hstays.sound).bind
    intro tok s₂ hpeek
    apply (report_meets hpeek.stays.sound hpeek.next.stop_le_size rfl).bind
    intro _ s₃ hreport
    exact ((hstays.trans hpeek.stays).trans hreport).reads

theorem redirectFrom_meets (hinner : inner.Fits env level) (hwithin : Within env (level + 1) room s)
    {descriptor : List Node} (h : Reads env s₁ descriptor s) (hnext : Next env s tok)
    (htaken : descriptor ≠ [] ∧ s₁.pos < s.pos ∨ tok.isOneOf Operator.redirects) :
    Meets env s (redirectFrom inner descriptor tok) fun node s' =>
      Reads env s₁ [node] s' ∧ s₁.pos < s'.pos := by
  unfold redirectFrom
  split
  . next hoperator =>
    have hkind := ne_eof_of_isOneOf hoperator
    apply (tokenLeaf_meets hwithin.sound hnext fun _ => isWhole_of_isOneOf hoperator).bind
    intro leaf s₂ hleaf
    have hwithin₂ := hwithin.taken hnext hkind hleaf
    have hlt := hleaf.pos_lt hnext hkind
    have hle := h.pos_le
    have hrest : ∀ kind nodes s₃, Composes env kind (descriptor ++ leaf :: nodes) s₃ →
        Reads env s₂ nodes s₃ →
          Meets env s₃ (node kind (descriptor ++ leaf :: nodes)) fun node s' =>
            Reads env s₁ [node] s' ∧ s₁.pos < s'.pos := by
      intro kind nodes s₃ hcomposes hnodes
      apply (node_made (h.trans (hleaf.toReads.trans hnodes)) kind hcomposes).mono
      intro node s₄ hmade
      have hle₃ := hnodes.pos_le
      exact ⟨hmade.toReads, by rw [hmade.eq]; omega⟩
    dsimp only
    split
    . apply (heredocMarker_reads hleaf.sound _ hnext.start_le_size).bind
      intro marker s₃ hmarker
      exact hrest _ _ s₃ (.of_isLoose rfl (by simp)) hmarker
    . apply (redirectTarget_reads hinner hwithin₂ _).bind
      intro target s₃ htarget
      have hcomposes : ∀ kind, kind = .herestringRedirect ∨ kind = .fileRedirect →
          Composes env kind (descriptor ++ leaf :: target) s₃ := by
        rintro _ (rfl | rfl) <;> exact .of_isLoose rfl (by simp)
      exact hrest _ _ s₃ (hcomposes _ (by split <;> simp)) htarget
  . next hoperator =>
    obtain ⟨hne, hlt⟩ := htaken.resolve_right hoperator
    apply (report_meets hwithin.sound hnext.stop_le_size rfl).bind
    intro _ s₂ hreport
    apply (node_made (h.stays hreport) .fileRedirect (.of_isLoose rfl (by simp [hne]))).mono
    intro node s₃ hmade
    exact ⟨hmade.toReads, by rw [hmade.eq, hreport.pos_eq]; exact hlt⟩

theorem redirect_meets (hinner : inner.Fits env level) (hwithin : Within env (level + 1) room s) :
    Meets env s (redirect inner) (ReadsRedirect env s) := by
  unfold redirect
  apply (peek_meets hwithin.sound).bind
  intro tok s₁ hpeek
  have hwithin₁ := hwithin.stays hpeek.stays
  have hpos := hpeek.stays.pos_eq
  split
  . next hstart =>
    refine ⟨hpeek.stays, ?_⟩
    rw [← hpeek.eq_token]
    simpa using hstart
  . next hstart =>
    simp only [Bool.not_eq_eq_eq_not, Bool.not_true, Bool.not_eq_false] at hstart
    split
    . next hkind =>
      have hne : tok.kind ≠ .eof := by simp [hkind]
      have hwhole : tok.IsWhole := by simp [Token.IsWhole, hkind]
      apply (tokenLeaf_meets hwithin₁.sound hpeek.next fun _ => hwhole).bind
      intro descriptor s₂ hdescriptor
      have hlt := hdescriptor.pos_lt hpeek.next hne
      have hwithin₂ := (hwithin₁.taken hpeek.next hne hdescriptor).succ
      apply (peek_meets hwithin₂.sound).bind
      intro tok₂ s₃ hpeek₃
      have hread := (hpeek.stays.reads.trans hdescriptor.toReads).stays hpeek₃.stays
      have hlt₃ : s.pos < s₃.pos := by
        rw [hpeek₃.stays.pos_eq]
        omega
      apply (redirectFrom_meets hinner (hwithin₂.stays hpeek₃.stays) hread hpeek₃.next
        (.inl ⟨by simp, hlt₃⟩)).bind
      intro node s₄ hnode
      exact hnode
    . next hkind =>
      have hoperator : tok.isOneOf Operator.redirects := by
        simpa [Token.isRedirectStart, hkind] using hstart
      apply (redirectFrom_meets hinner hwithin₁ hpeek.stays.reads hpeek.next
        (.inr hoperator)).bind
      intro node s₂ hnode
      exact hnode

theorem redirects_meets (hinner : inner.Fits env level) (hwithin : Within env (level + 1) room s) :
    Meets env s (redirects inner) fun nodes s' => Reads env s nodes s' ∧
      ((s.token env s.flags).isRedirectStart → s.pos < s'.pos) := by
  unfold redirects
  apply repeatStep_consumes fun nodes s₁ => Reads env s nodes s₁ ∧ (s₁ = s ∨ s.pos < s₁.pos)
  . exact ⟨.refl hwithin.sound, .inl rfl⟩
  . intro nodes s₁ hinv
    obtain ⟨hnodes, hpos⟩ := hinv
    unfold redirects.step
    apply (redirect_meets hinner (hwithin.reads hnodes)).bind
    intro result s₂ hresult
    cases result with
    | none =>
      obtain ⟨hstays, hstart⟩ := hresult
      refine ⟨hnodes.stays hstays, ?_⟩
      intro hfirst
      obtain rfl | hlt := hpos
      . simp [hfirst] at hstart
      . rw [hstays.pos_eq]
        exact hlt
    | some redirect =>
      obtain ⟨hredirect, hlt⟩ := hresult
      have hle := hnodes.pos_le
      exact ⟨⟨hnodes.trans hredirect, .inr (by omega)⟩, hredirect.remaining_lt_of_pos hlt⟩

theorem redirectFrom_returns (descriptor : List Node) (tok : Token) :
    Returns (redirectFrom inner descriptor tok) fun node => NoCloser [node] := by
  have hnode : ∀ {kind : NodeKind} {children : List Node}, kind ≠ .token ")" → kind ≠ .token "`" →
      Returns (node kind children) fun node => NoCloser [node] := fun h h' =>
    kind_returns.mono fun node hkind => by simp [NoCloser, hkind, h, h']
  unfold redirectFrom
  split
  . dsimp only
    apply returns_bind
    intro leaf
    split
    . apply returns_bind
      intro marker
      exact hnode (by simp) (by simp)
    . apply returns_bind
      intro target
      split
      . exact hnode (by simp) (by simp)
      . exact hnode (by simp) (by simp)
  . apply returns_bind
    intro
    exact hnode (by simp) (by simp)

theorem redirect_returns :
    Returns (redirect inner) fun result => NoCloser result.toList := by
  unfold redirect
  apply returns_bind
  intro tok
  split
  . exact returns_pure (by simp [NoCloser])
  . split
    . iterate 2 apply returns_bind; intro
      exact (redirectFrom_returns _ _).bind fun node hnode => returns_pure hnode
    . exact (redirectFrom_returns _ _).bind fun node hnode => returns_pure hnode

end Grammar
end ShellTree
