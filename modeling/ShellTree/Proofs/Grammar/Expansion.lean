import ShellTree.Grammar.Expansion
import ShellTree.Proofs.Parse.Nested

/-!
This module contains the correctness of subscripts and parameter expansions.
-/

namespace ShellTree
namespace Grammar

open Parse Source

variable {env : Env} {level room : Nat} {inner : Nested} {s s₁ s' : State} {nodes : List Node}

theorem start_le_size_of_reads {node : Node} (h : Reads env s₁ [node] s) :
    node.span.start ≤ env.source.size := by
  have htiles := tiles_cons.1 h.tiles
  have := node.span.start_le_stop
  have := htiles.2.2.le
  have := h.sound.pos_le_size
  omega

/-- A construct goes on to the token that closes it. -/
theorem closerStep_grows (hs : Sound env s) {start : Nat} (hstart : start ≤ env.source.size)
    (h : Reads env s₁ nodes s) {closer : String} {construct : Construct}
    {rest : Token → Parse (ForInStep (List Node))}
    (hrest : ∀ tok s₂, Peeks env s s.flags tok s₂ → ¬ tok.isEof → Reads env s₁ nodes s₂ →
      Meets env s₂ (rest tok) (GrowsUpTo env (ReadsUpTo env closer s₁) s₁ s₂ id)) :
    Meets env s
      (do
        let tok ← peek
        if tok.isOperator closer then
          return .done (nodes ++ [← tokenLeaf tok])
        else if tok.isEof then
          reportUnclosed (.construct construct closer) start
          return .done nodes
        else
          rest tok)
      (GrowsUpTo env (ReadsUpTo env closer s₁) s₁ s id) := by
  apply (peek_meets hs).bind
  intro tok s₂ hpeek
  have hnodes := h.stays hpeek.stays
  apply Meets.mono _ (GrowsUpTo.of_stays hpeek.stays)
  split
  . next hop => exact hnodes.takeLast hpeek.next hop
  . split
    . apply (reportUnclosed_reports hnodes.sound _ hstart rfl).bind
      intro _ s₃ hreport
      exact hreport.upTo hnodes
    . next heof => exact hrest tok s₂ hpeek heof hnodes

/-! ### Subscripts -/

theorem subscriptStep_grows (hinner : inner.Fits env level) (hwithin : Within env level 2 s)
    {start : Nat} (hstart : start ≤ env.source.size) (h : Reads env s₁ nodes s) :
    Meets env s (subscriptStep inner start nodes)
      (GrowsUpTo env (ReadsUpTo env "]" s₁) s₁ s id) := by
  unfold subscriptStep
  apply closerStep_grows hwithin.sound hstart h
  intro tok s₂ hpeek heof hnodes
  split
  . apply (report_reports hnodes.sound hpeek.next.stop_le_size rfl).bind
    intro _ s₃ hreport
    exact hreport.upTo hnodes
  . apply (hinner.literal (hwithin.stays hpeek.stays)).bind
    intro result s₃ hliteral
    cases result with
    | some literal => exact hnodes.grows hliteral.toTakes
    | none =>
      exact hnodes.take hliteral.1 hpeek.next (mt isEof_iff.2 heof) (hpeek.isWhole hliteral heof)

theorem subscript_reads (hinner : inner.Fits env level) (hwithin : Within env (level + 1) room s)
    {name : Node} (h : Reads env s₁ [name] s) {cs : List Char}
    (hcs : env.source.Spells s.pos env.source.size ('[' :: cs)) :
    Meets env s (subscript inner name) fun node s' => Reads env s₁ [node] s' ∧ s.pos ≤ s'.pos := by
  unfold subscript
  apply (takeText_meets hwithin.sound "[" hcs ⟨cs, rfl⟩ (by decide)).bind
  intro opener s₂ hopener
  rw [meets_bind_get]
  dsimp only
  have hlt : s.pos < s₂.pos := by
    rw [hopener.pos_eq]
    exact Nat.lt_add_of_pos_right (by decide)
  have hwithin₂ := hwithin.pred hopener.toReads hlt
  apply Meets.bind (hwithin₂.withFlags ?_)
  . intro parts s₃ hparts
    have hkind : Composes env .subscript (name :: opener :: parts) s₃ :=
      .mk rfl trivial fun hclean _ => (hparts.ends hclean).append [opener]
    apply (node_made ((h.trans hopener.toReads).trans hparts.toReads) .subscript hkind).mono
    intro node s₄ hmade
    have hle := hparts.pos_le
    exact ⟨hmade.toReads, by rw [hmade.eq]; omega⟩
  . intro s₃ hwithin₃ _
    apply collect_reads (.refl hwithin₃.sound)
    intro parts s₄ hparts
    exact subscriptStep_grows hinner (hwithin₃.reads hparts) (start_le_size_of_reads h) hparts

theorem subscript_returns (inner : Nested) (name : Node) :
    Returns (subscript inner name) (·.kind = .subscript) := by
  unfold subscript
  iterate 3 apply returns_bind; intro
  exact kind_returns

/-! ### Parameters -/

theorem nameLeaf_meets (h : Sound env s) {name cs : List Char}
    (hcs : env.source.Spells s.pos env.source.size cs) (hname : name <+: cs) (hne : name ≠ []) :
    Meets env s (nameLeaf name) (Taken env s (.ofWidth s.pos (byteLength name))) := by
  unfold nameLeaf
  rw [meets_bind_position]
  exact leafAt_meets h (by split <;> rfl) (.done h.boundary) (hcs.trim _ hname) hne

theorem utf8Size_of_isSpecialParameter {c : Char} (h : isSpecialParameter c) : c.utf8Size = 1 := by
  simp only [isSpecialParameter, Bool.or_eq_true, beq_iff_eq] at h
  obtain (((((rfl | rfl) | rfl) | rfl) | rfl) | rfl) | rfl := h <;> rfl

theorem specialLeaf_meets (h : Sound env s) {c : Char} {cs : List Char}
    (hcs : env.source.Spells s.pos env.source.size (c :: cs)) (hc : isSpecialParameter c) :
    Meets env s (leafAt .specialVariableName (.ofWidth s.pos 1))
      (Taken env s (.ofWidth s.pos 1)) := by
  have hspells := hcs.trim [c] ⟨cs, rfl⟩
  rw [byteLength_cons, byteLength_nil, utf8Size_of_isSpecialParameter hc] at hspells
  exact leafAt_meets h rfl (.done h.boundary) hspells (by simp)

theorem nameRun_isPrefix (cs : List Char) : Lexeme.nameRun cs <+: cs := by
  apply List.takeWhile_prefix

theorem nameRun_ne_nil {c : Char} (h : isNameChar c) (cs : List Char) :
    Lexeme.nameRun (c :: cs) ≠ [] := by simp [Lexeme.nameRun, h]

theorem simpleParameter_reads (h : Sound env s) {cs : List Char}
    (hcs : env.source.Spells s.pos env.source.size cs) (hopens : opensSimpleExpansion cs) :
    Meets env s simpleParameter fun nodes s' => Reads env s nodes s' := by
  unfold simpleParameter
  rw [meets_bind_upcoming (tail?_eq_some_iff.2 hcs)]
  cases cs with
  | nil => exact Reads.refl h
  | cons c cs =>
    dsimp only
    split
    . next hspecial =>
      rw [meets_bind_position]
      apply (specialLeaf_meets h hcs hspecial).bind
      intro leaf s₂ hleaf
      exact hleaf.toReads
    . next hspecial =>
      split
      . apply (nameLeaf_meets h hcs ⟨cs, rfl⟩ (by simp)).bind
        intro leaf s₂ hleaf
        exact hleaf.toReads
      . have hname : isNameChar c := by simpa [opensSimpleExpansion, hspecial] using hopens
        apply (nameLeaf_meets h hcs (nameRun_isPrefix _) (nameRun_ne_nil hname cs)).bind
        intro leaf s₂ hleaf
        exact hleaf.toReads

theorem parameterSign_reads (h : Sound env s) :
    Meets env s parameterSign fun nodes s' => Reads env s nodes s' := by
  obtain ⟨cs, htail, hcs⟩ := h.boundary.exists_tail?
  unfold parameterSign
  rw [meets_bind_upcoming htail]
  split
  . next c d cs =>
    split
    . have hsign : (String.ofList [c]).toList <+: c :: d :: cs := by
        rw [String.toList_ofList]
        exact ⟨d :: cs, rfl⟩
      apply (takeText_meets h _ hcs hsign (by simp)).bind
      intro leaf s₂ hleaf
      exact hleaf.toReads
    . exact Reads.refl h
  . exact Reads.refl h

theorem subscripted_reads (hinner : inner.Fits env level) (hwithin : Within env level 2 s)
    {name : Node} (h : Reads env s₁ [name] s) :
    Meets env s (parameter.subscripted inner name) fun nodes s' => Reads env s₁ nodes s' := by
  obtain ⟨cs, htail, hcs⟩ := hwithin.sound.boundary.exists_tail?
  unfold parameter.subscripted
  rw [meets_bind_upcoming htail]
  split
  . next hbracket =>
    rw [beq_iff_eq, List.head?_eq_some_iff] at hbracket
    obtain ⟨cs, rfl⟩ := hbracket
    apply (subscript_reads hinner hwithin.succ h hcs).bind
    intro node s₂ hnode
    exact hnode.1
  . exact h

theorem parameter_reads (hinner : inner.Fits env level) (hwithin : Within env level 2 s) :
    Meets env s (parameter inner) fun nodes s' => Reads env s nodes s' := by
  obtain ⟨cs, htail, hcs⟩ := hwithin.sound.boundary.exists_tail?
  unfold parameter
  rw [meets_bind_upcoming htail]
  cases cs with
  | nil => exact Reads.refl hwithin.sound
  | cons c cs =>
    dsimp only
    split
    . next hname =>
      apply (nameLeaf_meets hwithin.sound hcs (nameRun_isPrefix _) (nameRun_ne_nil hname cs)).bind
      intro leaf s₂ hleaf
      exact subscripted_reads hinner (hwithin.reads hleaf.toReads) hleaf.toReads
    . split
      . next hspecial =>
        rw [meets_bind_position]
        apply (specialLeaf_meets hwithin.sound hcs hspecial).bind
        intro leaf s₂ hleaf
        exact subscripted_reads hinner (hwithin.reads hleaf.toReads) hleaf.toReads
      . exact Reads.refl hwithin.sound

/-! ### Operators -/

theorem patternLeaf_reads (h : Sound env s) :
    Meets env s (do (← peekRegex true).toList.mapM tokenLeaf) fun nodes s' =>
      Reads env s nodes s' := by
  apply (peekRegex_meets h (by simp)).bind
  intro result s₂ hpeek
  cases result with
  | none =>
    rw [Option.toList_none, List.mapM_nil]
    exact hpeek.1.reads
  | some tok =>
    rw [Option.toList_some, List.mapM_cons]
    obtain ⟨hnext, _, _, hwhole⟩ := hpeek.2 tok rfl
    apply (tokenLeaf_meets hpeek.1.sound hnext fun _ => hwhole).bind
    intro leaf s₃ hleaf
    exact hpeek.1.reads.trans hleaf.toReads

theorem substitutionPattern_reads (h : Sound env s) :
    Meets env s substitutionPattern fun nodes s' => Reads env s nodes s' := by
  unfold substitutionPattern
  rw [← meets_bind_assoc]
  apply (patternLeaf_reads h).bind
  intro leaves s₂ hleaves
  obtain ⟨cs, htail, hcs⟩ := hleaves.sound.boundary.exists_tail?
  rw [meets_bind_upcoming htail]
  split
  . next hslash =>
    rw [beq_iff_eq, List.head?_eq_some_iff] at hslash
    obtain ⟨cs, rfl⟩ := hslash
    apply (takeText_meets hleaves.sound "/" hcs ⟨cs, rfl⟩ (by decide)).bind
    intro slash s₃ hslash
    exact hleaves.trans hslash.toReads
  . exact hleaves

theorem expansionOperator_reads (h : Sound env s) :
    Meets env s expansionOperator fun nodes s' => Reads env s nodes s' := by
  obtain ⟨cs, htail, hcs⟩ := h.boundary.exists_tail?
  unfold expansionOperator
  rw [meets_bind_upcoming htail]
  cases hop : Operator.matching? Operator.expansion cs with
  | none => exact Reads.refl h
  | some op =>
    have hmatching := List.find?_some hop
    have hspelled : op.toList <+: cs := isPrefix_of_isPrefixOf hmatching
    have hne : ∀ op ∈ Operator.expansion, op.toList ≠ [] := by decide
    dsimp only
    apply (takeText_meets h _ hcs hspelled (hne op (List.mem_of_find?_eq_some hop))).bind
    intro leaf s₂ hleaf
    split
    . apply (substitutionPattern_reads hleaf.sound).bind
      intro more s₃ hmore
      exact hleaf.toReads.trans hmore
    . exact hleaf.toReads

/-! ### Expansions in braces -/

theorem expansionStep_grows (hinner : inner.Fits env level) (hwithin : Within env level 2 s)
    {start : Nat} (hstart : start ≤ env.source.size) (h : Reads env s₁ nodes s) :
    Meets env s (expansionStep inner start nodes)
      (GrowsUpTo env (ReadsUpTo env "\x7d" s₁) s₁ s id) := by
  unfold expansionStep
  apply closerStep_grows hwithin.sound hstart h
  intro tok s₂ hpeek heof hnodes
  apply (hinner.literal (hwithin.stays hpeek.stays)).bind
  intro result s₃ hliteral
  cases result with
  | some literal => exact hnodes.grows hliteral.toTakes
  | none =>
    exact hnodes.take hliteral.1 hpeek.next (mt isEof_iff.2 heof) (hpeek.isWhole hliteral heof)

theorem expansionBody_reads (hinner : inner.Fits env level) (hwithin : Within env level 2 s)
    {start : Nat} (hstart : start ≤ env.source.size) :
    Meets env s (expansionBody inner start) (ReadsUpTo env "\x7d" s) := by
  unfold expansionBody
  apply (parameterSign_reads hwithin.sound).bind
  intro sign s₂ hsign
  apply (parameter_reads hinner (hwithin.reads hsign)).bind
  intro name s₃ hname
  have hrest : ∀ operator s₄, Reads env s₃ operator s₄ →
      Meets env s₄ (repeatStep (expansionStep inner start) (sign ++ name ++ operator))
        (ReadsUpTo env "\x7d" s) := by
    intro operator s₄ hop
    apply collect_reads ((hsign.trans hname).trans hop)
    intro parts s₅ hparts
    exact expansionStep_grows hinner (hwithin.reads hparts) hstart hparts
  dsimp only
  split
  . exact hrest [] s₃ (.refl hname.sound)
  . exact (expansionOperator_reads hname.sound).bind hrest

theorem expansion_meets (hinner : inner.Fits env level) (h : Opens env level s.flags s)
    (hop : (s.token env s.flags).kind = .operator "$\x7b") :
    Meets env s (expansion inner) (ReadsFrom env s (s.token env s.flags)) := by
  unfold expansion
  apply fromOpener_meets h hop .expansion fun _ _ _ _ hends =>
    .mk rfl trivial fun hclean _ => hends hclean
  intro opener s₁ hstart hwithin
  apply hwithin.inMode (by simp)
  intro s₂ hwithin₂ _
  apply hwithin₂.withFlags
  intro s₃ hwithin₃ _
  exact expansionBody_reads hinner hwithin₃ hstart

end Grammar
end ShellTree
