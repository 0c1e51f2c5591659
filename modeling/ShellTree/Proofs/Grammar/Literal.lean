import ShellTree.Grammar.Literal
import ShellTree.Proofs.Grammar.ArithmeticBody
import ShellTree.Proofs.Grammar.Expansion
import ShellTree.Proofs.Grammar.Fragment
import ShellTree.Proofs.Grammar.Text

/-!
This module contains the correctness of literals and of the substitutions in them. A fragment takes
the token that begins it, so that a run of fragments comes to an end.
-/

namespace ShellTree
namespace Grammar

open Parse Source

variable {env : Env} {level room : Nat} {inner : Nested} {s s₁ s' : State} {nodes : List Node}
variable {tok : Token}

/-! ### Substitutions -/

theorem substitutionBody_reads (hinner : inner.Fits env level) (hwithin : Within env level 2 s)
    (hflags : s.flags = {}) (opener : Token) :
    Meets env s (substitutionBody inner opener) fun nodes s' => Reads env s nodes s' := by
  unfold substitutionBody
  apply (peek_meets hwithin.sound).bind
  intro tok s₁ hpeek
  have hwithin₁ := hwithin.stays hpeek.stays
  split
  . apply (hinner.redirect hwithin₁).bind
    intro result s₂ hresult
    exact hpeek.stays.reads.trans hresult.reads
  . apply (hinner.statements hwithin₁ (hpeek.stays.flags_eq.trans hflags)).mono
    intro nodes s₂ hnodes
    exact hpeek.stays.reads.trans hnodes.toReads

theorem parenthesizedSubstitution_meets (hinner : inner.Fits env level)
    (h : Opens env level s.flags s) {op : String}
    (hop : (s.token env s.flags).kind = .operator op) (kind : NodeKind)
    (hkind : ∀ leaf parts s', leaf.kind = .token op →
      (s'.diagnostics = [] → EndsWith ")" parts) → Composes env kind (leaf :: parts) s')
    (construct : Construct) :
    Meets env s (parenthesizedSubstitution inner kind construct)
      (ReadsFrom env s (s.token env s.flags)) := by
  unfold parenthesizedSubstitution
  apply fromOpener_meets h hop kind hkind
  intro opener s₁ hstart hwithin
  apply hwithin.inMode (by simp)
  intro s₂ hwithin₂ _
  apply hwithin₂.withFlags
  intro s₃ hwithin₃ hflags
  apply (substitutionBody_reads hinner hwithin₃ hflags opener).bind
  intro parts s₄ hparts
  apply (expectOperator_meets hparts.sound ")" construct hstart).bind
  intro close s₅ hclose
  exact hparts.upTo hclose

theorem closingBacktick_reads (h : Sound env s) {start : Nat} (hstart : start ≤ env.source.size) :
    Meets env s (closingBacktick start) (ReadsUpTo env "`" s) := by
  unfold closingBacktick
  apply (peek_meets h).bind
  intro tok s₁ hpeek
  split
  . next hkind =>
    have hwhole : tok.IsWhole := by simp [Token.IsWhole, hkind]
    apply ((tokenLeaf_meets hpeek.stays.sound hpeek.next fun _ =>
      hwhole).and_returns tokenLeaf_returns).bind
    rintro leaf s₂ ⟨hleaf, hbacktick⟩
    exact hleaf.upTo hpeek.stays (by rw [hbacktick, hkind]; rfl)
  . apply (reportMissing_meets hpeek.stays.sound hpeek.next _ _ hstart).bind
    rintro _ s₂ ⟨hstays, hreports⟩
    exact (hpeek.stays.trans hstays).upTo hreports

theorem closingBacktick_returns (start : Nat) :
    Returns (closingBacktick start) (·.length ≤ 1) := by
  unfold closingBacktick
  apply returns_bind
  intro tok
  split
  . apply returns_bind
    intro leaf
    exact returns_pure (Nat.le_refl 1)
  . apply returns_bind
    intro _
    exact returns_pure (Nat.zero_le 1)

/-- What stands between backticks, with the closing one. -/
theorem backtickParts_meets (hinner : inner.Fits env level) (hwithin : Within env level 2 s)
    {start : Nat} (hstart : start ≤ env.source.size) :
    Meets env s
      (inMode .command <| withFlags {} <| withinBackticks do
        let parts ← inner.statements {}
        let close ← closingBacktick start
        return parts ++ close)
      fun nodes s' => (ReadsUpTo env "`" s nodes s' ∧ Node.AllFlat nodes) ∧
        NoCloser nodes.dropLast := by
  have hinside : ∀ s, Ensures env s (do
      let parts ← inner.statements {}
      let close ← closingBacktick start
      return parts ++ close) fun nodes _ => NoCloser nodes.dropLast :=
    fun s => (hinner.encloses.statements {}).ensures.bind fun parts s₁ hparts =>
      (closingBacktick_returns start).ensures.bind fun close s₂ hclose =>
        ensures_pure (NoCloser.dropLast_append hparts hclose)
  refine Meets.and_ensures (hwithin.betweenBackticks fun s₁ hwithin₁ hflags₁ => ?_) ?_
  . apply (hinner.statements hwithin₁ hflags₁).bind
    intro parts s₂ hparts
    apply (closingBacktick_reads hparts.sound hstart).bind
    intro close s₃ hclose
    exact hparts.toReads.upTo hclose
  . exact ensures_inMode fun s₁ => ensures_withFlags fun s₂ => ensures_withinBackticks fun s₃ =>
      (hinside s₃).mono fun _ _ h _ _ _ => h

theorem backtickSubstitution_meets (hinner : inner.Fits env level)
    (h : Opens env level s.flags s) (hop : (s.token env s.flags).kind = .operator "`") :
    Meets env s (backtickSubstitution inner) (ReadsFrom env s (s.token env s.flags)) := by
  unfold backtickSubstitution
  apply (peek_meets h.sound).bind
  intro opener s₁ hpeek
  apply (tokenLeaf_opens hpeek.stays.sound hpeek.next (hpeek.kind_eq.symm.trans hop)).bind
  rintro leaf s₂ ⟨hleaf, hleafKind⟩
  apply (backtickParts_meets hinner (h.taken hpeek hleaf) hpeek.next.start_le_size).bind
  rintro parts s₃ ⟨⟨hparts, hflat⟩, hinside⟩
  have hreached := hpeek.stays.reached.trans (hleaf.toReached.trans hparts.toReached)
  -- where backticks close there is no opener
  have hopens : ¬s₃.ClosesBackticks := fun hcloses =>
    (hreached.closesBackticks_iff.1 hcloses).token_ne env s.flags hop
  have hdelimited : Node.Delimited (leaf :: parts) :=
    ⟨⟨Node.flat_of_nil hleaf.children_eq, hflat⟩, fun node hnode => (hinside node hnode).2⟩
  exact hpeek.node_readsFrom hleaf hparts.toReads _
    (.mk rfl trivial (fun hclean _ => .inr ⟨startsWith_cons hleafKind, hparts.ends hclean⟩) rfl
      (by simp) (by simp) fun _ _ => ⟨hopens, hdelimited⟩)

theorem arithmeticExpansion_meets (hinner : inner.Fits env level)
    (h : Opens env level s.flags s) (hop : (s.token env s.flags).kind = .operator "$((") :
    Meets env s (arithmeticExpansion inner) (ReadsFrom env s (s.token env s.flags)) := by
  unfold arithmeticExpansion
  apply (peek_meets h.sound).bind
  intro opener s₁ hpeek
  apply (tokenLeaf_opens hpeek.stays.sound hpeek.next (hpeek.kind_eq.symm.trans hop)).bind
  rintro leaf s₂ ⟨hleaf, -⟩
  apply Meets.bind ((h.taken hpeek hleaf).inArithmetic fun s₃ hwithin₃ _ => hwithin₃.withFlags ?_)
  . intro parts s₃ hparts
    have hcomposes : Composes env .arithmeticExpansion (leaf :: parts) s₃ :=
      .mk rfl trivial fun hclean _ => hparts.ends hclean
    exact (hleaf.node_arithmetic hpeek.stays.sound hparts.toReads _ hcomposes
      fun _ => .inl rfl).mono fun _ _ => hpeek.readsFrom
  . intro s₄ hwithin₄ _
    exact arithmeticBody_reads hinner hwithin₄ _ hpeek.next.start_le_size

/-! ### Fragments -/

theorem wordLeaf_meets (h : Sound env s) (hnext : Next env s tok) (hkind : tok.kind = .word) :
    Meets env s (wordLeaf tok) (ReadsFrom env s tok) :=
  (hnext.leafAt_meets h (by simp [hkind]) (by split <;> rfl)).mono fun _ _ htaken =>
    htaken.readsFrom

theorem reportedLeaf_meets (h : Sound env s) (hnext : Next env s tok) {what : Unclosed}
    (hwhat : what.isHeredoc = false) :
    Meets env s (do reportUnclosed what tok.span.start; tokenLeaf tok) (ReadsFrom env s tok) := by
  apply (reportUnclosed_reports h what hnext.start_le_size hwhat).bind
  intro _ s₁ hreport
  have hstays := hreport.toStays
  apply (tokenLeaf_meets hstays.sound (hstays.next hnext) fun hclean =>
    absurd hclean hreport.ne_nil).mono
  intro leaf s₂ hleaf
  exact hleaf.readsFrom.after hstays

theorem isWhole_of_isClosedRawString (hnext : Next env s tok) (hkind : tok.kind = .rawString)
    (h : isClosedRawString tok.text) : tok.IsWhole := by
  have hquote := hnext.quote_isPrefix
  simp only [hkind, TokenKind.openingQuote] at hquote
  obtain ⟨rest, hrest⟩ := hquote
  simp only [isClosedRawString, Bool.and_eq_true, decide_eq_true_eq, beq_iff_eq,
    ← String.length_toList, ← hrest] at h
  obtain ⟨hlength, hlast⟩ := h
  simp only [Token.IsWhole, hkind, ← hrest]
  obtain rfl | ⟨body, c, rfl⟩ := List.eq_nil_or_concat rest
  . simp at hlength
  . rw [List.concat_eq_append, ← List.append_assoc, List.getLast?_concat,
      Option.some.injEq] at hlast
    exact ⟨body, by simp [hlast]⟩

theorem exists_of_closesAnsiC {cs : List Char} (h : closesAnsiC cs) :
    ∃ body, AnsiCBody body ∧ cs = body ++ ['\''] := by
  induction cs using closesAnsiC.induct with
  | case1 => simp [closesAnsiC] at h
  | case2 c cs ih =>
    rw [closesAnsiC] at h
    obtain ⟨body, hbody, rfl⟩ := ih h
    exact ⟨'\\' :: c :: body, .escape hbody, rfl⟩
  | case3 c cs hescape hquote =>
    rw [closesAnsiC, if_pos hquote] at h
    . rw [beq_iff_eq] at hquote
      rw [List.isEmpty_iff] at h
      exact ⟨[], .nil, by rw [hquote, h]; rfl⟩
    . exact hescape
  | case4 c cs hescape hquote ih =>
    rw [closesAnsiC, if_neg hquote] at h
    . obtain ⟨body, hbody, rfl⟩ := ih h
      rw [beq_iff_eq] at hquote
      refine ⟨c :: body, .plain ?_ hquote hbody, rfl⟩
      rintro rfl
      match body, hescape with
      | [], hescape => exact hescape '\'' [] rfl rfl
      | d :: body, hescape => exact hescape d (body ++ ['\'']) rfl rfl
    . exact hescape

theorem isWhole_of_closesAnsiC (hnext : Next env s tok) (hkind : tok.kind = .ansiCString)
    (h : closesAnsiC (tok.text.toList.drop 2)) : tok.IsWhole := by
  have hquote := hnext.quote_isPrefix
  simp only [hkind, TokenKind.openingQuote] at hquote
  obtain ⟨rest, hrest⟩ := hquote
  rw [← hrest] at h
  obtain ⟨body, hbody, rfl⟩ := exists_of_closesAnsiC h
  simp only [Token.IsWhole, hkind, ← hrest]
  exact ⟨body, hbody, rfl⟩

/-- A token that begins with another character than a quote or a dollar sign is whole. -/
theorem isWhole_of_head (hnext : Next env s tok) (hrunning : s.halted = false) {c : Char}
    {cs : List Char} (hcs : env.source.Spells s.pos env.source.size (c :: cs))
    (htrivia : ∀ ds, Trivia.isTrivia (c :: ds) = false) (hc : c ∉ ['#', '\'', '$']) :
    tok.IsWhole := by
  simp only [List.mem_cons, List.not_mem_nil, or_false, not_or] at hc
  have hstart : tok.span.start = s.pos := hnext.skips.stop_eq_of_head hcs htrivia hc.1
  have hspells := hnext.spells
  have hquote := hnext.quote_isPrefix
  rw [hstart] at hspells
  unfold Token.IsWhole
  split
  . next hkind =>
    have hend := (hnext.ends hkind).resolve_left (by simp [hrunning])
    have hlt := hcs.lt (by simp)
    omega
  . next hkind =>
    rw [hkind] at hquote
    obtain ⟨rest, hrest⟩ := hquote
    rw [← hrest] at hspells
    exact absurd (hcs.head_eq hspells) hc.2.1
  . next hkind =>
    rw [hkind] at hquote
    obtain ⟨rest, hrest⟩ := hquote
    rw [← hrest] at hspells
    exact absurd (hcs.head_eq hspells) hc.2.2
  . trivial

theorem rawString_meets (h : Sound env s) (hnext : Next env s tok) (hkind : tok.kind = .rawString) :
    Meets env s (rawString tok) (ReadsFrom env s tok) := by
  unfold rawString
  dsimp only
  split
  . exact reportedLeaf_meets h hnext rfl
  . next hclosed =>
    have hwhole := isWhole_of_isClosedRawString hnext hkind (by simpa using hclosed)
    exact (tokenLeaf_meets h hnext fun _ => hwhole).mono fun _ _ htaken => htaken.readsFrom

theorem ansiCString_meets (h : Sound env s) (hnext : Next env s tok)
    (hkind : tok.kind = .ansiCString) :
    Meets env s (ansiCString tok) (ReadsFrom env s tok) := by
  unfold ansiCString
  dsimp only
  split
  . exact reportedLeaf_meets h hnext rfl
  . next hclosed =>
    have hwhole := isWhole_of_closesAnsiC hnext hkind (by simpa using hclosed)
    exact (tokenLeaf_meets h hnext fun _ => hwhole).mono fun _ _ htaken => htaken.readsFrom

theorem dollar_meets (hinner : inner.Fits env level) (h : Opens env level s.flags s)
    (hnext : Next env s tok) (htok : tok = s.token env s.flags) (hop : tok.kind = .operator "$") :
    Meets env s (dollar inner tok) (ReadsFrom env s tok) := by
  unfold dollar
  apply (tokenLeaf_opens h.sound hnext hop).bind
  rintro leaf s₁ ⟨hleaf, _⟩
  have hwithin := h.take htok hleaf
  obtain ⟨cs, htail, hcs⟩ := hleaf.sound.boundary.exists_tail?
  rw [meets_bind_upcoming htail]
  split
  . next hquote =>
    rw [beq_iff_eq, List.head?_eq_some_iff] at hquote
    obtain ⟨cs, rfl⟩ := hquote
    have hrunning : s₁.halted = false :=
      hleaf.halted_eq.trans (hnext.running (by simp [hop]))
    obtain ⟨_, hkind⟩ := token_of_head hleaf.sound hrunning hcs (fun _ => rfl) (by decide) s₁.flags
    rw [Lexer.tokenOf_quote] at hkind
    apply (doubleQuoted_meets hinner (hwithin.opens (by simp [hkind])) hkind).bind
    intro string s₂ hstring
    exact hleaf.node_readsFrom hstring.toReads _ (.of_isLoose rfl (by simp))
  . next hquote =>
    have hadmits := hnext.admits cs (hleaf.pos_eq ▸ hcs)
    rw [hop] at hadmits
    have hopens := (hadmits rfl).resolve_left (by simpa using hquote)
    apply (simpleParameter_reads hleaf.sound hcs hopens).bind
    intro name s₂ hname
    exact hleaf.node_readsFrom hname _ (.of_isLoose rfl (by simp))

theorem exists_operator_of_isLiteralStart (h : tok.isLiteralStart) (hword : tok.kind ≠ .word)
    (hraw : tok.kind ≠ .rawString) (hansi : tok.kind ≠ .ansiCString) :
    ∃ op, tok.kind = .operator op := by
  unfold Token.isLiteralStart at h
  split at h
  . contradiction
  . contradiction
  . contradiction
  . next op hkind => exact ⟨op, hkind⟩
  . contradiction

theorem fragmentOf_meets (hinner : inner.Fits env level) (h : Opens env level s.flags s)
    (hnext : Next env s tok) (htok : tok = s.token env s.flags) (hstart : tok.isLiteralStart) :
    Meets env s (fragmentOf inner tok) (ReadsFrom env s tok) := by
  unfold fragmentOf
  split
  . next hkind => exact wordLeaf_meets h.sound hnext hkind
  . next hkind => exact rawString_meets h.sound hnext hkind
  . next hkind => exact ansiCString_meets h.sound hnext hkind
  . next hop => exact htok ▸ doubleQuoted_meets hinner h (htok ▸ hop)
  . next hop => exact dollar_meets hinner h hnext htok hop
  . next hop => exact htok ▸ expansion_meets hinner h (htok ▸ hop)
  . next hop =>
    exact htok ▸ parenthesizedSubstitution_meets hinner h (htok ▸ hop) .commandSubstitution
      (fun _ _ _ hleaf hends =>
        .mk rfl trivial (fun hclean _ => .inl ⟨startsWith_cons hleaf, hends hclean⟩) rfl (by simp)
          (by simp) (by simp [StartsWith, hleaf])) _
  . next hop => exact htok ▸ arithmeticExpansion_meets hinner h (htok ▸ hop)
  . next hop => exact htok ▸ backtickSubstitution_meets hinner h (htok ▸ hop)
  . next hword hraw hansi _ _ _ _ _ _ =>
    obtain ⟨op, hop⟩ := exists_operator_of_isLiteralStart hstart hword hraw hansi
    exact htok ▸ parenthesizedSubstitution_meets hinner h (htok ▸ hop) .processSubstitution
      (fun _ _ _ _ hends => .mk rfl trivial fun hclean _ => hends hclean) _

theorem ne_eof_of_isLiteralStart (h : tok.isLiteralStart) : tok.kind ≠ .eof := by
  intro hkind
  simp [Token.isLiteralStart, hkind] at h

theorem fragment_meets (hinner : inner.Fits env level)
    (hwithin : Within env (level + 1) (room + 1) s) :
    Meets env s (fragment inner) (ReadsLiteral env s) := by
  unfold fragment
  apply (peek_meets hwithin.sound).bind
  intro tok s₁ hpeek
  split
  . next hstart =>
    have hkind := ne_eof_of_isLiteralStart hstart
    have hrunning := hpeek.next.running hkind
    have hwithin₁ := hwithin.stays hpeek.stays
    apply nest_meets hwithin₁
    -- the limit on the nesting cuts the literal off: the halt is what makes less to read
    . intro node s₂ hnode hhalted hlimit
      have hless := hnode.remaining_lt_of_halted hrunning hhalted
      have hle := hpeek.stays.reads.remaining_le
      refine ⟨⟨hpeek.stays.reads.trans hnode, Nat.lt_of_lt_of_le hless hle⟩,
        hpeek.eq_token ▸ hstart, ?_, .inl hhalted⟩
      intro hdepth
      rw [hpeek.stays.depth_eq, hrunning] at hlimit
      simp only [Bool.false_eq_true, false_or] at hlimit
      omega
    . intro _ hdepth
      have htok : tok = s₁.token env s₁.flags := by
        rw [hpeek.stays.token_eq, hpeek.stays.flags_eq, hpeek.eq_token]
      have hroom := hwithin₁.with_depth.toRoom.renewed (hpeek.next.pos_lt_stop hkind)
      have hdeeper : Opens env level s₁.flags { s₁ with depth := s₁.depth + 1 } :=
        ⟨htok ▸ hroom, hwithin₁.with_depth.sound, fun heof => hkind (htok ▸ heof)⟩
      have hnext : Next env { s₁ with depth := s₁.depth + 1 } tok := { hpeek.next with }
      apply (fragmentOf_meets hinner hdeeper hnext htok hstart).bind
      intro node s₂ hnode
      have hreads := hpeek.stays.reads.trans hnode.toReads.leave
      have hlt := hpeek.next.pos_lt_stop hkind
      have hstop := hnode.stop_le
      have hpos := hpeek.stays.pos_eq
      refine ⟨hreads.takes ?_, hpeek.eq_token ▸ hstart, ?_,
        .inr (hpeek.stays.depth_eq ▸ hdepth)⟩
      . show s.pos < s₂.pos
        omega
      . intro _
        rw [hnode.start_eq, hpeek.eq_token]
  . next hstart =>
    refine ⟨hpeek.stays, ?_⟩
    rw [← hpeek.eq_token]
    simpa using hstart

/-! ### Literals -/

/-- The fragments behind the first are read, and each is glued to the one before it. -/
structure Fragments (env : Env) (s₁ : State) (first : Node) (parts : List Node) (s : State) :
    Prop where
  reads : ∃ rest, parts = first :: rest ∧ Reads env s₁ rest s
  glued : Node.Glued env.source parts
  ends : ∀ last ∈ parts.getLast?, Ends env last s

namespace Fragments

variable {first : Node} {parts : List Node}

theorem stays (h : Fragments env s₁ first parts s) (hstays : Stays env s s') :
    Fragments env s₁ first parts s' where
  reads := by
    obtain ⟨rest, hparts, hrest⟩ := h.reads
    exact ⟨rest, hparts, hrest.stays hstays⟩
  glued := h.glued
  ends last hlast := (h.ends last hlast).stays hstays

theorem push {part : Node} (h : Fragments env s₁ first parts s)
    (htouches : ∀ last ∈ parts.getLast?, last.Touches env.source part)
    (hpart : Reads env s [part] s') (hends : Ends env part s') :
    Fragments env s₁ first (parts ++ [part]) s' where
  reads := by
    obtain ⟨rest, rfl, hrest⟩ := h.reads
    exact ⟨rest ++ [part], rfl, hrest.trans hpart⟩
  glued := h.glued.push htouches
  ends last hlast := by
    obtain rfl : part = last := by simpa using hlast
    exact hends

end Fragments

theorem literalStep_meets (hinner : inner.Fits env level)
    (hwithin : Within env (level + 1) (room + 1) s₁)
    (hproceeds : s₁.halted = true ∨ s₁.depth < env.options.maxDepth) (first : Node)
    (parts : List Node) (s : State) (h : Fragments env s₁ first parts s) :
    Meets env s (literalStep inner parts) (Steps (Fragments env s₁ first)
      (Fragments env s₁ first) (fun _ s => s.remaining env) parts s) := by
  obtain ⟨rest, hparts, hrest⟩ := h.reads
  obtain ⟨last, hlast⟩ := Option.ne_none_iff_exists'.1
    (mt List.getLast?_eq_none_iff.1 (hparts ▸ List.cons_ne_nil first rest))
  unfold literalStep
  apply ((peek_meets hrest.sound).and_ensures (peek_touches (h.ends last hlast))).bind
  rintro tok s₂ ⟨hpeek, htouches⟩
  have hrest₂ := hrest.stays hpeek.stays
  split
  . next hglued =>
    rw [Bool.and_eq_true] at hglued
    -- the literal goes on, so that neither a halt nor the limit on the nesting has cut it off
    have hrunning := hpeek.next.running (ne_eof_of_isLiteralStart hglued.2)
    have hdepth : s₂.depth < env.options.maxDepth := by
      rw [hrest₂.depth_eq]
      exact hproceeds.resolve_left fun hhalted => by simp [hrest₂.halted hhalted] at hrunning
    apply ((fragment_meets hinner (hwithin.reads hrest₂)).and_ensures
      (fragment_ends hinner.encloses)).bind
    rintro result s₃ ⟨hresult, hends⟩
    cases result with
    | none => exact (h.stays hpeek.stays).stays hresult.1
    | some part =>
      have hstart := hresult.start_eq hdepth
      rw [hpeek.stays.token_eq, hpeek.stays.flags_eq, ← hpeek.eq_token] at hstart
      refine ⟨(h.stays hpeek.stays).push ?_ hresult.toReads (hends part rfl).ends, ?_⟩
      . intro last' hlast'
        rw [Option.mem_unique hlast' hlast]
        exact htouches hglued.1 hglued.2 part hstart
      . exact Nat.lt_of_lt_of_le hresult.less hpeek.stays.reads.remaining_le
  . exact h.stays hpeek.stays

theorem literal_meets (hinner : inner.Fits env level)
    (hwithin : Within env (level + 1) (room + 1) s) :
    Meets env s (literal inner) (ReadsLiteral env s) := by
  unfold literal
  apply ((fragment_meets hinner hwithin).and_ensures (fragment_ends hinner.encloses)).bind
  rintro result s₁ ⟨hresult, hends⟩
  cases result with
  | none => exact hresult
  | some first =>
    obtain ⟨hfirst, hbegins, hstart, hproceeds⟩ := hresult
    have hinit : Fragments env s₁ first [first] s₁ :=
      ⟨⟨[], rfl, .refl hfirst.sound⟩, .singleton first, by simpa using (hends first rfl).ends⟩
    have hproceeds₁ : s₁.halted = true ∨ s₁.depth < env.options.maxDepth := by
      rwa [hfirst.depth_eq]
    apply (repeatStep_consumes _ hinit
      (literalStep_meets hinner (hwithin.reads hfirst.toReads) hproceeds₁ first)).bind
    intro parts s₂ hfragments
    obtain ⟨rest, rfl, hrest⟩ := hfragments.reads
    have hparts := hfirst.trans hrest
    have hproceeds₂ := hproceeds.imp_left hrest.halted
    split
    . next only heq =>
      cases heq
      exact ⟨hparts, hbegins, hstart, hproceeds₂⟩
    . next hmany =>
      have hlength : 2 ≤ (first :: rest).length := by
        cases rest with
        | nil => exact absurd rfl (hmany first)
        | cons second rest => simp
      have hkind : Composes env .concatenation (first :: rest) s₂ :=
        .mk rfl trivial (fun _ _ => trivial) rfl (by simp) fun _ => ⟨hlength, hfragments.glued⟩
      apply (node_made hparts.toReads .concatenation hkind).bind
      intro node s₃ hmade
      refine ⟨⟨hmade.toReads, hmade.eq ▸ hparts.less⟩, hbegins, ?_, hmade.eq ▸ hproceeds₂⟩
      rw [hmade.start_eq first rfl]
      exact hstart

theorem literal_pushes (hinner : inner.Fits env level)
    (hwithin : Within env (level + 1) (room + 1) s) (h : Takes env s₁ nodes s)
    (hstays : Stays env s s') :
    Meets env s' (do
      match ← literal inner with
      | some literal => return .yield (nodes ++ [literal])
      | none => return .done nodes) (StepsOn env (Takes env s₁) nodes s) := by
  apply (literal_meets hinner (hwithin.stays hstays)).bind
  intro result s₂ hresult
  cases result with
  | some literal => exact h.push hstays hresult.toTakes
  | none => exact (h.stays hstays).stays hresult.1

end Grammar
end ShellTree
