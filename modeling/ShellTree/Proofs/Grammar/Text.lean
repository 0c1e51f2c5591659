import ShellTree.Proofs.Parse.Nested

/-!
This module contains the correctness of text with expansions in it. The parts of a string or of a
body tile what has been read of it, and without reports they leave out nothing of it; a body is cut
off where its last line ends, even when a fragment in it has looked further.
-/

namespace ShellTree

theorem opensFragmentInText_iff {c : Char} {cs : List Char} :
    Grammar.opensFragmentInText c cs ↔ c = '\x60' ∨ c = '$' ∧ opensQuotedExpansion cs := by
  simp [Grammar.opensFragmentInText]

theorem quoteOrDollar?_of_opensFragmentInText {c : Char} {cs : List Char}
    (h : Grammar.opensFragmentInText c cs) :
    ∃ op taken, Lexeme.quoteOrDollar? (c :: cs) = some (.operator op, taken) := by
  obtain rfl | ⟨rfl, hopens⟩ := opensFragmentInText_iff.1 h
  . exact ⟨_, _, rfl⟩
  . exact Lexeme.quoteOrDollar?_of_opensQuotedExpansion hopens

theorem tiles_contentBetween {src : Source} {comments : List Span} {start stop : Nat}
    {cs : List Char} (h : src.Spells start stop cs) :
    Tiles src comments (Grammar.contentBetween start stop) start stop := by
  unfold Grammar.contentBetween
  split
  . next hlt => exact Tiles.leaf h
  . next hlt =>
    have hle := h.le
    obtain rfl : start = stop := by omega
    exact tiles_nil.2 (.done h.left)

theorem fills_contentBetween {start stop : Nat} (hle : start ≤ stop) :
    Node.Fills start (Grammar.contentBetween start stop) stop := by
  unfold Grammar.contentBetween
  split
  . exact Node.fills_singleton rfl rfl fun _ => .inl rfl
  . exact ⟨Nat.le_antisymm hle (by omega), by simp⟩

theorem Tiles.fits_margin {src : Source} {comments : List Span} {kind : NodeKind} {span : Span}
    {nodes : List Node} (h : Tiles src comments nodes span.start span.stop)
    (hkind : kind.hasMargins = true) : Node.Fits src comments ⟨kind, span, nodes⟩ := by
  cases nodes with
  | nil =>
    rw [Node.Fits]
    exact h.left.exists_spells h.right span.start_le_stop
  | cons node nodes =>
    rw [Node.Fits]
    exact ⟨h, .inl hkind⟩

theorem Parse.Yields.content {env : Env} {s₁ s : State} {nodes : List Node}
    (h : Yields env s₁ nodes s) (start stop : Nat) :
    Yields env s₁ (nodes ++ Grammar.contentBetween start stop) s := by
  unfold Grammar.contentBetween
  split
  . next hlt =>
    have hsettled : ∀ span, (Node.leaf .content span).Settled env.source s.diagnostics :=
      fun _ => Node.settled_of_standsAlone rfl fun _ => trivial
    have hgenuine : ∀ span, span.start < span.stop →
        (Node.leaf .content span).IsGenuine env.source := fun _ hlt =>
      Node.isGenuine_leaf (by simp) (by simp) (fun _ => hlt) (by simp)
    refine h.trans ⟨.refl h.sound, .leaf _ _, .wrap .nil (hgenuine _ hlt),
      fun _ => ⟨.wrap .nil (hsettled _), ?_⟩, fun _ => Node.allFlat_leaf⟩
    exact (Ledger.nil rfl rfl).wrap (.inr rfl)
  . rwa [List.append_nil]

namespace Grammar

open Parse Source

variable {env : Env} {level : Nat} {inner : Nested} {s s₁ s₂ : State}

/-- The parts and the current run are what has been read of a text from `origin` on. The offset of
the state does not matter. -/
structure TextRun.Fits (env : Env) (s₁ : State) (origin : Nat) (run : TextRun) (s : State) :
    Prop where
  yields : Yields env s₁ run.parts s
  tiles : Tiles env.source s.comments.spans run.parts origin run.start
  spells : ∃ cs, env.source.Spells run.start run.place cs
  filled : s.diagnostics = [] → Node.Fills origin run.parts run.start

theorem left_eq (run : TextRun) (s : State) :
    run.left env s = .ok (env.source.size - run.place, s) := rfl

theorem firstWidth_eq (cs : List Char) : firstWidth cs = byteLength (cs.take 1) := by
  cases cs with
  | nil => rfl
  | cons c cs => simp [firstWidth]

/-- The part is what has been read of a text between two offsets. -/
structure FragmentFits (env : Env) (place : Nat) (s : State) (part : Node) (stop : Nat)
    (s' : State) : Prop where
  yields : Yields env s [part] s'
  place_lt : place < stop
  tiles : Tiles env.source s'.comments.spans [part] place stop
  filled : s'.diagnostics = [] → Node.Fills place [part] stop

namespace TextRun.Fits

variable {origin : Nat} {run : TextRun}

theorem boundary (h : run.Fits env s₁ origin s) : env.source.Boundary run.place := by
  obtain ⟨_, hspells⟩ := h.spells
  exact hspells.right

theorem tiles_partsUpTo (h : run.Fits env s₁ origin s) {stop : Nat}
    (hstop : env.source.Boundary stop) (hle : run.start ≤ stop) :
    Tiles env.source s.comments.spans (run.partsUpTo stop) origin stop := by
  obtain ⟨_, hspells⟩ := h.tiles.right.exists_spells hstop hle
  exact h.tiles.append (tiles_contentBetween hspells)

theorem filled_partsUpTo (h : run.Fits env s₁ origin s) {stop : Nat} (hle : run.start ≤ stop)
    (hclean : s.diagnostics = []) : Node.Fills origin (run.partsUpTo stop) stop :=
  (h.filled hclean).append (fills_contentBetween hle)

theorem sound (h : run.Fits env s₁ origin s) : Sound env s := h.yields.sound

theorem yields_partsUpTo (h : run.Fits env s₁ origin s) (stop : Nat) :
    Yields env s₁ (run.partsUpTo stop) s := h.yields.content _ _

theorem start_le_place (h : run.Fits env s₁ origin s) : run.start ≤ run.place := by
  obtain ⟨_, hspells⟩ := h.spells
  exact hspells.le

theorem origin_le (h : run.Fits env s₁ origin s) : origin ≤ run.place :=
  Nat.le_trans h.tiles.le h.start_le_place

theorem remaining_lt {run' : TextRun} (h : run'.Fits env s₁ origin s)
    (hlt : run.place < run'.place) :
    env.source.size - run'.place < env.source.size - run.place := by
  have hle := h.boundary.le_size
  omega

theorem skip (h : run.Fits env s₁ origin s) {cs : List Char}
    (hcs : env.source.Spells run.place env.source.size cs) (taken : List Char)
    (htaken : taken <+: cs) :
    (run.skip (byteLength taken)).Fits env s₁ origin s := by
  obtain ⟨_, hspells⟩ := h.spells
  exact ⟨h.yields, h.tiles, ⟨_, hspells.append (hcs.trim _ htaken)⟩, h.filled⟩

theorem skip_first (h : run.Fits env s₁ origin s) {c : Char} {cs : List Char}
    (hcs : env.source.Spells run.place env.source.size (c :: cs)) :
    (run.skip c.utf8Size).Fits env s₁ origin s :=
  h.skip hcs [c] ⟨cs, rfl⟩

theorem skip_escape (h : run.Fits env s₁ origin s) {cs : List Char}
    (hcs : env.source.Spells run.place env.source.size ('\\' :: cs)) :
    (run.skip (1 + firstWidth cs)).Fits env s₁ origin s := by
  have htaken : '\\' :: cs.take 1 <+: '\\' :: cs :=
    (List.prefix_cons_inj _).2 (by apply List.take_prefix)
  have hwidth : byteLength ('\\' :: cs.take 1) = 1 + firstWidth cs := by
    rw [firstWidth_eq]
    rfl
  rw [← hwidth]
  exact h.skip hcs _ htaken

theorem after (h : run.Fits env s₁ origin s) (hyields : Yields env s [] s₂) :
    run.Fits env s₁ origin s₂ :=
  ⟨by simpa using h.yields.trans hyields, h.tiles.mono hyields.comments, h.spells,
    fun hclean => h.filled (hyields.clean hclean)⟩

theorem split (h : run.Fits env s₁ origin s) {c : Char} {cs : List Char}
    (hcs : env.source.Spells run.place env.source.size (c :: cs)) (hc : c.utf8Size = 1) :
    run.split.Fits env s₁ origin s := by
  have htaken := hcs.trim [c] ⟨cs, rfl⟩
  simp only [byteLength_cons, byteLength_nil, hc] at htaken
  exact ⟨h.yields_partsUpTo _, h.tiles_partsUpTo h.boundary h.start_le_place, ⟨_, htaken⟩,
    h.filled_partsUpTo h.start_le_place⟩

theorem push (h : run.Fits env s₁ origin s) {part : Node} {stop : Nat}
    (hpart : FragmentFits env run.place s part stop s₂) :
    (run.push part stop).Fits env s₁ origin s₂ := by
  have hparts := h.tiles_partsUpTo h.boundary h.start_le_place
  refine ⟨(h.yields_partsUpTo _).trans hpart.yields,
    (hparts.mono hpart.yields.comments).append hpart.tiles, ⟨_, hpart.tiles.right⟩, ?_⟩
  intro hclean
  have hfilled := h.filled_partsUpTo h.start_le_place (hpart.yields.clean hclean)
  exact hfilled.append (hpart.filled hclean)

end TextRun.Fits

theorem fits_startAt {origin : Nat} (horigin : env.source.Boundary origin) (hs : Sound env s) :
    (TextRun.startAt origin).Fits env s origin s :=
  ⟨(Reads.refl hs).toYields, tiles_nil.2 (.done horigin), ⟨_, horigin⟩,
    fun _ => ⟨rfl, by simp [TextRun.startAt]⟩⟩

/-- A fragment of a text that may be missing. -/
def ReadsFragment (env : Env) (place : Nat) (s : State) : Option (Node × Nat) → State → Prop
  | none, s' => Yields env s [] s'
  | some (part, stop), s' => FragmentFits env place s part stop s'

theorem utf8Size_of_opensFragmentInText {c : Char} {cs : List Char}
    (h : opensFragmentInText c cs) : c.utf8Size = 1 := by
  obtain rfl | ⟨rfl, -⟩ := opensFragmentInText_iff.1 h <;> rfl

/-- What opens a fragment in a text is an operator, if it is no closer. -/
theorem exists_operator_of_opensFragmentInText (hs : Sound env s) (hrunning : s.halted = false)
    {c : Char} {cs : List Char} (hcs : env.source.Spells s.pos env.source.size (c :: cs))
    (hopens : opensFragmentInText c cs) (hstart : (s.token env s.flags).isLiteralStart) :
    (s.token env s.flags).span.start = s.pos ∧
      ∃ op, (s.token env s.flags).kind = .operator op := by
  have hc : c = '"' ∨ c = '\x60' ∨ c = '$' :=
    .inr ((opensFragmentInText_iff.1 hopens).imp_right And.left)
  have hhead : (∀ ds, Trivia.isTrivia (c :: ds) = false) ∧ c ≠ '#' := by
    obtain rfl | rfl | rfl := hc <;> exact ⟨fun _ => rfl, by decide⟩
  obtain ⟨hpos, hkind⟩ := token_of_head hs hrunning hcs hhead.1 hhead.2 s.flags
  obtain ⟨op, taken, hquote⟩ := quoteOrDollar?_of_opensFragmentInText hopens
  refine ⟨hpos, op, ?_⟩
  obtain hopener | hcloser := Lexer.tokenOf_of_opener s.mode (s.requestFlags s.flags) hc hquote
  . rw [hkind, hopener]
  . rw [hcloser] at hkind
    simp [Token.isLiteralStart, hkind] at hstart

/-- Without reports a fragment begins where it opens and ends where the parse goes on. -/
theorem fragment_fills {part : Node} {s' : State} (h : TakesLiteral env s part s')
    (hends : EndsFragment env s part s') (hs : Sound env s) {c : Char} {cs : List Char}
    (hcs : env.source.Spells s.pos env.source.size (c :: cs)) (hopens : opensFragmentInText c cs)
    (hclean : s'.diagnostics = []) : Node.Fills s.pos [part] s'.pos := by
  have hrunning := h.sound.running_of_clean hclean
  have hdepth := h.proceeds.resolve_left (by simp [hrunning])
  obtain ⟨hstart, op, hop⟩ := exists_operator_of_opensFragmentInText hs (h.running hrunning) hcs
    hopens h.begins
  have hstop : part.span.stop = s'.pos := by
    obtain hstop | ⟨_, hopen⟩ | ⟨_, hblemished⟩ := hends.ends
    . exact hstop
    . have hsettled := (h.accounts hrunning).1
      exact absurd (hsettled.self.closed hclean) hopen
    . simp [Blemished, hrunning, hclean] at hblemished
  exact Node.fills_singleton ((h.start_eq hdepth).trans hstart) hstop fun hempty =>
    absurd hempty (hends.composite op hop hrunning)

theorem fragmentAt_meets (hinner : inner.Fits env level) (hs : Sound env s) {place : Nat}
    {c : Char} {cs : List Char} (hcs : env.source.Spells place env.source.size (c :: cs))
    (hopens : opensFragmentInText c cs) (hroom : Room env level 2 place s.depth) :
    Meets env s (fragmentAt inner place) fun result s' =>
      ReadsFragment env place s result s' ∧ ((result.map Prod.snd).getD place) = s'.pos := by
  unfold fragmentAt
  rw [meets_bind_setPosition]
  have hsound := hs.with_pos hcs.left
  have hwithin : Within env level 2 { s with pos := place } := ⟨hroom, hsound⟩
  apply ((hinner.fragment hwithin).and_ensures (hinner.encloses.fragment env _)).bind
  rintro result s' ⟨hresult, hends⟩
  cases result with
  | none =>
    have hstays := hresult.1
    exact ⟨⟨{ hstays.reached with }, .nil, .nil, hstays.yields.accounts, fun _ => trivial⟩,
      hstays.pos_eq.symm⟩
  | some part =>
    have hfilled := fragment_fills hresult (hends part rfl) hsound hcs hopens
    obtain ⟨hreads, hless⟩ := hresult.toTakes
    rw [meets_bind_position]
    have hreached : Reached env s s' := { hreads.toReached with }
    split
    . next hlt =>
      exact ⟨⟨⟨hreached, hreads.bound, hreads.genuine, hreads.accounts, hreads.flat⟩, hlt,
        hreads.tiles, hfilled⟩, rfl⟩
    . next hlt =>
      have hle : place ≤ s'.pos := hreads.pos_le
      have hpos : place = s'.pos := by omega
      -- a fragment that has taken nothing has halted
      have hhalted := State.halted_of_remaining_lt hpos.symm hless
      exact ⟨hreached.yields fun hrunning => by simp [hhalted] at hrunning, hpos⟩

/-- The nodes of a string are read up to its end. -/
structure ReadsString (env : Env) (s : State) (nodes : List Node) (s' : State) : Prop
    extends ReadsUpTo env "\"" s nodes s' where
  filled : s'.diagnostics = [] → Node.Fills s.pos nodes s'.pos

/-- A step of a string goes on in the text, or takes the nodes of the string up to its end. -/
abbrev StringSteps (env : Env) (s₁ : State) (run : TextRun) (s : State) :
    ForInStep TextRun → State → Prop :=
  Steps (fun run s => run.Fits env s₁ s₁.pos s) (fun run s' => ReadsString env s₁ run.parts s')
    (fun run _ => env.source.size - run.place) run s

section

variable {run : TextRun}

theorem afterFragment_meets {run' : TextRun} {s' : State} (h : run'.Fits env s₁ s₁.pos s')
    (hstart : run'.start = s'.pos) (hlt : run.place < run'.place) :
    Meets env s' (do return if ← isHalted then .done run' else .yield run')
      (StringSteps env s₁ run s) := by
  rw [meets_bind_isHalted]
  split
  . next hhalted =>
    have hunclean : s'.diagnostics ≠ [] := fun hclean => by
      simp [h.sound.running_of_clean hclean] at hhalted
    exact ⟨⟨⟨h.yields, hstart ▸ h.tiles⟩, fun hclean => absurd hclean hunclean⟩,
      fun hclean => absurd hclean hunclean⟩
  . exact ⟨h, h.remaining_lt hlt⟩

theorem stringFragment_meets (hinner : inner.Fits env level)
    (hroom : Room env level 2 run.place s.depth) (h : run.Fits env s₁ s₁.pos s) {c : Char}
    {cs : List Char} (hcs : env.source.Spells run.place env.source.size (c :: cs))
    (hopens : opensFragmentInText c cs) :
    Meets env s (do
      let run :=
        match ← fragmentAt inner run.place with
        | some (part, stop) => run.push part stop
        | none => run.split
      return if ← isHalted then .done run else .yield run) (StringSteps env s₁ run s) := by
  apply (fragmentAt_meets hinner h.sound hcs hopens hroom).bind
  intro result s' hresult
  obtain ⟨hresult, hstop⟩ := hresult
  cases result with
  | none =>
    have hsplit := (h.after hresult).split hcs (utf8Size_of_opensFragmentInText hopens)
    exact afterFragment_meets hsplit hstop (Nat.lt_succ_self _)
  | some fragment =>
    obtain ⟨part, stop⟩ := fragment
    exact afterFragment_meets (h.push hresult) hstop hresult.place_lt

theorem stringStep_meets (hinner : inner.Fits env level) {start : Nat}
    (hstart : start ≤ env.source.size) (hroom : Room env level 2 s₁.pos s₁.depth)
    (run : TextRun) (s : State) (h : run.Fits env s₁ s₁.pos s) :
    Meets env s (stringStep inner start run) (StringSteps env s₁ run s) := by
  obtain ⟨cs, htail, hcs⟩ := h.boundary.exists_tail?
  -- what has been read of the string, with the run of content that ends here
  have hparts : Reads env s₁ (run.partsUpTo run.place) { s with pos := run.place } := by
    have hyields := h.yields_partsUpTo run.place
    refine ⟨⟨{ hyields.toReached with sound := h.sound.with_pos h.boundary }, hyields.bound,
      hyields.genuine, hyields.accounts, hyields.flat⟩, ?_⟩
    exact h.tiles_partsUpTo h.boundary h.start_le_place
  unfold stringStep
  rw [meets_bind_charactersAt htail]
  cases cs with
  | nil =>
    dsimp only
    rw [meets_bind_setPosition]
    apply (reportUnclosed_reports hparts.sound _ hstart rfl).bind
    intro _ s' hreport
    exact ⟨hreport.upTo hparts, fun hclean => absurd hclean hreport.ne_nil⟩
  | cons c cs =>
    dsimp only
    split
    . next hquote =>
      rw [beq_iff_eq] at hquote
      subst hquote
      have hspells := hcs.trim ['"'] ⟨cs, rfl⟩
      have hquote : Meets env s (leafAt (.token "\"") (.ofWidth run.place 1))
          (Taken env { s with pos := run.place } (.ofWidth run.place 1)) :=
        textLeaf_meets hparts.sound (.done h.boundary) hspells (by decide)
      apply (hquote.and_returns (leafAt_returns _ _)).bind
      rintro quote s' ⟨hquote, rfl⟩
      refine ⟨hparts.upTo ⟨hquote.toReads, fun _ => endsWith_singleton rfl⟩, fun hclean => ?_⟩
      have hfilled := h.filled_partsUpTo h.start_le_place (hquote.clean hclean)
      exact hfilled.append (Node.fills_singleton rfl hquote.pos_eq.symm fun _ => .inr rfl)
    . split
      . next hescape =>
        rw [beq_iff_eq] at hescape
        subst hescape
        have hskip := h.skip_escape hcs
        exact ⟨hskip, hskip.remaining_lt (Nat.lt_add_of_pos_right (by omega))⟩
      . split
        . next hopens =>
          have hroom := h.yields.depth_eq ▸ hroom.mono h.origin_le
          exact stringFragment_meets hinner hroom h hcs hopens
        . have hskip := h.skip_first hcs
          exact ⟨hskip, hskip.remaining_lt (Nat.lt_add_of_pos_right c.utf8Size_pos)⟩

end

theorem doubleQuoted_meets (hinner : inner.Fits env level) (h : Opens env level s.flags s)
    (hquote : (s.token env s.flags).kind = .operator "\"") :
    Meets env s (doubleQuoted inner) (ReadsFrom env s (s.token env s.flags)) := by
  unfold doubleQuoted
  apply (peek_meets h.sound).bind
  intro opener s₁ hpeek
  apply (tokenLeaf_opens hpeek.stays.sound hpeek.next (hpeek.kind_eq.symm.trans hquote)).bind
  rintro leaf s₂ ⟨hleaf, hleafKind⟩
  rw [meets_bind_position]
  have hwithin := h.taken hpeek hleaf
  have hinit := fits_startAt hwithin.sound.boundary hwithin.sound
  apply (repeatStep_meets _ _ hinit (by omega) left_eq
    (stringStep_meets hinner hpeek.next.start_le_size hwithin.toRoom)).bind
  intro run s₃ hrun
  have hfirst : Node.Fills leaf.span.start [leaf] s₂.pos :=
    Node.fills_singleton rfl (hleaf.pos_eq.trans (by rw [hleaf.span_eq])).symm fun _ =>
      .inr hleafKind
  exact hpeek.node_readsFrom hleaf hrun.toReads .string
    (.mk rfl trivial (fun hclean _ => hrun.ends hclean) rfl (by simp) (by simp) (by simp) (by simp)
      fun _ hclean => ⟨startsWith_cons hleafKind, _, _, hfirst.append (hrun.filled hclean)⟩)

/-- What a body needs besides: no part of it runs over its end. -/
structure BodyRun (env : Env) (s₁ : State) (body : Span) (run : TextRun) (s : State) : Prop
    extends run.Fits env s₁ body.start s where
  stop_le : ∀ part ∈ run.parts, part.span.stop ≤ body.stop

theorem mem_contentBetween {start stop : Nat} {part : Node}
    (h : part ∈ contentBetween start stop) : part.span.stop = stop := by
  unfold contentBetween at h
  split at h
  . rw [List.mem_singleton] at h
    rw [h]
    rfl
  . simp at h

theorem fragmentWithin_meets (hinner : inner.Fits env level) (hs : Sound env s) {body : Span}
    {place : Nat} {c : Char} {cs : List Char}
    (hcs : env.source.Spells place env.source.size (c :: cs)) (hopens : opensFragmentInText c cs)
    (hroom : Room env level 2 place s.depth) :
    Meets env s (fragmentWithin inner body place) fun result s' =>
      ReadsFragment env place s result s' ∧
        ∀ fragment ∈ result, fragment.1.span.stop ≤ body.stop := by
  unfold fragmentWithin
  refine attempt_meets (?_ : Meets env s _ fun result s' => Reached env s s' ∧
    ∀ fragment ∈ result, ReadsFragment env place s (some fragment) s' ∧
      fragment.1.span.stop ≤ body.stop) ?_ ?_
  . apply (fragmentAt_meets hinner hs hcs hopens hroom).bind
    intro result s' hresult
    cases result with
    | none => exact ⟨hresult.1.toReached, by simp⟩
    | some fragment =>
      obtain ⟨part, stop⟩ := fragment
      dsimp only
      split
      . next hstop => exact ⟨hresult.1.yields.toReached, by simpa using ⟨hresult.1, hstop⟩⟩
      . exact ⟨hresult.1.yields.toReached, by simp⟩
  . intro fragment s' h
    have hfragment := h.2 fragment rfl
    exact ⟨hfragment.1, by simpa using hfragment.2⟩
  . intro s' h
    exact ⟨(restored_reads hs h.1).toYields, by simp⟩

theorem BodyRun.push {body : Span} {run : TextRun} (h : BodyRun env s₁ body run s)
    (hplace : run.place < body.stop) {part : Node} {stop : Nat}
    (hpart : FragmentFits env run.place s part stop s₂) (hstop : part.span.stop ≤ body.stop) :
    BodyRun env s₁ body (run.push part stop) s₂ := by
  refine ⟨h.toFits.push hpart, ?_⟩
  intro node hnode
  simp only [TextRun.push, TextRun.partsUpTo, List.mem_append, List.mem_singleton] at hnode
  obtain (hnode | hnode) | rfl := hnode
  . exact h.stop_le node hnode
  . have := mem_contentBetween hnode
    omega
  . exact hstop

theorem bodyStep_meets (hinner : inner.Fits env level) {body : Span}
    (hroom : Room env level 2 body.start s₁.depth) (run : TextRun) (s : State)
    (h : BodyRun env s₁ body run s) :
    Meets env s (bodyStep inner body run)
      (Steps (BodyRun env s₁ body) (BodyRun env s₁ body)
        (fun run _ => env.source.size - run.place) run s) := by
  have hle := h.origin_le
  unfold bodyStep
  split
  . exact h
  . next hplace =>
    obtain ⟨cs, htail, hcs⟩ := h.boundary.exists_tail?
    rw [meets_bind_charactersAt htail]
    cases cs with
    | nil => exact h
    | cons c cs =>
      -- what is read without a fragment leaves the parts as they are
      have hskip : ∀ width s', 0 < width → (run.skip width).Fits env s₁ body.start s' →
          BodyRun env s₁ body (run.skip width) s' ∧
            env.source.size - (run.skip width).place < env.source.size - run.place :=
        fun width s' hpos hfits =>
          ⟨⟨hfits, h.stop_le⟩, hfits.remaining_lt (Nat.lt_add_of_pos_right hpos)⟩
      dsimp only
      split
      . next hescape =>
        rw [beq_iff_eq] at hescape
        subst hescape
        split
        . exact hskip _ s (by omega) (h.skip_escape hcs)
        . exact hskip _ s (by omega) (h.skip_first hcs)
      . split
        . next hopens =>
          have hroom := h.yields.depth_eq ▸ hroom.mono h.origin_le
          apply (fragmentWithin_meets hinner h.sound hcs hopens hroom).bind
          intro result s' hresult
          obtain ⟨hresult, hstop⟩ := hresult
          cases result with
          | none =>
            have hfirst := (h.toFits.after hresult).skip_first hcs
            rw [utf8Size_of_opensFragmentInText hopens] at hfirst
            exact hskip 1 s' (by omega) hfirst
          | some fragment =>
            obtain ⟨part, stop⟩ := fragment
            have hpush := h.push (by omega) hresult (hstop _ rfl)
            exact ⟨hpush, hpush.remaining_lt hresult.place_lt⟩
        . exact hskip _ s c.utf8Size_pos (h.skip_first hcs)

theorem BodyRun.tiles_body {body : Span} {run : TextRun} (h : BodyRun env s₁ body run s)
    (hstop : env.source.LineStart body.stop) :
    Tiles env.source s.comments.spans (run.partsUpTo (max body.stop run.start)) body.start
      body.stop := by
  by_cases hle : run.start ≤ body.stop
  . rw [Nat.max_eq_left hle]
    simpa using h.tiles_partsUpTo hstop.boundary hle
  . -- a fragment has looked over the end of the body
    have hparts : run.partsUpTo (max body.stop run.start) = run.parts := by
      unfold TextRun.partsUpTo contentBetween
      rw [Nat.max_eq_right (by omega), dif_neg (by omega), List.append_nil]
    rw [hparts]
    have htiles : Tiles env.source s.comments.spans run.parts body.start run.start := h.tiles
    apply htiles.cut hstop body.start_le_stop (by omega)
    intro last hlast
    exact h.stop_le last (List.mem_of_getLast? hlast)

theorem BodyRun.fills_body {body : Span} {run : TextRun} (h : BodyRun env s₁ body run s)
    (hclean : s.diagnostics = []) :
    Node.Fills body.start (run.partsUpTo (max body.stop run.start)) body.stop := by
  have hle := (h.filled hclean).abuts.stop_le h.stop_le body.start_le_stop
  rw [Nat.max_eq_left hle]
  exact h.filled_partsUpTo hle hclean

structure ReadsBody (env : Env) (s : State) (body : Span) (node : Node) (s' : State) : Prop where
  kind_eq : node.kind = .heredocBody
  span_eq : node.span = body
  yields : Yields env s node.children s'
  fits : node.Fits env.source s'.comments.spans
  filled : s'.diagnostics = [] → node.IsFilled

theorem heredocBody_meets (hinner : inner.Fits env level) (hs : Sound env s) {body : Span}
    (hstart : env.source.Boundary body.start)
    (hstop : body.stop = body.start ∨ env.source.LineStart body.stop)
    (hroom : Room env level 2 body.start s.depth) (quoted : Bool) :
    Meets env s (heredocBody inner body quoted) (ReadsBody env s body) := by
  have hboundary : env.source.Boundary body.stop := by
    cases hstop with
    | inl heq => exact heq ▸ hstart
    | inr hline => exact hline.boundary
  unfold heredocBody
  split
  . obtain ⟨_, hspells⟩ := hstart.exists_spells hboundary body.start_le_stop
    have hyields := (Reads.refl hs).content body.start body.stop
    exact ⟨rfl, rfl, hyields, Tiles.fits_margin (tiles_contentBetween hspells) rfl,
      fun _ => fills_contentBetween body.start_le_stop⟩
  . next hempty =>
    have hline : env.source.LineStart body.stop := by
      cases hstop with
      | inl heq =>
        have : body.isEmpty = true := by simp [Span.isEmpty, heq]
        simp [this] at hempty
      | inr hline => exact hline
    have hcommand := hs.with_mode .command
    have hinit : BodyRun env { s with modes := .command :: s.modes } body (.startAt body.start)
        { s with modes := .command :: s.modes } :=
      ⟨fits_startAt hstart hcommand, by simp [TextRun.startAt]⟩
    have hloop := repeatStep_meets (BodyRun env { s with modes := .command :: s.modes } body)
      (fun run _ => env.source.size - run.place) hinit (by omega) left_eq
      (bodyStep_meets hinner hroom)
    have hrun : Meets env s (inMode .command (repeatStep (bodyStep inner body)
        (.startAt body.start) TextRun.left)) fun run s' =>
          Yields env s (run.partsUpTo (max body.stop run.start)) s' ∧
            Tiles env.source s'.comments.spans (run.partsUpTo (max body.stop run.start))
              body.start body.stop ∧
            (s'.diagnostics = [] →
              Node.Fills body.start (run.partsUpTo (max body.stop run.start)) body.stop) := by
      apply inMode_meets hs
      apply hloop.mono
      intro run s' h
      have hyields := h.yields_partsUpTo (max body.stop run.start)
      exact ⟨hyields.modes_eq, hyields.leave_mode hs (hyields.flat_of_mode (by simp)),
        h.tiles_body hline, h.fills_body⟩
    apply hrun.bind
    rintro run s' ⟨hyields, htiles, hfilled⟩
    exact ⟨rfl, rfl, hyields, htiles.fits_margin rfl, hfilled⟩

end Grammar
end ShellTree
