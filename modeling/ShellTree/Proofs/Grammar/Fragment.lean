import ShellTree.Grammar.Literal
import ShellTree.Proofs.Parse.Ensures
import ShellTree.Proofs.Parse.Nested

/-!
This module contains where the fragments of literals end. The parse goes on where the node of a
fragment ends, or it gives up at the end of the input, or the fragment is a substitution without its
closer, in which line breaks may have been taken behind the last statement. What an operator opens
has the operator in it.
-/

namespace ShellTree

open Parse

namespace Lexer

/-- What begins a literal right away is no trivia under any request. -/
theorem next_adjacent {src : Source} {offset : Nat} {mode : Mode} {flags : Flags} {tok : Token}
    {comments : List Span} (h : next src offset mode flags = .ok (tok, comments))
    (hadjacent : tok.adjacent) (hliteral : tok.isLiteralStart) :
    tok.span.start = offset ∧
      ∀ mode' flags', (skipTrivia src offset mode' flags').1 < src.size := by
  unfold next at h
  dsimp only at h
  split at h
  . next cs htail =>
    cases h
    rw [beq_iff_eq] at hadjacent
    have hkind : (tokenOf mode flags cs).1 ≠ .newline ∧ (tokenOf mode flags cs).1 ≠ .error ∧
        (tokenOf mode flags cs).1 ≠ .eof := by
      refine ⟨fun hkind => ?_, fun hkind => ?_, fun hkind => ?_⟩
      all_goals simp [Token.isLiteralStart, hkind] at hliteral
    obtain ⟨hnewline, herror, heof⟩ := hkind
    rw [hadjacent] at htail
    refine ⟨hadjacent, fun mode' flags' => ?_⟩
    simp only [skipTrivia, Trivia.skip, htail] at hadjacent ⊢
    rw [skipFrom_eq_of_stays hadjacent hnewline herror]
    exact (Source.tail?_eq_some_iff.1 htail).lt (mt (tokenOf_tokenOf mode flags cs).eof_iff.2 heof)
  . split at h
    . cases h
      cases hliteral
    . cases h

end Lexer

namespace Parse

variable {env : Env} {s s' : State} {inner : Nested} {nodes : List Node} {last : Node}

/-! ### What ends a fragment -/

/-- The last of the nodes ends where the parse goes on, or nothing is left to read. -/
def Stops (env : Env) (nodes : List Node) (s : State) : Prop :=
  (∃ last ∈ nodes.getLast?, last.span.stop = s.pos) ∨ GivesUp env s

theorem Stops.ends (h : Stops env [last] s) : Ends env last s := by
  obtain ⟨_, hlast, hstop⟩ | hend := h
  . cases hlast
    exact .inl hstop
  . exact .inr (.inr hend)

theorem stops_concat (hstop : last.span.stop = s.pos) : Stops env (nodes ++ [last]) s :=
  .inl ⟨last, by simp, hstop⟩

theorem exists_last_append (before : List Node)
    (h : ∃ last ∈ nodes.getLast?, last.span.stop = s.pos) :
    ∃ last ∈ (before ++ nodes).getLast?, last.span.stop = s.pos := by
  obtain ⟨last, hlast, hstop⟩ := h
  exact ⟨last, by rw [List.getLast?_append, hlast]; rfl, hstop⟩

theorem Stops.prepend (h : Stops env nodes s) (before : List Node) :
    Stops env (before ++ nodes) s := h.imp_left (exists_last_append before)

/-- A node ends where the last of its children does. -/
theorem node_stop_eq {node leaf : Node} (h : ∃ last ∈ nodes.getLast?, last.span.stop = s.pos)
    (hnode : ∀ last ∈ (leaf :: nodes).getLast?, node.span.stop = last.span.stop) :
    node.span.stop = s.pos := by
  obtain ⟨last, hlast, hstop⟩ := exists_last_append [leaf] h
  rw [hnode last hlast, hstop]

theorem Stops.node_ensures (h : Stops env nodes s) (kind : NodeKind) (leaf : Node) :
    Ensures env s (node kind (leaf :: nodes)) fun node s' => Stops env [node] s' := by
  refine (Parse.node_ensures kind (leaf :: nodes)).mono ?_
  rintro node s' ⟨rfl, _, _, hnode⟩
  exact h.imp_left fun hlast => ⟨node, rfl, node_stop_eq hlast hnode⟩

theorem tokenLeaf_stops (tok : Token) :
    Ensures env s (tokenLeaf tok) fun leaf s' => Stops env [leaf] s' := by
  refine (tokenLeaf_ensures tok).mono ?_
  rintro _ s' ⟨rfl, hpos⟩
  exact .inl ⟨_, rfl, hpos.symm⟩

theorem leafAt_stops (kind : NodeKind) (span : Span) :
    Ensures env s (leafAt kind span) fun leaf s' => Stops env [leaf] s' := by
  refine (leafAt_ensures kind span).mono ?_
  rintro _ s' ⟨rfl, hpos⟩
  exact .inl ⟨_, rfl, hpos.symm⟩

theorem inMode_stops {mode : Mode} {m : Parse (List Node)}
    (h : ∀ s, Ensures env s m (Stops env)) : Ensures env s (inMode mode m) (Stops env) :=
  ensures_inMode fun s₁ => (h s₁).mono fun _ _ hstops _ => hstops

theorem withFlags_stops {flags : Flags} {m : Parse (List Node)}
    (h : ∀ s, Ensures env s m (Stops env)) : Ensures env s (withFlags flags m) (Stops env) :=
  ensures_withFlags fun s₁ => (h s₁).mono fun _ _ hstops _ => hstops

theorem opened_stops {kind : NodeKind} {body : Token → Parse (List Node)}
    (hbody : ∀ opener s, Ensures env s (body opener) (Stops env)) :
    Ensures env s
      (do
        let opener ← peek
        let leaf ← tokenLeaf opener
        let parts ← body opener
        node kind (leaf :: parts))
      fun node s' => Stops env [node] s' := by
  iterate 2
    apply ensures_bind
    intro _ _
  refine (hbody _ _).bind fun parts s₁ hparts => ?_
  exact hparts.node_ensures kind _

end Parse

namespace Grammar

variable {env : Env} {s s' : State} {inner : Nested} {nodes : List Node} {last : Node}

/-! ### Words, strings and expansions -/

theorem rawString_stops (tok : Token) :
    Ensures env s (rawString tok) fun leaf s' => Stops env [leaf] s' := by
  unfold rawString
  split
  . apply ensures_bind
    intro _ s₁
    exact tokenLeaf_stops tok
  . exact tokenLeaf_stops tok

theorem ansiCString_stops (tok : Token) :
    Ensures env s (ansiCString tok) fun leaf s' => Stops env [leaf] s' := by
  unfold ansiCString
  split
  . apply ensures_bind
    intro _ s₁
    exact tokenLeaf_stops tok
  . exact tokenLeaf_stops tok

theorem fragmentStep_stops (run : TextRun) :
    Ensures env s (do return if ← isHalted then .done run else .yield run)
      (Finishes fun run s' => Stops env run.parts s') := by
  rintro result s' ⟨⟩
  split
  . next hhalted => exact .inr ⟨.inl hhalted, .inl hhalted⟩
  . trivial

theorem stringStep_stops (start : Nat) (run : TextRun) :
    Ensures env s (stringStep inner start run)
      (Finishes fun run s' => Stops env run.parts s') := by
  unfold stringStep
  refine (charactersAt_ensures run.place).bind ?_
  rintro cs _ ⟨rfl, htail⟩
  cases cs with
  | nil =>
    dsimp only
    rw [ensures_bind_setPosition]
    refine (reportUnclosed_waits _ start).bind fun _ s₁ hwaits => ensures_pure (.inr ?_)
    exact ⟨hwaits.1.atEnd (atEnd_of_tail? htail), hwaits.2⟩
  | cons c cs =>
    dsimp only
    split
    . refine (leafAt_ensures _ _).bind ?_
      rintro quote s₁ ⟨rfl, hpos⟩
      exact ensures_pure (stops_concat hpos.symm)
    . split
      . exact ensures_pure trivial
      . split
        . apply ensures_bind
          intro result s₁
          cases result with
          | none => exact fragmentStep_stops _
          | some fragment => exact fragmentStep_stops _
        . exact ensures_pure trivial

theorem doubleQuoted_stops :
    Ensures env s (doubleQuoted inner) fun string s' => Stops env [string] s' := by
  unfold doubleQuoted
  iterate 3
    apply ensures_bind
    intro _ _
  refine (ensures_repeatStep fun run s₁ => stringStep_stops _ run).bind fun run s₁ hrun => ?_
  exact hrun.node_ensures .string _

/-- The name is missing where the input ends. -/
theorem simpleParameter_stops :
    Ensures env s simpleParameter fun name s' =>
      name = [] ∧ s' = s ∨ ∃ last ∈ name.getLast?, last.span.stop = s'.pos := by
  unfold simpleParameter
  refine upcoming_ensures.bind ?_
  rintro cs _ ⟨rfl, htail⟩
  cases cs with
  | nil => exact ensures_pure (.inl ⟨rfl, rfl⟩)
  | cons c cs =>
    have hleaf : ∀ {kind span} s₁, Ensures env s₁ (do return [← leafAt kind span]) fun name s' =>
        name = [] ∧ s' = s₁ ∨ ∃ last ∈ name.getLast?, last.span.stop = s'.pos := by
      intro kind span s₁
      refine (leafAt_ensures kind span).bind ?_
      rintro leaf s₂ ⟨rfl, hpos⟩
      exact ensures_pure (.inr ⟨_, rfl, hpos.symm⟩)
    dsimp only
    split
    . exact hleaf _
    . split
      . exact hleaf _
      . exact hleaf _

theorem dollar_stops (tok : Token) :
    Ensures env s (dollar inner tok) fun node s' => Stops env [node] s' := by
  unfold dollar
  refine (tokenLeaf_ensures tok).bind ?_
  rintro leaf s₁ ⟨rfl, hpos⟩
  refine upcoming_ensures.bind ?_
  rintro cs _ ⟨rfl, _⟩
  split
  . exact doubleQuoted_stops.bind fun string s₂ hstring => hstring.node_ensures _ _
  . refine simpleParameter_stops.bind ?_
    rintro name s₂ (⟨rfl, rfl⟩ | hname)
    . refine (node_ensures .simpleExpansion _).mono ?_
      rintro node s₃ ⟨rfl, _, _, hnode⟩
      exact .inl ⟨node, rfl, (hnode _ rfl).trans hpos.symm⟩
    . exact Stops.node_ensures (.inl hname) _ _

theorem expansionStep_stops (start : Nat) (parts : List Node) :
    Ensures env s (expansionStep inner start parts) (Finishes (Stops env)) := by
  unfold expansionStep
  refine peek_ensures.bind ?_
  rintro tok s₁ ⟨_, hend⟩
  split
  . refine (tokenLeaf_stops tok).bind fun leaf s₂ hleaf => ensures_pure ?_
    exact hleaf.prepend parts
  . split
    . next heof =>
      refine (reportUnclosed_waits _ start).bind fun _ s₂ hwaits => ensures_pure (.inr ?_)
      exact ⟨hwaits.1.atEnd (hend (by simpa [Token.isEof] using heof)), hwaits.2⟩
    . apply ensures_bind
      intro result s₂
      cases result with
      | some literal => exact ensures_pure trivial
      | none =>
        apply ensures_bind
        intro leaf s₃
        exact ensures_pure trivial

theorem expansionBody_stops (start : Nat) :
    Ensures env s (expansionBody inner start) (Stops env) := by
  unfold expansionBody
  iterate 2
    apply ensures_bind
    intro _ _
  dsimp only
  split
  all_goals
    apply ensures_bind
    intro operator s₁
    exact ensures_repeatStep fun parts s₂ => expansionStep_stops start parts

theorem expansion_stops :
    Ensures env s (expansion inner) fun node s' => Stops env [node] s' := by
  unfold expansion
  apply opened_stops
  intro opener s₁
  exact inMode_stops fun s₂ => withFlags_stops fun s₃ => expansionBody_stops _

/-! ### Arithmetic expansions -/

theorem arithmeticJunkStep_stops (construct : Construct) (start : Nat) (junk : List Node × Bool) :
    Ensures env s (arithmeticJunkStep construct start junk)
      (Finishes fun junk s' => junk.2 = false → GivesUp env s') := by
  unfold arithmeticJunkStep
  apply ensures_bind
  intro closes s₁
  split
  . exact ensures_pure (by simp [Finishes])
  . refine peek_ensures.bind ?_
    rintro tok s₂ ⟨_, hend⟩
    split
    . next heof =>
      refine (reportUnclosed_waits _ start).bind fun _ s₃ hwaits => ensures_pure fun _ => ?_
      exact ⟨hwaits.1.atEnd (hend (by simpa [Token.isEof] using heof)), hwaits.2⟩
    . dsimp only
      split
      all_goals
        apply ensures_bind
        intro _ s₃
        try apply ensures_bind; intro _ s₄
        exact ensures_pure trivial

theorem arithmeticClose_stops (construct : Construct) (start : Nat) :
    Ensures env s (arithmeticClose construct start) (Stops env) := by
  unfold arithmeticClose
  refine (ensures_repeatStep fun junk s₁ =>
    arithmeticJunkStep_stops construct start junk).bind ?_
  rintro ⟨junk, closed⟩ s₁ hend
  have herrors : Ensures env s₁ (errorAround junk) fun _ s' => s' = s₁ := by
    unfold errorAround
    split
    . exact ensures_pure rfl
    . exact (node_ensures .error junk).bind fun node s' h => ensures_pure h.1
  refine herrors.bind ?_
  rintro errors _ rfl
  split
  . apply ensures_bind
    intro tok s₂
    refine (leafAt_stops _ _).bind fun close s₃ hclose => ensures_pure ?_
    exact hclose.prepend errors
  . next hopen => exact ensures_pure (.inr (hend (by simpa using hopen)))

theorem arithmeticExpansion_stops :
    Ensures env s (arithmeticExpansion inner) fun node s' => Stops env [node] s' := by
  unfold arithmeticExpansion
  apply opened_stops
  intro opener s₁
  refine inMode_stops fun s₂ => withFlags_stops fun s₃ => ?_
  unfold arithmeticBody
  apply ensures_bind
  intro closes s₄
  dsimp only
  split
  all_goals
    apply ensures_bind
    intro expression s₅
    refine (arithmeticClose_stops _ _).bind fun close s₆ hclose => ensures_pure ?_
    exact hclose.prepend expression

/-! ### Substitutions -/

/-- The last of the nodes ends where the parse goes on, or none of them closes a substitution. -/
def StopsOpen (nodes : List Node) (s : State) : Prop :=
  (∃ last ∈ nodes.getLast?, last.span.stop = s.pos) ∨ NoCloser nodes

theorem StopsOpen.node_ends (h : StopsOpen nodes s) {kind : NodeKind}
    (hkind : kind = .commandSubstitution ∨ kind = .processSubstitution) (leaf : Node) :
    Ensures env s (node kind (leaf :: nodes)) (Ends env) := by
  refine (node_ensures kind (leaf :: nodes)).mono ?_
  rintro node s' ⟨rfl, rfl, hchildren, hnode⟩
  obtain hlast | hnone := h
  . exact .inl (node_stop_eq hlast hnode)
  . refine .inr (.inl ⟨hkind, fun hclosed => ?_⟩)
    obtain ⟨hparenthesis, hbacktick⟩ := hnone.not_endsWith
    unfold Node.IsClosed at hclosed
    obtain hcommand | hprocess := hkind
    . rw [hcommand, hchildren] at hclosed
      exact hclosed.elim (fun h => hparenthesis h.2) fun h => hbacktick h.2
    . rw [hprocess, hchildren] at hclosed
      exact hparenthesis hclosed

theorem closer_stops (tok : Token) : Ensures env s (do return [← tokenLeaf tok]) StopsOpen := by
  refine (tokenLeaf_ensures tok).bind ?_
  rintro leaf s₁ ⟨rfl, hpos⟩
  exact ensures_pure (.inl ⟨_, rfl, hpos.symm⟩)

theorem stopsOpen_nil : StopsOpen [] s := .inr (by simp [NoCloser])

theorem expectOperator_stops (op : String) (construct : Construct) (start : Nat) :
    Ensures env s (expectOperator op construct start) StopsOpen := by
  unfold expectOperator
  apply ensures_bind
  intro tok s₁
  split
  . exact closer_stops tok
  . apply ensures_bind
    intro _ s₂
    exact ensures_pure stopsOpen_nil

theorem closingBacktick_stops (start : Nat) :
    Ensures env s (closingBacktick start) StopsOpen := by
  unfold closingBacktick
  apply ensures_bind
  intro tok s₁
  split
  . exact closer_stops tok
  . apply ensures_bind
    intro _ s₂
    exact ensures_pure stopsOpen_nil

theorem StopsOpen.prepend {before : List Node} (h : StopsOpen nodes s) (hbefore : NoCloser before) :
    StopsOpen (before ++ nodes) s := by
  obtain hlast | hnone := h
  . exact .inl (exists_last_append before hlast)
  . exact .inr fun node hnode => (List.mem_append.1 hnode).elim (hbefore node) (hnone node)

/-- A list takes no closer, so that one stands at the end if it is there. -/
theorem enclosed_stops {list close : Parse (List Node)} (hlist : Returns list NoCloser)
    (hclose : ∀ s, Ensures env s close StopsOpen) :
    Ensures env s
      (do
        let parts ← list
        let close ← close
        return parts ++ close)
      StopsOpen := by
  refine hlist.ensures.bind fun parts s₁ hparts => ?_
  exact (hclose s₁).bind fun close s₂ hclose => ensures_pure (hclose.prepend hparts)

theorem substitutionBody_returns (hinner : inner.Encloses) (opener : Token) :
    Returns (substitutionBody inner opener) NoCloser := by
  unfold substitutionBody
  apply returns_bind
  intro tok
  split
  . exact hinner.redirect.bind fun result hresult => returns_pure hresult
  . exact hinner.statements {}

theorem parenthesizedSubstitution_ends (hinner : inner.Encloses) {kind : NodeKind}
    (hkind : kind = .commandSubstitution ∨ kind = .processSubstitution) (construct : Construct) :
    Ensures env s (parenthesizedSubstitution inner kind construct) (Ends env) := by
  unfold parenthesizedSubstitution
  iterate 2
    apply ensures_bind
    intro _ _
  refine Ensures.bind (?_ : Ensures _ _ _ StopsOpen) fun parts s₁ hparts =>
    hparts.node_ends hkind _
  refine ensures_inMode fun s₂ => ensures_withFlags fun s₃ => ?_
  exact (enclosed_stops (substitutionBody_returns hinner _) fun s₄ =>
    expectOperator_stops ")" construct _).mono fun _ _ hparts _ _ => hparts

theorem backtickSubstitution_ends (hinner : inner.Encloses) :
    Ensures env s (backtickSubstitution inner) (Ends env) := by
  unfold backtickSubstitution
  iterate 2
    apply ensures_bind
    intro _ _
  refine Ensures.bind (?_ : Ensures _ _ _ StopsOpen) fun parts s₁ hparts =>
    hparts.node_ends (.inl rfl) _
  refine ensures_inMode fun s₂ => ensures_withFlags fun s₃ => ensures_withinBackticks fun s₄ => ?_
  exact (enclosed_stops (hinner.statements {}) fun s₅ => closingBacktick_stops _).mono
    fun _ _ hparts _ _ _ => hparts

/-! ### Fragments -/

theorem node_composite (kind : NodeKind) (leaf : Node) :
    Ensures env s (node kind (leaf :: nodes)) fun node _ => node.children ≠ [] := by
  refine (node_ensures kind (leaf :: nodes)).mono ?_
  rintro node s' ⟨_, _, hchildren, _⟩
  rw [hchildren]
  exact List.cons_ne_nil leaf nodes

theorem opened_composite {kind : NodeKind} {body : Token → Parse (List Node)} :
    Ensures env s
      (do
        let opener ← peek
        let leaf ← tokenLeaf opener
        let parts ← body opener
        node kind (leaf :: parts))
      fun node _ => node.children ≠ [] := by
  iterate 3
    apply ensures_bind
    intro _ _
  exact node_composite kind _

theorem doubleQuoted_composite :
    Ensures env s (doubleQuoted inner) fun node _ => node.children ≠ [] := by
  unfold doubleQuoted
  iterate 4
    apply ensures_bind
    intro _ _
  exact node_composite .string _

theorem dollar_composite (tok : Token) :
    Ensures env s (dollar inner tok) fun node _ => node.children ≠ [] := by
  unfold dollar
  iterate 2
    apply ensures_bind
    intro _ _
  split
  all_goals
    apply ensures_bind
    intro _ _
    exact node_composite _ _

/-- What an operator opens has the operator in it. -/
theorem fragmentOf_composite {tok : Token} {op : String} (htok : tok.kind = .operator op) :
    Ensures env s (fragmentOf inner tok) fun node _ => node.children ≠ [] := by
  unfold fragmentOf
  split
  . next hkind => simp [hkind] at htok
  . next hkind => simp [hkind] at htok
  . next hkind => simp [hkind] at htok
  . exact doubleQuoted_composite
  . exact dollar_composite tok
  . exact opened_composite
  . exact opened_composite
  . exact opened_composite
  . exact opened_composite
  . exact opened_composite

theorem fragmentOf_ends (hinner : inner.Encloses) (tok : Token) :
    Ensures env s (fragmentOf inner tok) (Ends env) := by
  have hstops : ∀ {m : Parse Node}, Ensures env s m (fun node s' => Stops env [node] s') →
      Ensures env s m (Ends env) := fun h => h.mono fun _ _ => Stops.ends
  unfold fragmentOf
  split
  . exact hstops (leafAt_stops _ _)
  . exact hstops (rawString_stops tok)
  . exact hstops (ansiCString_stops tok)
  . exact hstops doubleQuoted_stops
  . exact hstops (dollar_stops tok)
  . exact hstops expansion_stops
  . exact parenthesizedSubstitution_ends hinner (.inl rfl) _
  . exact hstops arithmeticExpansion_stops
  . exact backtickSubstitution_ends hinner
  . exact parenthesizedSubstitution_ends hinner (.inr rfl) _

theorem peek_token : Ensures env s peek fun tok _ => tok = s.token env s.flags := by
  intro tok s' hrun
  unfold peek at hrun
  obtain ⟨_, _, ⟨⟩, hrun⟩ := bind_run.1 hrun
  unfold State.token
  obtain ⟨_, ⟨hhalted, rfl⟩ | ⟨hrunning, comments, hnext⟩⟩ := peekWith_run hrun
  . rw [if_pos hhalted]
  . rw [if_neg (by simp [hrunning]), State.requestFlags, hnext]

theorem fragment_ends (hinner : inner.Encloses) :
    Ensures env s (fragment inner) fun result s' => ∀ node ∈ result, EndsFragment env s node s' := by
  unfold fragment
  refine peek_token.bind fun tok s₁ htok => ?_
  split
  . apply ensures_nest
    . intro s₂ result s₃ hrun depth node hnode
      obtain ⟨made, s₄, hfragment, hmade⟩ := bind_run.1 hrun
      cases hmade
      obtain rfl : made = node := by simpa using hnode
      have hends := fragmentOf_ends hinner tok _ _ hfragment
      refine ⟨hends, fun op hop _ => ?_⟩
      exact fragmentOf_composite (htok ▸ hop : tok.kind = .operator op) _ _ hfragment
    . intro result s₂ hhalted node _
      refine ⟨.inr (.inr ⟨.inl hhalted, .inl hhalted⟩), fun op _ hrunning => ?_⟩
      simp [hhalted] at hrunning
  . exact ensures_pure (by simp)

/-- What is glued to a fragment begins where the fragment ends, unless that lacks its closer. -/
theorem peek_touches (hends : Ends env last s) :
    Ensures env s peek fun tok _ => tok.adjacent → tok.isLiteralStart →
      ∀ node : Node, node.span.start = tok.span.start → last.Touches env.source node := by
  intro tok s' hrun hadjacent hliteral node hstart
  unfold peek at hrun
  obtain ⟨_, _, ⟨⟩, hrun⟩ := bind_run.1 hrun
  obtain ⟨_, ⟨_, rfl⟩ | ⟨hrunning, comments, hnext⟩⟩ := peekWith_run hrun
  . cases hliteral
  . obtain ⟨htok, hrest⟩ := Lexer.next_adjacent hnext hadjacent hliteral
    obtain hstop | hopen | hend := hends
    . exact .inl (by rw [hstop, hstart, htok])
    . exact .inr hopen
    . obtain hhalted | ⟨mode, flags, hsize⟩ := hend.1
      . simp [hrunning] at hhalted
      . exact absurd (hrest mode flags) (Nat.not_lt.2 hsize)

end Grammar

end ShellTree
