import ShellTree.Parse.Token
import ShellTree.Proofs.Parse.Report

/-!
This module contains the correctness of the requests to the lexer and of the leaves and nodes that
are made of tokens. A request changes nothing that is read next, so that the same request again has
the same answer, `State.token`.
-/

namespace ShellTree
namespace Parse

/-- The flags of a request, inside a backtick substitution or not. -/
def State.requestFlags (s : State) (flags : Flags) : Flags :=
  { flags with stopAtBacktick := flags.stopAtBacktick || s.inBacktick }

def State.token (env : Env) (s : State) (flags : Flags) : Token :=
  if s.halted then
    .endAt s.pos false
  else
    match Lexer.next env.source s.pos s.mode (s.requestFlags flags) with
    | .ok (tok, _) => tok
    | .error _ => .endAt s.pos false

/-- The token stands next in the text. Only at the end of the source or after a halt does nothing
stand there. -/
structure Next (env : Env) (s : State) (tok : Token) : Prop
    extends tok.Follows env.source s.comments.spans s.pos where
  ends : tok.kind = .eof → s.halted = true ∨ tok.span.start = env.source.size
  running : tok.kind ≠ .eof → s.halted = false

structure Peeks (env : Env) (s : State) (flags : Flags) (tok : Token) (s' : State) : Prop where
  eq_token : tok = s.token env flags
  stays : Stays env s s'
  next : Next env s' tok

structure Taken (env : Env) (s : State) (span : Span) (node : Node) (s' : State) : Prop
    extends Reads env s [node] s' where
  span_eq : node.span = span
  children_eq : node.children = []
  pos_eq : s'.pos = span.stop
  halted_eq : s'.halted = s.halted

variable {env : Env} {s s₁ s₂ s' : State} {flags : Flags} {tok : Token} {node : Node}
variable {nodes : List Node}

theorem Stays.token_eq (h : Stays env s s₁) (flags : Flags) :
    s₁.token env flags = s.token env flags := by
  rw [h.eq]
  rfl

theorem Stays.next (h : Stays env s s₁) (hnext : Next env s tok) : Next env s₁ tok where
  toFollows := by
    rw [h.pos_eq]
    exact hnext.mono h.comments
  ends := by
    rw [h.halted_eq]
    exact hnext.ends
  running := by
    rw [h.halted_eq]
    exact hnext.running

theorem Next.start_le_size (h : Next env s tok) : tok.span.start ≤ env.source.size :=
  h.spells.left.le_size

theorem Next.pos_lt_stop (h : Next env s tok) (hkind : tok.kind ≠ .eof) : s.pos < tok.span.stop :=
  Nat.lt_of_le_of_lt h.offset_le (h.start_lt_stop hkind)

theorem Next.skips_rest (h : Next env s tok) (hkind : tok.kind = .eof) :
    s.halted = true ∨ Skips env.source s.comments.spans s.pos env.source.size := by
  cases h.ends hkind with
  | inl hhalted => exact .inl hhalted
  | inr hstart => exact .inr (hstart ▸ h.skips)

namespace Peeks

theorem kind_eq (h : Peeks env s flags tok s₁) : (s.token env flags).kind = tok.kind := by
  rw [h.eq_token]

end Peeks

/-! ### Requests -/

theorem next_endAt (h : Sound env s) (hs : s.halted = true) (adjacent : Bool) :
    Next env s (.endAt s.pos adjacent) where
  skips := .done h.boundary
  spells := h.boundary
  ne_nil := by simp [Token.endAt]
  newline_eq := by simp [Token.endAt]
  operator_eq := by simp [Token.endAt]
  backtick_eq := by simp [Token.endAt]
  quote_isPrefix := List.nil_prefix
  admits := fun _ _ => trivial
  ends := fun _ => .inl hs
  running := by simp [Token.endAt]

theorem Sound.with_comments (h : Sound env s) {found : List Span}
    (hfound : ∀ c ∈ found, env.source.IsComment c) :
    Sound env { s with comments := s.comments.insertAll found } :=
  { h with comments := CommentLog.insertAll_sound h.comments hfound }

theorem stays_with_comments (h : Sound env s) {found : List Span}
    (hfound : ∀ c ∈ found, env.source.IsComment c) :
    Stays env s { s with comments := s.comments.insertAll found } :=
  ⟨h.with_comments hfound, rfl, List.prefix_refl _, rfl, rfl, fun c hc =>
    (CommentLog.mem_insertAll h.comments hfound c).2 (.inr hc)⟩

theorem mem_with_comments (h : Sound env s) {found : List Span}
    (hfound : ∀ c ∈ found, env.source.IsComment c) :
    ∀ c ∈ found, c ∈ (s.comments.insertAll found).spans :=
  fun c hc => (CommentLog.mem_insertAll h.comments hfound c).2 (.inl hc)

theorem peekWith_meets (h : Sound env s) (flags : Flags) :
    Meets env s (peekWith flags) (Peeks env s flags) := by
  unfold peekWith
  rw [meets_bind_get]
  split
  . next hs =>
    refine ⟨?_, Stays.refl h, next_endAt h hs false⟩
    unfold State.token
    rw [if_pos hs]
  . next hs =>
    obtain ⟨tok, found, hnext, hanswers⟩ :=
      Lexer.next_answers h.boundary s.mode (s.requestFlags flags)
    unfold State.requestFlags at hnext
    rw [meets_bind_source, meets_bind_liftM hnext]
    have hcomments := hanswers.comments
    refine ⟨?_, stays_with_comments h hcomments, ?_⟩
    . unfold State.token State.requestFlags
      rw [if_neg hs, hnext]
    . refine ⟨hanswers.follows.mono (mem_with_comments h hcomments), ?_, ?_⟩
      . exact fun hkind => .inr (hanswers.eof_iff.1 hkind)
      . simpa using fun _ => hs

theorem peek_meets (h : Sound env s) : Meets env s peek (Peeks env s s.flags) := by
  unfold peek
  rw [meets_bind_get]
  exact peekWith_meets h s.flags

theorem peekPlain_meets (h : Sound env s) : Meets env s peekPlain (Peeks env s {}) :=
  peekWith_meets h {}

def statementFlags : Flags := { assignment := true, statementStart := true }

theorem peekStatement_meets (h : Sound env s) :
    Meets env s peekStatement (Peeks env s statementFlags) := peekWith_meets h statementFlags

def assignmentFlags : Flags := { assignment := true }

theorem peekAssignment_meets (h : Sound env s) :
    Meets env s peekAssignment (Peeks env s assignmentFlags) := peekWith_meets h assignmentFlags

theorem State.ClosesBackticks.mode_ne (h : s.ClosesBackticks) : s.mode ≠ .arithmetic := by
  have hmodes := h.2
  unfold State.mode
  split
  . split <;> simp
  . split <;> simp
  . rintro rfl
    simp_all

theorem State.ClosesBackticks.token_ne (h : s.ClosesBackticks) (env : Env) (flags : Flags) :
    (s.token env flags).kind ≠ .operator "`" := by
  unfold State.token
  split
  . simp [Token.endAt]
  . split
    . next tok found hnext =>
      exact Lexer.next_ne_backtick hnext h.mode_ne (by simp [State.requestFlags, h.1])
    . simp [Token.endAt]

/-- Where no trivia stands the token begins right there. -/
theorem token_of_head (h : Sound env s) (hrunning : s.halted = false) {c : Char} {cs : List Char}
    (hcs : env.source.Spells s.pos env.source.size (c :: cs))
    (htrivia : ∀ ds, Trivia.isTrivia (c :: ds) = false) (hc : c ≠ '#') (flags : Flags) :
    (s.token env flags).span.start = s.pos ∧
      (s.token env flags).kind = (Lexer.tokenOf s.mode (s.requestFlags flags) (c :: cs)).1 := by
  obtain ⟨tok, found, hnext, hanswers⟩ :=
    Lexer.next_answers h.boundary s.mode (s.requestFlags flags)
  have hstart := hanswers.follows.skips.stop_eq_of_head hcs htrivia hc
  have hskip := hanswers.start_eq.symm.trans hstart
  have htail : env.source.tail? s.pos = some (c :: cs) := Source.tail?_eq_some_iff.2 hcs
  have htok : s.token env flags = tok := by
    simp [State.token, hrunning, hnext]
  simp only [Lexer.next, hskip, htail] at hnext
  cases hnext
  rw [htok]
  exact ⟨hstart, rfl⟩

/-- Whether the input or the line ends does not depend on the other flags. -/
theorem token_kind_iff (h : Sound env s) {flags flags' : Flags}
    (hflags : flags.newlineTrivia = flags'.newlineTrivia) :
    ((s.token env flags).kind = .eof ↔ (s.token env flags').kind = .eof) ∧
      ((s.token env flags).kind = .newline ↔ (s.token env flags').kind = .newline) := by
  unfold State.token
  split
  . exact ⟨Iff.rfl, Iff.rfl⟩
  . obtain ⟨tok, found, hnext, hanswers⟩ :=
      Lexer.next_answers h.boundary s.mode (s.requestFlags flags)
    obtain ⟨tok', found', hnext', hanswers'⟩ :=
      Lexer.next_answers h.boundary s.mode (s.requestFlags flags')
    rw [hnext, hnext']
    exact hanswers.kind_iff hanswers' hflags

theorem token_ne_eof (h : Sound env s) (hkind : (s.token env statementFlags).kind ≠ .eof) :
    (s.token env {}).kind ≠ .eof := mt (token_kind_iff h (by rfl)).1.1 hkind

theorem Peeks.kind_iff (h : Peeks env s flags tok s₁) (hs : Sound env s) {flags' : Flags}
    (hflags : flags.newlineTrivia = flags'.newlineTrivia) :
    (tok.kind = .eof ↔ (s₁.token env flags').kind = .eof) ∧
      (tok.kind = .newline ↔ (s₁.token env flags').kind = .newline) := by
  rw [h.eq_token, h.stays.token_eq]
  exact token_kind_iff hs hflags

def Matched (env : Env) (s : State) (result : Option Token) (s' : State) : Prop :=
  Stays env s s' ∧ ∀ tok ∈ result, Next env s' tok ∧ tok.span.start < tok.span.stop ∧
    tok.kind ≠ .newline ∧ tok.IsWhole

theorem matched_of_found (h : Sound env s) (hs : s.halted = false) {found : List Span}
    (hfound : ∀ c ∈ found, env.source.IsComment c) {result : Option Token} {kind : TokenKind}
    (hkind : kind = .regex ∨ kind = .word)
    (htoken : ∀ tok ∈ result, tok.Follows env.source found s.pos ∧ tok.kind = kind ∧
      tok.span.start < tok.span.stop) :
    Matched env s result { s with comments := s.comments.insertAll found } := by
  refine ⟨stays_with_comments h hfound, ?_⟩
  intro tok htok
  obtain ⟨hfollows, htokKind, hlt⟩ := htoken tok htok
  have hnext := hfollows.mono (mem_with_comments h hfound)
  obtain rfl | rfl := hkind
  all_goals exact ⟨⟨hnext, by simp [htokKind], fun _ => hs⟩, hlt, by simp [htokKind],
    by simp [Token.IsWhole, htokKind]⟩

theorem peekRegex_meets (h : Sound env s) {inExpansion : Bool}
    (hoperator : inExpansion = false → ['=', '~'] <:+: env.source.text.toList) :
    Meets env s (peekRegex inExpansion) (Matched env s) := by
  unfold peekRegex
  rw [meets_bind_get]
  split
  . exact ⟨Stays.refl h, by simp⟩
  . next hs =>
    rw [meets_bind_source]
    cases Lexer.nextRegex_answers h.boundary inExpansion with
    | inl hanswer =>
      obtain ⟨result, found, hnext, hfound, htoken⟩ := hanswer
      rw [meets_bind_liftM hnext]
      exact matched_of_found h (by simpa using hs) hfound (.inl rfl) htoken
    | inr hfault =>
      obtain ⟨hnext, hin, hc⟩ := hfault
      rw [hnext]
      exact ⟨rfl, hoperator hin, hc⟩

theorem peekHeredocMarker_meets (h : Sound env s) :
    Meets env s peekHeredocMarker (Matched env s) := by
  unfold peekHeredocMarker
  rw [meets_bind_get]
  split
  . exact ⟨Stays.refl h, by simp⟩
  . next hs =>
    rw [meets_bind_source]
    obtain ⟨hfound, htoken⟩ := Lexer.nextHeredocMarker_answers h.boundary
    exact matched_of_found h (by simpa using hs) hfound (.inr rfl) htoken

theorem meets_bind_upcoming {β : Type} {cs : List Char}
    (h : env.source.tail? s.pos = some cs) {f : List Char → Parse β} {post : β → State → Prop} :
    Meets env s (upcoming >>= f) post ↔ Meets env s (f cs) post := by
  unfold upcoming
  rw [meets_bind_assoc, meets_bind_position, meets_bind_charactersAt h]

/-! ### Leaves -/

theorem Sound.with_pos (h : Sound env s) {offset : Nat} (hoffset : env.source.Boundary offset) :
    Sound env { s with pos := offset } := { h with boundary := hoffset }

theorem meets_bind_leafAt {β : Type} {kind : NodeKind} {span : Span} {f : Node → Parse β}
    {post : β → State → Prop} :
    Meets env s (leafAt kind span >>= f) post ↔
      Meets env { s with pos := span.stop } (f (.leaf kind span)) post := Iff.rfl

theorem taken_leaf {kind : NodeKind} {span : Span} {cs : List Char}
    (hskips : Skips env.source s.comments.spans s.pos span.start)
    (hspells : env.source.Spells span.start span.stop cs)
    (hkind : kind = .error ∨ kind.isPlain)
    (hgenuine : (Node.leaf kind span).IsGenuine env.source)
    (hstays : Stays env { s with pos := span.stop } s')
    (hsettled : s'.halted = false → (Node.leaf kind span).Settled env.source s'.diagnostics) :
    Taken env s span (.leaf kind span) s' := by
  have hledger : Ledger env.source s.pending s.diagnostics [] s'.pending s'.diagnostics := by
    rw [hstays.pending_eq]
    exact .nil hstays.missingEnds_eq hstays.missingBodies_eq
  refine ⟨⟨⟨{ hstays.reached with }, .leaf kind span, .wrap .nil hgenuine,
    fun hrunning => ⟨?_, ?_⟩, fun _ => Node.allFlat_leaf⟩, ?_⟩, rfl, rfl, hstays.pos_eq,
    hstays.halted_eq⟩
  . exact Node.All.nil.wrap (hsettled hrunning)
  . exact hledger.wrap hkind
  . rw [hstays.pos_eq]
    exact (Tiles.leaf hspells).skip_left (hskips.mono hstays.comments)

theorem leafAt_taken (h : Sound env s) {kind : NodeKind} {span : Span} {cs : List Char}
    (hskips : Skips env.source s.comments.spans s.pos span.start)
    (hspells : env.source.Spells span.start span.stop cs) (hplain : kind.isPlain)
    (hgenuine : (Node.leaf kind span).IsGenuine env.source)
    (hclosed : s.diagnostics = [] → (Node.leaf kind span).IsClosed env.source)
    (halone : kind.standsAlone) : Meets env s (leafAt kind span) (Taken env s span) := by
  unfold leafAt
  rw [meets_bind_setPosition]
  apply taken_leaf hskips hspells (.inr hplain) hgenuine (.refl (h.with_pos hspells.right))
  exact fun _ => Node.settled_of_standsAlone halone hclosed

theorem leafAt_meets (h : Sound env s) {kind : NodeKind} (hkind : kind.isBare) {span : Span}
    {cs : List Char} (hskips : Skips env.source s.comments.spans s.pos span.start)
    (hspells : env.source.Spells span.start span.stop cs) (hne : cs ≠ []) :
    Meets env s (leafAt kind span) (Taken env s span) := by
  apply leafAt_taken h hskips hspells
  . cases kind <;> first | rfl | simp [NodeKind.isBare] at hkind
  . apply Node.isGenuine_leaf
    . rintro _ rfl
      simp [NodeKind.isBare] at hkind
    . rintro rfl
      simp [NodeKind.isBare] at hkind
    . exact fun _ => hspells.lt hne
    . refine ⟨?_, ?_⟩
      all_goals
        rintro rfl
        simp [NodeKind.isBare] at hkind
  . intro _
    cases kind <;> trivial
  . cases kind <;> first | rfl | simp [NodeKind.isBare] at hkind

theorem textLeaf_meets (h : Sound env s) {text : String} {span : Span}
    (hskips : Skips env.source s.comments.spans s.pos span.start)
    (hspells : env.source.Spells span.start span.stop text.toList) (hne : text.toList ≠ []) :
    Meets env s (leafAt (.token text) span) (Taken env s span) := by
  refine leafAt_taken h hskips hspells rfl ?_ (fun _ => hspells) rfl
  exact Node.isGenuine_leaf (by simpa using hspells) (by simp) (fun _ => hspells.lt hne) (by simp)

theorem takeText_meets (h : Sound env s) (text : String) {cs : List Char}
    (hcs : env.source.Spells s.pos env.source.size cs) (htext : text.toList <+: cs)
    (hne : text.toList ≠ []) :
    Meets env s (takeText text) (Taken env s (.ofWidth s.pos text.utf8ByteSize)) := by
  unfold takeText
  rw [meets_bind_position]
  apply textLeaf_meets h (.done h.boundary) _ hne
  rw [utf8ByteSize_eq_byteLength]
  exact hcs.trim _ htext

theorem Next.leafAt_meets (h : Next env s tok) (hs : Sound env s) (htok : tok.kind ≠ .eof)
    {kind : NodeKind} (hkind : kind.isBare) :
    Meets env s (leafAt kind tok.span) (Taken env s tok.span) :=
  Parse.leafAt_meets hs hkind h.skips h.spells (h.ne_nil htok)

theorem kindOf_isPlain (kind : TokenKind) : kindOf kind = .error ∨ (kindOf kind).isPlain := by
  cases kind <;> simp [kindOf, NodeKind.isPlain]

theorem kindOf_eq_error {kind : TokenKind} (h : kindOf kind = .error) :
    kind = .eof ∨ kind = .error := by
  cases kind <;> simp_all [kindOf]

theorem Next.isClosed (h : Next env s tok) (hwhole : tok.IsWhole) (hkind : tok.kind ≠ .error) :
    (Node.leaf (kindOf tok.kind) tok.span).IsClosed env.source := by
  have hspells := h.spells
  have hnewline := h.newline_eq
  have hoperator := h.operator_eq
  have hbacktick := h.backtick_eq
  unfold Token.IsWhole at hwhole
  cases hkind' : tok.kind with
  | eof => simp [hkind'] at hwhole
  | error => contradiction
  | rawString =>
    rw [hkind'] at hwhole
    obtain ⟨body, htext⟩ := hwhole
    exact ⟨body, htext ▸ hspells⟩
  | ansiCString =>
    rw [hkind'] at hwhole
    obtain ⟨body, hbody, htext⟩ := hwhole
    exact ⟨body, hbody, htext ▸ hspells⟩
  | operator op =>
    rw [hoperator op hkind'] at hspells
    exact hspells
  | newline =>
    rw [hnewline hkind'] at hspells
    exact hspells
  | backtickClose =>
    rw [hbacktick hkind'] at hspells
    exact hspells
  | _ => trivial

theorem Next.isGenuine (h : Next env s tok) :
    (Node.leaf (kindOf tok.kind) tok.span).IsGenuine env.source := by
  have hspells := h.spells
  apply Node.isGenuine_leaf
  . intro text htext
    suffices tok.text = text by rwa [this] at hspells
    cases hkind : tok.kind with
    | operator op =>
      rw [hkind] at htext
      cases htext
      exact h.operator_eq text hkind
    | newline =>
      rw [hkind] at htext
      cases htext
      exact h.newline_eq hkind
    | backtickClose =>
      rw [hkind] at htext
      cases htext
      exact h.backtick_eq hkind
    | _ => simp [hkind, kindOf] at htext
  . intro hdescriptor
    have hkind : tok.kind = .fileDescriptor := by
      cases hkind : tok.kind <;> simp_all [kindOf]
    obtain ⟨rest, htail, hrest⟩ := hspells.right.exists_tail?
    have hadmits := h.admits rest hrest
    rw [hkind] at hadmits
    refine ⟨_, h.ne_nil (by simp [hkind]), hadmits.1, hspells, ?_⟩
    simpa [Source.char?, htail] using hadmits.2
  . intro hcan
    apply h.start_lt_stop
    intro hkind
    simp [hkind, kindOf, NodeKind.canBeEmpty] at hcan
  . cases tok.kind <;> simp [kindOf]

theorem tokenLeaf_meets (h : Sound env s) (hnext : Next env s tok)
    (hwhole : s.diagnostics = [] → tok.IsWhole) :
    Meets env s (tokenLeaf tok) (Taken env s tok.span) := by
  have hsound := h.with_pos hnext.spells.right
  unfold tokenLeaf
  rw [meets_bind_setPosition]
  dsimp only
  split
  . next hkind =>
    have hrunning := hnext.running (by simp [hkind])
    have hlt := hnext.start_lt_stop (by simp [hkind])
    apply (report_reports hsound hnext.stop_le_size rfl).bind
    intro _ s' hreport
    apply taken_leaf hnext.skips hnext.spells (kindOf_isPlain _) hnext.isGenuine hreport.toStays
    intro _
    exact Node.settled_of_reportedAt (by rw [hkind]; rfl) (hreport.reportedAt rfl hrunning hlt)
  . next hkind =>
    apply taken_leaf hnext.skips hnext.spells (kindOf_isPlain _) hnext.isGenuine (.refl hsound)
    intro hrunning
    refine ⟨fun hclean => hnext.isClosed (hwhole hclean) hkind, ?_, ?_, fun _ => ?_⟩
    -- of the other tokens only the end of the input is an error, and it covers nothing
    . intro herror hspan
      have heof := (kindOf_eq_error herror).resolve_right hkind
      have hstart := (hnext.ends heof).resolve_left (Bool.eq_false_iff.1 hrunning)
      have hstop := hnext.stop_le_size
      simp only [Node.leaf] at hspan
      omega
    . intro hassignment
      cases htok : tok.kind <;> simp [Node.leaf, htok, kindOf] at hassignment
    . cases tok.kind <;> trivial

theorem keyword?_eq_some {text keyword : String} (h : Keyword.keyword? text = some keyword) :
    text = keyword := by
  unfold Keyword.keyword? at h
  split at h
  . simpa using h
  . contradiction

theorem keywordLeaf_meets (h : Sound env s) (hnext : Next env s tok) (hkind : tok.kind ≠ .eof) :
    Meets env s (keywordLeaf tok) (Taken env s tok.span) := by
  unfold keywordLeaf
  cases hkeyword : Keyword.keyword? tok.text with
  | none => exact hnext.leafAt_meets h hkind rfl
  | some keyword =>
    have hspells := hnext.spells
    have hne := hnext.ne_nil hkind
    rw [keyword?_eq_some hkeyword] at hspells hne
    exact textLeaf_meets h hnext.skips hspells hne

theorem Taken.pos_lt (h : Taken env s tok.span node s₁) (hnext : Next env s tok)
    (hkind : tok.kind ≠ .eof) : s.pos < s₁.pos := by
  rw [h.pos_eq]
  exact hnext.pos_lt_stop hkind

theorem Taken.yields_nil {span : Span} (h : Taken env s span node s') (hkind : node.kind.isPlain) :
    Yields env s [] s' := by
  refine h.toReached.yields fun hrunning => ⟨.nil, ?_⟩
  rw [← h.children_eq]
  exact (h.accounts hrunning).2.children (.inr hkind)

/-! ### Nodes -/

/-- A node of the kind can be made of the nodes. Only a command can be made of none, only what a
concatenation or a string is made of has to touch, only a substitution can open with a backtick, and
only an assignment needs an operator. -/
structure Composes (env : Env) (kind : NodeKind) (nodes : List Node) (s : State) : Prop where
  isPlain : kind.isPlain
  binds : kind.Binds nodes
  closed : s.diagnostics = [] → ∀ span, Node.IsClosed env.source ⟨kind, span, nodes⟩
  isText_eq : kind.isText = false := by rfl
  ne_nil : nodes = [] → kind.canBeEmpty = true := by simp
  joins : kind = .concatenation → 2 ≤ nodes.length ∧ Node.Glued env.source nodes := by simp
  opens : kind = .commandSubstitution → StartsWith "`" nodes →
    ¬s.ClosesBackticks ∧ Node.Delimited nodes := by simp
  assigns : kind = .variableAssignment → s.halted = false →
    Node.Assigns s.diagnostics nodes := by simp
  fills : kind = .string → s.diagnostics = [] →
    StartsWith "\"" nodes ∧ ∃ start stop, Node.Fills start nodes stop := by simp

theorem Composes.isGenuine {kind : NodeKind} (h : Composes env kind nodes s) (span : Span) :
    Node.IsGenuine env.source ⟨kind, span, nodes⟩ :=
  Node.isGenuine_of_parts (fun hcomment => by simpa [hcomment, NodeKind.isPlain] using h.isPlain)
    h.isText_eq h.ne_nil h.joins fun hkind hstarts => (h.opens hkind hstarts).2

theorem Composes.not_opensBacktick {kind : NodeKind} (h : Composes env kind nodes s) (span : Span)
    (hcloses : s.ClosesBackticks) : ¬Node.OpensBacktick ⟨kind, span, nodes⟩ :=
  fun hopens => (h.opens hopens.1 hopens.2).1 hcloses

theorem Composes.of_isLoose {kind : NodeKind} (h : kind.isLoose)
    (hne : nodes = [] → kind.canBeEmpty = true) : Composes env kind nodes s := by
  have hjoins : kind = .concatenation → 2 ≤ nodes.length ∧ Node.Glued env.source nodes := by
    rintro rfl
    cases h
  have hopens : kind = .commandSubstitution → StartsWith "`" nodes →
      ¬s.ClosesBackticks ∧ Node.Delimited nodes := by
    rintro rfl
    cases h
  have hassigns : kind = .variableAssignment → s.halted = false →
      Node.Assigns s.diagnostics nodes := by
    rintro rfl
    cases h
  have hfills : kind = .string → s.diagnostics = [] →
      StartsWith "\"" nodes ∧ ∃ start stop, Node.Fills start nodes stop := by
    rintro rfl
    cases h
  cases kind
  all_goals
    first
    | exact ⟨rfl, trivial, fun _ _ => trivial, rfl, hne, hjoins, hopens, hassigns, hfills⟩
    | simp [NodeKind.isLoose] at h

theorem Composes.of_assigns (hne : nodes ≠ [])
    (hassigns : s.halted = false → Node.Assigns s.diagnostics nodes) :
    Composes env .variableAssignment nodes s :=
  ⟨rfl, trivial, fun _ _ => trivial, rfl, fun hempty => absurd hempty hne, by simp, by simp,
    fun _ => hassigns, by simp⟩

theorem Composes.settled {kind : NodeKind} (h : Composes env kind nodes s) (hs : s.halted = false)
    (hgenuine : Node.AllGenuine env.source nodes) (span : Span) :
    Node.Settled env.source s.diagnostics ⟨kind, span, nodes⟩ := by
  have hne : kind ≠ .error := by
    rintro rfl
    exact absurd h.isPlain (by simp [NodeKind.isPlain])
  refine Node.settled_of_ne_error hne (fun hclean => h.closed hclean span) (fun hkind => ?_)
    fun hclean => ?_
  . rw [hgenuine.readChildren_eq]
    exact h.assigns hkind hs
  . unfold Node.IsFilled
    split
    . next hkind => exact h.fills hkind hclean
    . next hkind =>
      obtain rfl : kind = .heredocBody := hkind
      exact absurd h.isPlain (by simp [NodeKind.isPlain])
    . trivial

theorem Reads.wrap (h : Reads env s nodes s') {kind : NodeKind} {span : Span} {first last : Node}
    (hfirst : first ∈ nodes.head?) (hlast : last ∈ nodes.getLast?)
    (hspan : span = ⟨first.span.start, last.span.stop, h.tiles.first_le_last hfirst hlast⟩)
    (hkind : kind = .error ∨ kind.isPlain) (hbinds : kind.Binds nodes)
    (hgenuine : Node.IsGenuine env.source ⟨kind, span, nodes⟩)
    (hopens : s'.ClosesBackticks → ¬Node.OpensBacktick ⟨kind, span, nodes⟩)
    (hsettled : s'.halted = false → Node.Settled env.source s'.diagnostics ⟨kind, span, nodes⟩) :
    Reads env s [⟨kind, span, nodes⟩] s' := by
  subst hspan
  refine ⟨⟨h.toReached, h.bound.wrap hbinds, h.genuine.wrap hgenuine, ?_, ?_⟩,
    h.tiles.wrap kind hfirst hlast⟩
  . intro hrunning
    obtain ⟨hnodes, hledger⟩ := h.accounts hrunning
    exact ⟨hnodes.wrap (hsettled hrunning), hledger.wrap hkind⟩
  . intro hcloses
    have hnode := hopens (h.closesBackticks_iff.2 hcloses)
    exact Node.allFlat_singleton.2 (Node.flat_iff.2 ⟨hnode, .inr (h.flat hcloses)⟩)

structure Made (env : Env) (s : State) (nodes : List Node) (s' : State) (node : Node)
    (final : State) : Prop extends Reads env s [node] final where
  eq : final = s'
  children_eq : node.children = nodes
  start_eq : ∀ first ∈ nodes.head?, node.span.start = first.span.start

theorem node_made (h : Reads env s nodes s') (kind : NodeKind)
    (hkind : Composes env kind nodes s') :
    Meets env s' (Parse.node kind nodes) (Made env s nodes s') := by
  have hsettled : ∀ span, s'.halted = false →
      Node.Settled env.source s'.diagnostics ⟨kind, span, nodes⟩ :=
    fun span hrunning => hkind.settled hrunning h.genuine span
  unfold Parse.node
  cases hfirst : nodes.head? with
  | none =>
    rw [List.head?_eq_none_iff] at hfirst
    subst hfirst
    have hleaf : Taken env s' (.empty s'.pos) (.leaf kind (.empty s'.pos)) s' :=
      taken_leaf (.done h.sound.boundary) h.sound.boundary (.inr hkind.isPlain)
        (hkind.isGenuine _) (.refl h.sound) (hsettled _)
    exact ⟨h.trans hleaf.toReads, rfl, rfl, by simp⟩
  | some first =>
    cases hlast : nodes.getLast? with
    | none =>
      rw [List.getLast?_eq_none_iff] at hlast
      subst hlast
      simp at hfirst
    | some last =>
      dsimp only
      rw [meets_bind_spanBetween (h.tiles.first_le_last hfirst hlast)]
      refine ⟨?_, rfl, rfl, ?_⟩
      . exact h.wrap hfirst hlast rfl (.inr hkind.isPlain) hkind.binds (hkind.isGenuine _)
          (hkind.not_opensBacktick _) (hsettled _)
      . rw [hfirst]
        simp

theorem node_reads (h : Reads env s nodes s') (kind : NodeKind)
    (hkind : Composes env kind nodes s') :
    Meets env s' (Parse.node kind nodes) fun node final => Reads env s [node] final :=
  (node_made h kind hkind).mono fun _ _ hmade => hmade.toReads

theorem errorNode_made (h : Reads env s nodes s') (s₁ : State) (hne : nodes ≠ [])
    (hexplained : s'.halted = false → Explained s'.diagnostics nodes) :
    Meets env s₁ (Parse.node .error nodes) fun node final =>
      Reads env s [node] s' ∧ final = s₁ := by
  obtain ⟨first, hfirst⟩ := Option.ne_none_iff_exists'.1 (mt List.head?_eq_none_iff.1 hne)
  obtain ⟨last, hlast⟩ := Option.ne_none_iff_exists'.1 (mt List.getLast?_eq_none_iff.1 hne)
  unfold Parse.node
  simp only [hfirst, hlast]
  rw [meets_bind_spanBetween (h.tiles.first_le_last hfirst hlast)]
  have hgenuine : ∀ span, Node.IsGenuine env.source ⟨.error, span, nodes⟩ := fun _ =>
    Node.isGenuine_of_parts (by simp) rfl (by simp [hne]) (by simp) (by simp)
  refine ⟨h.wrap hfirst hlast rfl (.inl rfl) trivial (hgenuine _) (by simp [Node.OpensBacktick])
    fun hrunning => ?_, rfl⟩
  exact Node.settled_of_explained (hexplained hrunning) hfirst hlast rfl rfl

theorem errorAround_reads (h : Reads env s nodes s') (s₁ : State)
    (hexplained : nodes ≠ [] → s'.halted = false → Explained s'.diagnostics nodes) :
    Meets env s₁ (errorAround nodes) fun errors final => Reads env s errors s' ∧ final = s₁ := by
  unfold errorAround
  split
  . next hempty =>
    rw [List.isEmpty_iff] at hempty
    exact ⟨hempty ▸ h, rfl⟩
  . next hempty =>
    rw [List.isEmpty_iff] at hempty
    apply (errorNode_made h s₁ hempty (hexplained hempty)).bind
    intro node s₂ hnode
    exact hnode

/-! ### Expected tokens -/

theorem reportMissing_meets (h : Sound env s) (hnext : Next env s tok) (expected : String)
    (construct : Construct) {start : Nat} (hstart : start ≤ env.source.size) :
    Meets env s (reportMissing tok expected construct start) fun _ s' =>
      Stays env s s' ∧ s'.diagnostics ≠ [] := by
  unfold reportMissing
  split
  . apply (reportUnclosed_reports h _ hstart rfl).mono
    intro _ s' hreport
    exact ⟨hreport.toStays, hreport.ne_nil⟩
  . apply (report_reports h hnext.stop_le_size rfl).mono
    intro _ s' hreport
    exact ⟨hreport.toStays, hreport.ne_nil⟩

/-- The nodes are read up to the text as a token, or its absence is reported. -/
structure ReadsUpTo (env : Env) (text : String) (s : State) (nodes : List Node) (s' : State) :
    Prop extends Reads env s nodes s' where
  ends : s'.diagnostics = [] → EndsWith text nodes

theorem Reads.upTo {siblings : List Node} {text : String} (h : Reads env s₁ nodes s₂)
    (h' : ReadsUpTo env text s₂ siblings s') : ReadsUpTo env text s₁ (nodes ++ siblings) s' :=
  ⟨h.trans h'.toReads, fun hclean => (h'.ends hclean).append nodes⟩

theorem Taken.upTo {text : String} (h : Taken env s₁ tok.span node s₂) (hstays : Stays env s s₁)
    (htext : node.kind = .token text) : ReadsUpTo env text s [node] s₂ :=
  hstays.reads.upTo ⟨h.toReads, fun _ => endsWith_singleton htext⟩

theorem Stays.upTo {text : String} (h : Stays env s s') (hreports : s'.diagnostics ≠ []) :
    ReadsUpTo env text s [] s' :=
  ⟨h.reads, fun hclean => absurd hclean hreports⟩

theorem Reports.upTo {cause : Cause} {span : Span} {text : String}
    (h : Reports env s₁ cause span s') (hreads : Reads env s nodes s₁) :
    ReadsUpTo env text s nodes s' :=
  ⟨hreads.stays h.toStays, fun hclean => absurd hclean h.ne_nil⟩

theorem ne_eof_of_isOperator {op : String} (h : tok.isOperator op) : tok.kind ≠ .eof := by
  simp only [Token.isOperator, beq_iff_eq] at h
  simp [h]

theorem ne_eof_of_isOneOf {operators : List String} (h : tok.isOneOf operators) :
    tok.kind ≠ .eof := by
  intro hkind
  simp [Token.isOneOf, hkind] at h

theorem ne_eof_of_isBareWord {src : Source} (h : isBareWord src tok) : tok.kind ≠ .eof := by
  simp only [isBareWord, Bool.and_eq_true, decide_eq_true_eq] at h
  simp [h.1]

theorem ne_eof_of_isKeyword {src : Source} {keyword : String} (h : isKeyword src tok keyword) :
    tok.kind ≠ .eof := by
  simp only [isKeyword, Bool.and_eq_true] at h
  exact ne_eof_of_isBareWord h.1

theorem isEof_iff : tok.isEof ↔ tok.kind = .eof := by simp [Token.isEof]

theorem kindOf_of_isOperator {op : String} (h : tok.isOperator op) :
    kindOf tok.kind = .token op := by
  simp only [Token.isOperator, beq_iff_eq] at h
  rw [h]
  rfl

theorem text_of_isKeyword {src : Source} {keyword : String} (h : isKeyword src tok keyword) :
    tok.text = keyword := by
  simp only [isKeyword, Bool.and_eq_true, beq_iff_eq] at h
  exact h.2

theorem isWhole_of_isOperator {op : String} (h : tok.isOperator op) : tok.IsWhole := by
  simp only [Token.isOperator, beq_iff_eq] at h
  simp [Token.IsWhole, h]

theorem isWhole_of_isOneOf {operators : List String} (h : tok.isOneOf operators) :
    tok.IsWhole := by
  unfold Token.isOneOf at h
  unfold Token.IsWhole
  split at h
  . next hkind => simp [hkind]
  . contradiction

theorem tokenLeaf_returns : Returns (tokenLeaf tok) (·.kind = kindOf tok.kind) := by
  unfold tokenLeaf
  apply returns_bind
  intro
  split
  . apply returns_bind
    intro
    exact returns_pure rfl
  . exact returns_pure rfl

theorem leafAt_returns (kind : NodeKind) (span : Span) :
    Returns (leafAt kind span) (· = .leaf kind span) := by
  unfold leafAt
  apply returns_bind
  intro
  exact returns_pure rfl

theorem takeText_returns (text : String) : Returns (takeText text) (·.kind = .token text) := by
  unfold takeText
  apply returns_bind
  intro start
  exact (leafAt_returns _ _).mono fun node hnode => by rw [hnode]; rfl

theorem kind_returns {kind : NodeKind} {children : List Node} :
    Returns (Parse.node kind children) (·.kind = kind) := by
  unfold Parse.node
  split
  . apply returns_bind
    intro span
    exact returns_pure rfl
  . apply returns_bind
    intro offset
    exact returns_pure rfl

theorem keywordLeaf_returns {keyword : String} (htext : tok.text = keyword)
    (hkeyword : Keyword.keyword? keyword = some keyword) :
    Returns (keywordLeaf tok) (·.kind = .token keyword) := by
  unfold keywordLeaf
  rw [htext, hkeyword]
  exact (leafAt_returns _ _).mono fun node hnode => by rw [hnode]; rfl

theorem expectOperator_meets (h : Sound env s) (op : String) (construct : Construct) {start : Nat}
    (hstart : start ≤ env.source.size) :
    Meets env s (expectOperator op construct start) (ReadsUpTo env op s) := by
  unfold expectOperator
  apply (peek_meets h).bind
  intro tok s₁ hpeek
  split
  . next hop =>
    apply ((tokenLeaf_meets hpeek.stays.sound hpeek.next fun _ =>
      isWhole_of_isOperator hop).and_returns tokenLeaf_returns).bind
    intro leaf s₂ htaken
    exact htaken.1.upTo hpeek.stays (htaken.2.trans (kindOf_of_isOperator hop))
  . apply (reportMissing_meets hpeek.stays.sound hpeek.next op construct hstart).bind
    intro _ s₂ hreport
    exact (hpeek.stays.trans hreport.1).upTo hreport.2

theorem expectKeyword_meets (h : Sound env s) {keyword : String} (construct : Construct)
    {start : Nat} (hstart : start ≤ env.source.size)
    (hkeyword : Keyword.keyword? keyword = some keyword) :
    Meets env s (expectKeyword keyword construct start) (ReadsUpTo env keyword s) := by
  unfold expectKeyword
  apply (peekStatement_meets h).bind
  intro tok s₁ hpeek
  rw [meets_bind_source]
  split
  . next his =>
    apply ((keywordLeaf_meets hpeek.stays.sound hpeek.next (ne_eof_of_isKeyword his)).and_returns
      (keywordLeaf_returns (text_of_isKeyword his) hkeyword)).bind
    intro leaf s₂ htaken
    exact htaken.1.upTo hpeek.stays htaken.2
  . apply (reportMissing_meets hpeek.stays.sound hpeek.next keyword construct hstart).bind
    intro _ s₂ hreport
    exact (hpeek.stays.trans hreport.1).upTo hreport.2

theorem acceptOperator_meets (h : Sound env s) (op : String) :
    Meets env s (acceptOperator op) (Reads env s) := by
  unfold acceptOperator
  apply (peek_meets h).bind
  intro tok s₁ hpeek
  split
  . next hop =>
    apply (tokenLeaf_meets hpeek.stays.sound hpeek.next fun _ =>
      isWhole_of_isOperator hop).bind
    intro leaf s₂ htaken
    exact hpeek.stays.reads.trans htaken.toReads
  . exact hpeek.stays.reads

end Parse

end ShellTree
