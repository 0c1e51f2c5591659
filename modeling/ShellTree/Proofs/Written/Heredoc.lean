import ShellTree.Proofs.Delimiter
import ShellTree.Proofs.Written.Quoted

/-!
This module contains here-documents with quoted delimiters that wait together for the next line
break, and the parse of what they are written as: each body is what is written of it, whatever its
characters mean elsewhere, and the next one begins on the line after its delimiter.
-/

namespace ShellTree

/-- A here-document with a quoted delimiter, which no line of its body ends. -/
structure QuotedHeredoc where
  delimiter : Word
  body : String
  endsLine : body.toList = [] ∨ body.toList.getLast? = some '\n' := by decide
  notMem : ∀ line ∈ Heredoc.lines body.toList,
    line ≠ delimiter.text.toList ∧ line ≠ delimiter.text.toList ++ ['\r'] := by decide

/-! ### Lines -/

namespace Heredoc

/-- Lines that do not end the body are passed over. -/
theorem delimiterLine?_append {request : Request} (hstrip : request.stripTabs = false)
    (start : Nat) {cs : List Char} (hcs : cs = [] ∨ cs.getLast? = some '\n')
    (hnot : ∀ line ∈ lines cs,
      line ≠ request.delimiter.toList ∧ line ≠ request.delimiter.toList ++ ['\r'])
    (after : List Char) :
    delimiterLine? request start (lines (cs ++ after)) =
      delimiterLine? request (start + byteLength cs) (lines after) := by
  obtain ⟨before, hbefore, rfl⟩ := exists_eq_unlines hcs
  have hlines : lines (unlines before) = before := by
    have := lines_unlines_append hbefore []
    rwa [List.append_nil, lines, List.append_nil] at this
  rw [hlines] at hnot
  have hdelimiter : ∀ line ∈ before, ¬ request.IsDelimiterLine line := by
    intro line hline hends
    unfold Request.IsDelimiterLine Request.afterTabs at hends
    rw [hstrip, if_neg Bool.false_ne_true] at hends
    exact hends.elim (hnot line hline).2 fun heq => (hnot line hline).1 heq.1
  rw [lines_unlines_append hbefore, delimiterLine?_append_of_not hdelimiter]

end Heredoc

namespace QuotedHeredoc

def request (doc : QuotedHeredoc) (start : Nat) : Heredoc.Request :=
  ⟨doc.delimiter.text, false, true, start⟩

theorem notMem_delimiter (doc : QuotedHeredoc) {c : Char} (hc : c.isLower = false) :
    c ∉ doc.delimiter.text.toList := by
  intro hmem
  have hlower := doc.delimiter.isLower c hmem
  rw [hc] at hlower
  cases hlower

/-- The body is what is written of it. -/
theorem scanBody_eq {src : Source} {place : Nat} {rest : List Char} (doc : QuotedHeredoc)
    (start : Nat) (h : src.tail? place =
      some (doc.body.toList ++ (doc.delimiter.text.toList ++ '\n' :: rest))) :
    Heredoc.scanBody src place (doc.request start) =
      .ok ⟨.ofWidth place doc.body.utf8ByteSize,
        some (.ofWidth (place + doc.body.utf8ByteSize) doc.delimiter.text.utf8ByteSize)⟩ := by
  have hline : Heredoc.delimiterLine? (doc.request start) place
      (Heredoc.lines (doc.body.toList ++ (doc.delimiter.text.toList ++ '\n' :: rest))) =
      some (place + doc.body.utf8ByteSize,
        .ofWidth (place + doc.body.utf8ByteSize) doc.delimiter.text.utf8ByteSize) := by
    have hnewline : '\n' ∉ doc.delimiter.text.toList := doc.notMem_delimiter (by decide)
    have hreturn : doc.delimiter.text.toList.getLast? ≠ some '\r' := fun hlast =>
      doc.notMem_delimiter (by decide) (List.mem_of_getLast? hlast)
    rw [Heredoc.delimiterLine?_append rfl place doc.endsLine doc.notMem,
      Heredoc.lines_append hnewline, Heredoc.delimiterLine?]
    simp [request, Heredoc.candidate, Heredoc.withoutReturn, hreturn, utf8ByteSize_eq_byteLength]
  unfold Heredoc.scanBody Span.between
  simp only [h, hline, Nat.le_add_right, dite_true]
  rfl

/-! ### Texts -/

def marker (doc : QuotedHeredoc) : String := "'" ++ doc.delimiter.text ++ "'"

theorem toList_marker (doc : QuotedHeredoc) :
    doc.marker.toList = '\'' :: (doc.delimiter.text.toList ++ ['\'']) := by
  simp [marker]

def phrase (doc : QuotedHeredoc) : Phrase :=
  .node .heredocRedirect
    [.leaf (.token "<<") "<<" false, .leaf .heredocStart doc.marker true]

/-- The bodies with the delimiters after them, each on a line of its own. -/
def documents : List QuotedHeredoc → List Char
  | [] => []
  | doc :: docs =>
    doc.body.toList ++ (doc.delimiter.text.toList ++ '\n' :: documents docs)

/-- The next body begins on the line after the delimiter. -/
theorem tail?_documents {src : Source} {place : Nat} {doc : QuotedHeredoc}
    {docs : List QuotedHeredoc} (h : src.tail? place = some (documents (doc :: docs))) :
    src.tail? (place + doc.body.utf8ByteSize + doc.delimiter.text.utf8ByteSize) =
        some ('\n' :: documents docs) ∧
      src.tail? (place + doc.body.utf8ByteSize + doc.delimiter.text.utf8ByteSize + 1) =
        some (documents docs) := by
  rw [utf8ByteSize_eq_byteLength, utf8ByteSize_eq_byteLength]
  have hend := Lexer.tail?_append (Lexer.tail?_append h)
  exact ⟨hend, @Lexer.tail?_append _ _ ['\n'] _ hend⟩

/-- The nodes of the bodies and delimiters from the place on. All of a body is content. -/
def nodesAt (place : Nat) : List QuotedHeredoc → List Node
  | [] => []
  | doc :: docs =>
    let stop := place + doc.body.utf8ByteSize
    let width := doc.delimiter.text.utf8ByteSize
    ⟨.heredocBody, .ofWidth place doc.body.utf8ByteSize,
      if doc.body.isEmpty then [] else [.leaf .content (.ofWidth place doc.body.utf8ByteSize)]⟩ ::
      .leaf .heredocEnd (.ofWidth stop width) :: nodesAt (stop + width + 1) docs

/-- A command with the redirects, and the line break after it. -/
def line (name : CommandName) (docs : List QuotedHeredoc) : List Phrase :=
  [.node .redirectedStatement (.commandOf name false [] :: docs.map phrase),
   .leaf (.token "\n") "\n" true]

/-- What the redirects ask for that are written from the place on. -/
def requests (place : Nat) : List QuotedHeredoc → List Heredoc.Request
  | [] => []
  | doc :: docs =>
    doc.request (place + byteLength (Phrase.gap false place)) ::
      requests (doc.phrase.stop place) docs

end QuotedHeredoc

namespace Lexer

open Phrase (Written tokenAt)

variable {src : Source} {place : Nat} {ps : List Phrase} {rest : List Char} {a s : Bool}

/-- Where line breaks matter, it does not matter whether here-documents wait. -/
theorem next_heredocPending (src : Source) (offset : Nat) {flags : Flags}
    (hflags : flags.newlineTrivia = false) :
    next src offset .heredocPending flags = next src offset .command flags := by
  have hrules : triviaRules .heredocPending flags = triviaRules .command flags := by
    simp only [triviaRules, hflags]
    rfl
  unfold next skipTrivia
  rw [hrules]
  rfl

theorem comes_heredocOperator {doc : QuotedHeredoc}
    (h : Written src place (doc.phrase :: ps) rest) :
    Comes src place .command { assignment := a, statementStart := s }
      (tokenAt place (.operator "<<") "<<" false) := by
  apply comes_of_solid h.parts rfl rfl
  rw [tokenOf_of_isSolid _ _ _ rfl]
  apply command_operator_before (by decide) (by decide)
  intro c hc
  change c ∈ (Phrase.following _ (.leaf .heredocStart doc.marker true :: ps) rest).head? at hc
  rw [Phrase.following_cons, Phrase.spelling, doc.toList_marker] at hc
  obtain rfl : '\'' = c := by simpa [Phrase.gap] using hc
  decide

theorem heredocMarker_cons {q : Lexeme.Quoting} {c : Char} (hc : (q.escapes && c == '\\') = false)
    (cs : List Char) :
    Lexeme.heredocMarker q (c :: cs) =
      if q = .bare && (isSpace c || isMetacharacter c) then []
      else c :: Lexeme.heredocMarker (q.next c) cs := by
  rw [Lexeme.heredocMarker.eq_def]
  simp only [hc, Bool.false_eq_true, if_false]

/-- Single quotes hide all that is between them. -/
theorem heredocMarker_single {cs : List Char} (hcs : '\'' ∉ cs) (after : List Char) :
    Lexeme.heredocMarker .single (cs ++ '\'' :: after) =
      cs ++ '\'' :: Lexeme.heredocMarker .bare after := by
  induction cs with
  | nil => simp [heredocMarker_cons, Lexeme.Quoting.escapes, Lexeme.Quoting.next]
  | cons c cs ih =>
    simp only [List.mem_cons, not_or] at hcs
    have hc : c ≠ '\'' := Ne.symm hcs.1
    simp [heredocMarker_cons, Lexeme.Quoting.escapes, Lexeme.Quoting.next, hc, ih hcs.2]

theorem heredocMarker_endsWord {after : List Char} (hafter : EndsWord after) :
    Lexeme.heredocMarker .bare after = [] := by
  cases after with
  | nil => rw [Lexeme.heredocMarker]
  | cons c after =>
    have hc : Trivia.endsWord c := hafter c rfl
    have hbackslash : c ≠ '\\' := by
      rintro rfl
      cases hc
    have hspace : (isSpace c || isMetacharacter c) = true := hc
    rw [heredocMarker_cons (by simp [hbackslash]), hspace]
    rfl

/-- A marker that is quoted as a whole. -/
theorem heredocMarker_enclosed {c : Char} {body after : List Char} (hc : c = '\'' ∨ c = '"')
    (hafter : EndsWord after)
    (hbody : Lexeme.heredocMarker (Lexeme.Quoting.next .bare c) (body ++ c :: after) =
      body ++ c :: Lexeme.heredocMarker .bare after) :
    Lexeme.heredocMarker .bare (c :: (body ++ [c]) ++ after) = c :: (body ++ [c]) := by
  have hplain : (isSpace c || isMetacharacter c) = false ∧ c ≠ '\\' := by
    obtain rfl | rfl := hc <;> decide
  rw [List.cons_append, List.append_assoc, List.singleton_append,
    heredocMarker_cons (by simp [hplain.2]), hplain.1, Bool.and_false, if_neg Bool.false_ne_true,
    hbody, heredocMarker_endsWord hafter]

theorem heredocMarker_eq (doc : QuotedHeredoc) {after : List Char} (hafter : EndsWord after) :
    Lexeme.heredocMarker .bare (doc.marker.toList ++ after) = doc.marker.toList := by
  have hquote : '\'' ∉ doc.delimiter.text.toList := doc.notMem_delimiter (by decide)
  rw [doc.toList_marker]
  exact heredocMarker_enclosed (.inl rfl) hafter (heredocMarker_single hquote after)

/-- Quotes go on up to the next one of their kind. -/
theorem unquote_quoted {q : Char} {cs : List Char} (hcs : q ∉ cs) (after : List Char) :
    Heredoc.unquote (some q) (cs ++ q :: after) = cs ++ Heredoc.unquote none after := by
  induction cs with
  | nil => simp [Heredoc.unquote]
  | cons c cs ih =>
    simp only [List.mem_cons, not_or] at hcs
    have hc : c ≠ q := Ne.symm hcs.1
    rw [List.cons_append, Heredoc.unquote.eq_def]
    simp [hc, ih hcs.2]

/-- What a marker asks for. -/
theorem ofMarker_eq (doc : QuotedHeredoc) (start : Nat) :
    Heredoc.Request.ofMarker doc.marker false start = doc.request start := by
  have hquote : '\'' ∉ doc.delimiter.text.toList := doc.notMem_delimiter (by decide)
  have hdelimiter : Heredoc.unquote none doc.marker.toList = doc.delimiter.text.toList := by
    rw [doc.toList_marker, Heredoc.unquote.eq_def]
    change Heredoc.unquote (some '\'') (doc.delimiter.text.toList ++ ['\'']) = _
    rw [unquote_quoted hquote, Heredoc.unquote, List.append_nil]
  have hquoted : Heredoc.isQuoted doc.marker.toList = true := by
    rw [doc.toList_marker]
    rfl
  unfold Heredoc.Request.ofMarker QuotedHeredoc.request
  rw [hdelimiter, hquoted, String.ofList_toList]

/-- A marker that the scanner takes as a whole. -/
theorem nextHeredocMarker_of_marker {marker : String} {after : List Char}
    (h : src.tail? place = some (marker.toList ++ after))
    (hsolid : marker.toList.head?.any isSolid)
    (hmarker : Lexeme.heredocMarker .bare (marker.toList ++ after) = marker.toList) :
    nextHeredocMarker src place =
      (some ⟨.word, .ofWidth place marker.utf8ByteSize, marker, true⟩, []) := by
  obtain ⟨c, cs, hcons⟩ : ∃ c cs, marker.toList = c :: cs := by
    cases hchars : marker.toList with
    | nil => simp [hchars] at hsolid
    | cons c cs => exact ⟨c, cs, rfl⟩
  have hskip : skipTrivia src place .heredocPending {} = (place, []) := by
    unfold skipTrivia Trivia.skip
    rw [h, hcons]
    exact skipFrom_solid (by simpa [hcons] using hsolid) _
  have hwidth : byteLength marker.toList ≠ 0 := by
    rw [hcons]
    exact Nat.ne_of_gt (byteLength_pos (List.cons_ne_nil _ _))
  unfold nextHeredocMarker
  rw [hskip]
  dsimp only
  rw [charactersFrom_eq h, hmarker]
  unfold nonempty?
  dsimp only
  rw [nextBoundary_eq (Source.Boundary.of_tail? h), Nat.sub_self, Nat.zero_add, if_neg hwidth,
    String.ofList_toList]
  simp [utf8ByteSize_eq_byteLength]

/-- The marker right behind its operator. -/
theorem nextHeredocMarker_eq {doc : QuotedHeredoc}
    (h : Written src place (.leaf .heredocStart doc.marker true :: ps) rest)
    (hafter : EndsWord (Phrase.following ((Phrase.leaf .heredocStart doc.marker true).stop place)
      ps rest)) :
    nextHeredocMarker src place = (some (tokenAt place .word doc.marker true), []) := by
  unfold Written at h
  rw [Phrase.following_cons, Phrase.spelling, show Phrase.gap true place = [] from rfl,
    List.nil_append] at h
  have hsolid : doc.marker.toList.head?.any isSolid := by
    rw [doc.toList_marker]
    rfl
  rw [nextHeredocMarker_of_marker h hsolid (heredocMarker_eq doc hafter)]
  simp [tokenAt, Phrase.gap, utf8ByteSize_eq_byteLength]

end Lexer

namespace Grammar

open Parse Lexer
open Phrase (Written tokenAt following)

variable {env : Env} {c : Setting} {place : Nat} {inner : Nested} {tok : Token} {p : Phrase}
variable {ps : List Phrase} {rest : List Char} {doc : QuotedHeredoc} {docs : List QuotedHeredoc}
variable {before : List Heredoc.Request}

/-! ### Redirects -/

theorem leads_peekWith {a s : Bool} (hmode : c.mode = .command)
    (h : Comes env.source place .command { assignment := a, statementStart := s } tok) :
    Leads env c place before (peekWith { assignment := a, statementStart := s }) tok place
      before := by
  refine .of_eq fun n => ?_
  have hnext : next env.source place (c.waiting place n before).mode
      { assignment := a, statementStart := s } = .ok (tok, []) := by
    have hwaits : (c.waiting place n before).mode =
        if before.isEmpty then .command else .heredocPending := by
      unfold State.mode
      rw [show (c.waiting place n before).modes = c.mode :: c.outer from rfl, hmode]
      rfl
    rw [hwaits]
    split
    . exact h
    . exact (next_heredocPending _ _ rfl).trans h
  refine bind_run.2 ⟨c.waiting place n before, _, rfl, ?_⟩
  rw [show (c.waiting place n before).halted = false from rfl, if_neg Bool.false_ne_true]
  refine bind_run.2 ⟨env.source, _, rfl, bind_run.2 ⟨(tok, []), c.waiting place n before, ?_, rfl⟩⟩
  change (liftM (next env.source place (c.waiting place n before).mode
    { assignment := a, statementStart := s }) : Parse _) _ _ = _
  rw [hnext]
  rfl

theorem leads_peek (hmode : c.mode = .command) (h : Comes env.source place .command {} tok) :
    Leads env c place before peek tok place before := by
  intro n
  exact leads_peekWith hmode h n

theorem leads_heredocMarker (start : Nat)
    (h : Written env.source place (.leaf .heredocStart doc.marker true :: ps) rest)
    (hafter : EndsWord
      (following ((Phrase.leaf .heredocStart doc.marker true).stop place) ps rest)) :
    Leads env c place before (heredocMarker "<<" start)
      [(Phrase.leaf .heredocStart doc.marker true).nodeAt place]
      ((Phrase.leaf .heredocStart doc.marker true).stop place)
      (before ++ [doc.request start]) := by
  have hmarker : Leads env c place before peekHeredocMarker
      (some (tokenAt place .word doc.marker true)) place before := by
    refine .of_eq fun n => bind_run.2 ⟨_, _, rfl, ?_⟩
    rw [show (c.waiting place n before).halted = false from rfl, if_neg Bool.false_ne_true]
    refine bind_run.2 ⟨env.source, _, rfl, ?_⟩
    rw [show (c.waiting place n before).pos = place from rfl, nextHeredocMarker_eq h hafter]
    rfl
  unfold heredocMarker
  refine hmarker.bind (leads_leafAt.bind ?_)
  refine Leads.map (a := ()) (.of_eq fun n => ?_) _
  rw [← ofMarker_eq]
  rfl

theorem leads_redirect (hmode : c.mode = .command)
    (h : Written env.source place (doc.phrase :: ps) rest)
    (hafter : EndsWord (following (doc.phrase.stop place) ps rest)) :
    Leads env c place before (redirect inner) (some (doc.phrase.nodeAt place))
      (doc.phrase.stop place)
      (before ++ [doc.request (place + byteLength (Phrase.gap false place))]) := by
  have hstop : doc.phrase.stop place = (Phrase.leaf .heredocStart doc.marker true).stop
      ((Phrase.leaf (.token "<<") "<<" false).stop place) := by
    simp [QuotedHeredoc.phrase]
  rw [hstop] at hafter ⊢
  unfold redirect
  refine (leads_peek hmode (comes_heredocOperator h)).bind ?_
  refine Leads.map ?_ some
  unfold redirectFrom
  refine (leads_tokenLeaf (.token "<<") rfl (by simp)).bind ?_
  exact (leads_heredocMarker _ h.parts.tail hafter).bind (leads_node (by simp) (by simp))

theorem endsWord_redirects (hplace : place ≠ 0) :
    EndsWord (following place (docs.map QuotedHeredoc.phrase ++ .leaf (.token "\n") "\n" true :: ps)
      rest) := by
  cases docs with
  | nil => exact endsWord_following_leaf (by decide)
  | cons doc docs => exact (parted_following hplace rfl).endsWord

theorem lt_stop_phrase (doc : QuotedHeredoc) (place : Nat) : place < doc.phrase.stop place :=
  (Phrase.IsSpaced.node (.leaf (by decide)) _).lt_stop place

theorem leads_redirects (hmode : c.mode = .command)
    (h : Written env.source place
      (docs.map QuotedHeredoc.phrase ++ .leaf (.token "\n") "\n" true :: ps) rest)
    {fuel : Nat} (hfuel : env.source.size - place < fuel) (nodes : List Node) :
    Leads env c place before (repeatUpTo (redirects.step inner) (fun _ => remaining) fuel nodes)
      (nodes ++ Phrase.nodesAt place (docs.map QuotedHeredoc.phrase))
      (Phrase.stopAll place (docs.map QuotedHeredoc.phrase))
      (before ++ QuotedHeredoc.requests place docs) := by
  induction docs generalizing place before fuel nodes with
  | nil =>
    obtain ⟨fuel, rfl⟩ : ∃ n, fuel = n + 1 := ⟨fuel - 1, by omega⟩
    simp only [List.map_nil, Phrase.nodesAt_nil, Phrase.stopAll_nil, QuotedHeredoc.requests,
      List.append_nil]
    refine Leads.repeatUpTo_done leads_remaining ?_
    unfold redirects.step redirect
    exact ((leads_peek hmode (comes_newline h)).bind (.pure none)).bind (.pure _)
  | cons doc docs ih =>
    have hlt := lt_stop_phrase doc place
    have hle := h.tail.le_size
    obtain ⟨fuel, rfl⟩ : ∃ n, fuel = n + 1 := ⟨fuel - 1, by omega⟩
    have hstep : Leads env c place before (redirects.step inner nodes)
        (.yield (nodes ++ [doc.phrase.nodeAt place])) (doc.phrase.stop place)
        (before ++ [doc.request (place + byteLength (Phrase.gap false place))]) := by
      unfold redirects.step
      exact (leads_redirect hmode h
        (endsWord_redirects (Nat.ne_of_gt (Nat.zero_lt_of_lt hlt)))).bind (.pure _)
    have htakes : env.source.size - doc.phrase.stop place + 1 < env.source.size - place + 1 := by
      omega
    have hfuel' : env.source.size - doc.phrase.stop place < fuel := by omega
    refine Leads.repeatUpTo_yield leads_remaining hstep leads_remaining htakes ?_
    rw [QuotedHeredoc.requests, List.map_cons, Phrase.nodesAt_cons, Phrase.stopAll_cons,
      List.append_cons nodes _ (Phrase.nodesAt _ _),
      List.append_cons before _ (QuotedHeredoc.requests _ _)]
    exact ih h.tail hfuel' _

/-- The redirects after a statement are joined with it. -/
theorem leads_statement (hmode : c.mode = .command)
    (hprimary : Runs env c place (primaryStatement inner) (some (p.nodeAt place)) (p.stop place))
    (h : Written env.source (p.stop place)
      ((doc :: docs).map QuotedHeredoc.phrase ++ .leaf (.token "\n") "\n" true :: ps) rest) :
    Leads env c place [] (statement inner .list)
      (some ((Phrase.node .redirectedStatement
        (p :: (doc :: docs).map QuotedHeredoc.phrase)).nodeAt place))
      (Phrase.stopAll (p.stop place) ((doc :: docs).map QuotedHeredoc.phrase))
      (QuotedHeredoc.requests (p.stop place) (doc :: docs)) := by
  have hnewline := comes_newline (a := false) (s := false) h.drop
  have hfuel : env.source.size - p.stop place < env.source.size + 3 := by omega
  have hredirects := @leads_redirects _ _ _ inner _ _ _ [] hmode h _ hfuel []
  have hjoined : Leads env c (p.stop place) [] (statementStep inner .list (p.nodeAt place))
      (.yield ((Phrase.node .redirectedStatement
        (p :: (doc :: docs).map QuotedHeredoc.phrase)).nodeAt place))
      (Phrase.stopAll (p.stop place) ((doc :: docs).map QuotedHeredoc.phrase))
      (QuotedHeredoc.requests (p.stop place) (doc :: docs)) := by
    unfold statementStep
    refine (leads_peekWith hmode (comes_heredocOperator h)).bind ?_
    rw [show StatementOperator.ofToken? (tokenAt (p.stop place) (.operator "<<") "<<" false) =
      some .redirect from rfl]
    dsimp only
    rw [show (!Tier.list.admits .redirect) = false from rfl, if_neg Bool.false_ne_true, if_pos rfl]
    unfold redirects repeatStep
    exact (leads_source.bind hredirects).bind ((leads_node (by simp) (by simp)).map _)
  have hdone (left : Node) : Leads env c
      (Phrase.stopAll (p.stop place) ((doc :: docs).map QuotedHeredoc.phrase))
      (QuotedHeredoc.requests (p.stop place) (doc :: docs)) (statementStep inner .list left)
      (.done left) (Phrase.stopAll (p.stop place) ((doc :: docs).map QuotedHeredoc.phrase))
      (QuotedHeredoc.requests (p.stop place) (doc :: docs)) := by
    unfold statementStep
    exact (leads_peekWith hmode hnewline).bind (.pure _)
  have hlt : p.stop place <
      Phrase.stopAll (p.stop place) ((doc :: docs).map QuotedHeredoc.phrase) := by
    rw [List.map_cons, Phrase.stopAll_cons]
    exact Nat.lt_of_lt_of_le (lt_stop_phrase doc _) (Phrase.le_stopAll _ _)
  have hle := h.drop.le_size
  have htakes : env.source.size -
      Phrase.stopAll (p.stop place) ((doc :: docs).map QuotedHeredoc.phrase) + 1 <
        env.source.size - p.stop place + 1 := by
    omega
  unfold statement
  refine hprimary.bind (Leads.map ?_ some)
  unfold repeatStep
  refine leads_source.bind ?_
  exact Leads.repeatUpTo_yield leads_remaining hjoined leads_remaining htakes
    (Leads.repeatUpTo_done leads_remaining (hdone _))

/-! ### Bodies -/

theorem leads_liftM {α : Type} {m : Except Fault α} {a : α} (h : m = .ok a) :
    Leads env c place before (liftM m) a place before := by
  subst h
  exact .of_eq fun _ => rfl

theorem contentBetween_body (doc : QuotedHeredoc) (start : Nat) :
    contentBetween start (start + doc.body.utf8ByteSize) =
      if doc.body.isEmpty then [] else [.leaf .content (.ofWidth start doc.body.utf8ByteSize)] := by
  split
  . next hbody =>
    rw [String.isEmpty_iff.1 hbody]
    exact contentBetween_self start
  . next hbody =>
    apply contentBetween_ofWidth
    rw [utf8ByteSize_eq_byteLength]
    exact byteLength_pos fun hnil => hbody (String.isEmpty_iff.2 (String.toList_eq_nil_iff.1 hnil))

theorem leads_quotedBody (doc : QuotedHeredoc) (start : Nat) :
    Leads env c place before
      (heredocBody inner (.ofWidth start doc.body.utf8ByteSize) true)
      ⟨.heredocBody, .ofWidth start doc.body.utf8ByteSize,
        if doc.body.isEmpty then [] else [.leaf .content (.ofWidth start doc.body.utf8ByteSize)]⟩
      place before := by
  unfold heredocBody
  rw [Bool.true_or, if_pos rfl, ← contentBetween_body]
  exact .pure _

/-- The bodies are read one after the other, each from the line after the delimiter before it. -/
theorem leads_bodies {start first q : Nat}
    (h : env.source.tail? start = some (QuotedHeredoc.documents docs))
    (hplace : docs = [] → q + 1 = start) :
    Leads env c q [] (bodies inner (QuotedHeredoc.requests first docs) start)
      (QuotedHeredoc.nodesAt start docs)
      (start + byteLength (QuotedHeredoc.documents docs) - 1) [] := by
  induction docs generalizing start first q with
  | nil =>
    obtain rfl := hplace rfl
    exact .pure []
  | cons doc docs ih =>
    have hextent := doc.scanBody_eq (first + byteLength (Phrase.gap false first)) h
    obtain ⟨hend, hnext⟩ := QuotedHeredoc.tail?_documents h
    have hleaf : Leads env c q []
        (leafAt .heredocEnd
          (.ofWidth (start + doc.body.utf8ByteSize) doc.delimiter.text.utf8ByteSize))
        (.leaf .heredocEnd
          (.ofWidth (start + doc.body.utf8ByteSize) doc.delimiter.text.utf8ByteSize))
        (start + doc.body.utf8ByteSize + doc.delimiter.text.utf8ByteSize) [] :=
      (leads_setPosition _).bind (.pure _)
    have hafter : afterLineBreak env.source
        (start + doc.body.utf8ByteSize + doc.delimiter.text.utf8ByteSize) =
          start + doc.body.utf8ByteSize + doc.delimiter.text.utf8ByteSize + 1 := by
      unfold afterLineBreak
      rw [hend]
      rfl
    have hstop : start + byteLength (QuotedHeredoc.documents (doc :: docs)) - 1 =
        start + doc.body.utf8ByteSize + doc.delimiter.text.utf8ByteSize + 1 +
          byteLength (QuotedHeredoc.documents docs) - 1 := by
      simp only [QuotedHeredoc.documents, byteLength_append, byteLength_cons,
        utf8ByteSize_eq_byteLength, show '\n'.utf8Size = 1 from rfl]
      omega
    rw [hstop]
    unfold QuotedHeredoc.requests bodies QuotedHeredoc.nodesAt
    refine leads_source.bind ((leads_liftM hextent).bind ((leads_quotedBody doc start).bind ?_))
    refine hleaf.bind (Leads.bind (.pure _) ((leads_setPosition _).bind (leads_source.bind ?_)))
    change Leads _ _ _ _ (bodies inner _ (afterLineBreak env.source
      (start + doc.body.utf8ByteSize + doc.delimiter.text.utf8ByteSize)) >>= fun rest => _) _ _ _
    rw [hafter]
    exact (ih hnext fun _ => rfl).map _

/-! ### Lines -/

theorem leads_lineBreak? {keepLeaf : Bool} (hmode : c.mode = .command)
    (h : Written env.source place (.leaf (.token "\n") "\n" true :: ps) rest) {q : Nat}
    {nodes : List Node}
    (hbodies : Leads env c (place + 1) [] (bodies inner before (place + 1)) nodes q []) :
    Leads env c place before (lineBreak? inner keepLeaf)
      (some
        (if keepLeaf then (Phrase.leaf (.token "\n") "\n" true).nodeAt place :: nodes else nodes))
      q [] := by
  have hstop : (Phrase.leaf (.token "\n") "\n" true).stop place = place + 1 := rfl
  have hpending : Leads env c (place + 1) before (pendingBodies inner) nodes q [] := by
    intro n
    obtain ⟨n', hrun, hn⟩ := hbodies n
    exact ⟨n', bind_run.2 ⟨_, _, rfl, bind_run.2 ⟨(), _, rfl, hrun⟩⟩, hn⟩
  unfold lineBreak?
  refine (leads_peekWith hmode (comes_newline h)).bind ?_
  rw [if_pos (show (tokenAt place .newline "\n" true).kind = .newline from rfl)]
  refine (leads_tokenLeaf (.token "\n") rfl (by simp)).bind ?_
  rw [hstop]
  exact hpending.map _

/-- A command without arguments that a here-document follows. -/
theorem runs_commandBeforeHeredoc {name : CommandName} (hmode : c.mode = .command)
    (hdepth : c.depth + 1 < env.options.maxDepth)
    (h : Written env.source place (.commandOf name false [] :: doc.phrase :: ps) rest) :
    Runs env c place (primaryStatement inner)
      (some ((Phrase.commandOf name false []).nodeAt place))
      ((Phrase.commandOf name false []).stop place) := by
  have hplace : (Phrase.leaf .word name.text false).stop place ≠ 0 := name.stop_ne_zero place
  have hnext : Written env.source ((Phrase.leaf .word name.text false).stop place)
      (doc.phrase :: ps) rest := h.parts.parts.tail
  have hcomes := comes_heredocOperator (a := false) (s := false) hnext
  refine runs_commandStatement hmode hdepth h
    ⟨(parted_following hplace rfl).endsWord, _, hcomes, ?_, rfl⟩ fun parts => ?_
  . rw [tokenAt_adjacent hplace, Bool.false_and]
  . simp only [Phrase.nodesAt_nil, Phrase.stopAll_nil, List.append_nil]
    have hmode' : c.deeper.mode = .command := hmode
    have hinner : Runs env c.deeper ((Phrase.leaf .word name.text false).stop place)
        (isInnerRedirect (tokenAt ((Phrase.leaf .word name.text false).stop place) (.operator "<<")
          "<<" false)) false ((Phrase.leaf .word name.text false).stop place) :=
      .of_eq fun _ => rfl
    apply (Rounds.refl _ _).repeatStep _ hnext.le_size
    unfold argumentStep
    exact (leads_peek hmode' hcomes).bind (hinner.bind (.pure _))

/-- The bodies follow the line break that ends a statement. -/
theorem leads_terminator {ctx : ListContext} (hmode : c.mode = .command) {first : Nat}
    (h : Written env.source place [.leaf (.token "\n") "\n" true]
      (QuotedHeredoc.documents (doc :: docs))) :
    Leads env c place (QuotedHeredoc.requests first (doc :: docs)) (terminator? inner ctx)
      (some ((Phrase.leaf (.token "\n") "\n" true).nodeAt place ::
        QuotedHeredoc.nodesAt (place + 1) (doc :: docs)))
      (place + 1 + byteLength (QuotedHeredoc.documents (doc :: docs)) - 1) [] := by
  have htail : env.source.tail? (place + 1) = some (QuotedHeredoc.documents (doc :: docs)) := by
    have hdocuments := h.after
    rw [Phrase.stopAll_cons, Phrase.stopAll_nil] at hdocuments
    exact hdocuments
  unfold terminator?
  refine (leads_peekWith hmode (comes_newline h)).bind ?_
  rw [if_neg (by simp [tokenAt, Token.isOneOf]), if_pos (by rfl)]
  exact (leads_lineBreak? hmode h (leads_bodies htail (by simp))).map _

/-- A line with a command and here-documents, and the bodies after it. -/
theorem runs_heredocLine {name : CommandName} {ctx : ListContext} (hmode : c.mode = .command)
    (hdepth : c.depth + 1 < env.options.maxDepth)
    (h : Written env.source place (QuotedHeredoc.line name (doc :: docs))
      (QuotedHeredoc.documents (doc :: docs))) (nodes : List Node) :
    Runs env c place (listItemStep inner ctx nodes)
      (.yield (nodes ++ (Phrase.nodesAt place (QuotedHeredoc.line name (doc :: docs)) ++
        QuotedHeredoc.nodesAt (Phrase.stopAll place (QuotedHeredoc.line name (doc :: docs)))
          (doc :: docs))))
      (Phrase.stopAll place (QuotedHeredoc.line name (doc :: docs)) +
        byteLength (QuotedHeredoc.documents (doc :: docs)) - 1) := by
  have hparts : Written env.source place (.commandOf name false [] ::
      ((doc :: docs).map QuotedHeredoc.phrase ++ [.leaf (.token "\n") "\n" true]))
      (QuotedHeredoc.documents (doc :: docs)) := h.parts
  have hstatement := leads_statement hmode
    (@runs_commandBeforeHeredoc _ _ _ inner _ _ _ _ hmode hdepth hparts) hparts.tail
  have hnewline := hparts.tail.drop
  have hstop : Phrase.stopAll place (QuotedHeredoc.line name (doc :: docs)) =
      Phrase.stopAll ((Phrase.commandOf name false []).stop place)
        ((doc :: docs).map QuotedHeredoc.phrase) + 1 := by
    simp only [QuotedHeredoc.line, Phrase.stopAll_cons, Phrase.stopAll_nil, Phrase.stop_node]
    rfl
  have hnodes : Phrase.nodesAt place (QuotedHeredoc.line name (doc :: docs)) =
      [(Phrase.node .redirectedStatement
          (.commandOf name false [] :: (doc :: docs).map QuotedHeredoc.phrase)).nodeAt place,
        (Phrase.leaf (.token "\n") "\n" true).nodeAt (Phrase.stopAll
          ((Phrase.commandOf name false []).stop place)
          ((doc :: docs).map QuotedHeredoc.phrase))] := by
    simp only [QuotedHeredoc.line, Phrase.nodesAt_cons, Phrase.nodesAt_nil, Phrase.stop_node,
      Phrase.stopAll_cons]
  have hle : place ≤ Phrase.stopAll ((Phrase.commandOf name false []).stop place)
      ((doc :: docs).map QuotedHeredoc.phrase) :=
    Nat.le_trans (Phrase.le_stop place _) (Phrase.le_stopAll _ _)
  rw [hstop, hnodes]
  generalize Phrase.stopAll ((Phrase.commandOf name false []).stop place)
    ((doc :: docs).map QuotedHeredoc.phrase) = q at hstatement hnewline hle ⊢
  unfold listItemStep
  refine leads_position.bind (hstatement.bind ((leads_terminator hmode hnewline).bind ?_))
  refine leads_position.bind (leads_isHalted.bind ?_)
  have hpos : 0 < byteLength (QuotedHeredoc.documents (doc :: docs)) :=
    byteLength_pos (by simp [QuotedHeredoc.documents])
  rw [if_neg (by simp; omega)]
  exact .pure _

/-- A step of a list passes over a line break. -/
theorem listStep_newline_run {n n' : Nat} {ctx : ListContext}
    (htick : tick env (c.state place n) = .ok (true, c.state place n')) (hmode : c.mode = .command)
    (h : Written env.source place (.leaf (.token "\n") "\n" true :: ps) rest) (nodes : List Node) :
    ∃ n'', listStep inner ctx nodes env (c.state place n) =
        .ok (.yield nodes, c.state (place + 1) n'') ∧
      (n'' = n' ∨ env.options.maxStatements = none) := by
  have hbodies : Leads env c (place + 1) [] (bodies inner [] (place + 1)) [] (place + 1) [] :=
    .pure []
  have hbreak : Runs env c place (lineBreak? inner false) (some []) (place + 1) :=
    leads_lineBreak? hmode h hbodies
  have hcomes := comes_newline (a := true) (s := true) h
  rw [← hmode] at hcomes
  obtain ⟨n'', hrun, hn⟩ := hbreak n'
  refine ⟨n'', ?_, hn⟩
  unfold listStep
  refine bind_run.2 ⟨true, _, htick, bind_run.2 ⟨_, _, peekWith_state hcomes n', ?_⟩⟩
  rw [if_neg (by simp [tokenAt, Token.isEof]), if_pos (by rfl)]
  refine bind_run.2 ⟨some [], _, hrun, ?_⟩
  rw [Option.getD_some, List.append_nil]
  rfl

theorem documents_eq_concat : ∃ cs, QuotedHeredoc.documents (doc :: docs) = cs ++ ['\n'] := by
  induction docs generalizing doc with
  | nil => exact ⟨doc.body.toList ++ doc.delimiter.text.toList, by simp [QuotedHeredoc.documents]⟩
  | cons next docs ih =>
    obtain ⟨cs, hcs⟩ := @ih next
    refine ⟨doc.body.toList ++ (doc.delimiter.text.toList ++ '\n' :: cs), ?_⟩
    rw [QuotedHeredoc.documents, hcs]
    simp

/-- The last of the delimiters ends its line. -/
theorem written_lastLineBreak {src : Source}
    (h : src.tail? place = some (QuotedHeredoc.documents (doc :: docs))) :
    Written src (place + byteLength (QuotedHeredoc.documents (doc :: docs)) - 1)
      [.leaf (.token "\n") "\n" true] [] := by
  obtain ⟨cs, hcs⟩ := @documents_eq_concat doc docs
  rw [hcs] at h ⊢
  rw [byteLength_append, ← Nat.add_assoc]
  exact tail?_append h

theorem lt_stopAll_line (name : CommandName) (docs : List QuotedHeredoc) :
    0 < Phrase.stopAll 0 (QuotedHeredoc.line name docs) := by
  simp only [QuotedHeredoc.line, Phrase.stopAll_cons, Phrase.stop_node, Phrase.stop_commandOf,
    Phrase.stopAll_nil]
  exact Nat.lt_of_lt_of_le (name.lt_stop 0)
    (Nat.le_trans (Phrase.le_stopAll _ _) (Phrase.le_stop _ _))

/-- A boundary is counted where it is not the last one that is allowed. -/
theorem tick_within {k m n : Nat} (hcancelled : env.cancelled = false)
    (hlimit : ∀ limit ∈ env.options.maxStatements, m ≤ limit) (hlt : k < m)
    (hn : n = k ∨ env.options.maxStatements = none) :
    tick env (c.state place n) = .ok (true, c.state place (n + 1)) := by
  apply tick_run hcancelled
  intro limit hmem
  obtain rfl | hnone := hn
  . exact Nat.lt_of_lt_of_le hlt (hlimit limit hmem)
  . simp [hnone] at hmem

/-- The first step of the list takes the line and the bodies, the second the line break after the
last delimiter. -/
theorem statements_heredocs {name : CommandName} (hcancelled : env.cancelled = false)
    (hstatements : ∀ limit ∈ env.options.maxStatements, 3 ≤ limit)
    (hdepth : 1 < env.options.maxDepth)
    (h : Written env.source 0 (QuotedHeredoc.line name (doc :: docs))
      (QuotedHeredoc.documents (doc :: docs))) :
    ∃ q n, statements inner { topLevel := true } env (({} : Setting).state 0 0) =
      .ok (Phrase.nodesAt 0 (QuotedHeredoc.line name (doc :: docs)) ++
        QuotedHeredoc.nodesAt (Phrase.stopAll 0 (QuotedHeredoc.line name (doc :: docs)))
          (doc :: docs), ({} : Setting).state q n) := by
  have hname : Written env.source 0 (.leaf .word name.text false ::
      ((doc :: docs).map QuotedHeredoc.phrase ++ [.leaf (.token "\n") "\n" true]))
      (QuotedHeredoc.documents (doc :: docs)) := h.parts.parts.parts
  have hword := comes_word (a := true) (s := true) hname name.isPlainWord
    (parted_following (name.stop_ne_zero 0) rfl).endsWord
  have hitem := @runs_heredocLine _ {} _ inner _ _ _ { topLevel := true } rfl hdepth h []
  have hlast := written_lastLineBreak h.after
  have hpos : 0 < Phrase.stopAll 0 (QuotedHeredoc.line name (doc :: docs)) +
      byteLength (QuotedHeredoc.documents (doc :: docs)) - 1 := by
    have hlt := lt_stopAll_line name (doc :: docs)
    have hdocuments : 0 < byteLength (QuotedHeredoc.documents (doc :: docs)) :=
      byteLength_pos (by simp [QuotedHeredoc.documents])
    omega
  generalize Phrase.stopAll 0 (QuotedHeredoc.line name (doc :: docs)) +
    byteLength (QuotedHeredoc.documents (doc :: docs)) - 1 = q at hitem hlast hpos
  have hend : Written env.source (q + 1) [] [] := hlast.tail
  obtain ⟨n₁, hline, hn₁⟩ := listStep_run
    (tick_within (n := 0) hcancelled hstatements (by decide) (.inl rfl)) rfl
    ⟨_, hword, rfl, by simp [tokenAt], endsList_name _ name⟩ hitem
  obtain ⟨n₂, hnewline, hn₂⟩ := @listStep_newline_run _ {} _ inner _ _ _ _ { topLevel := true }
    (tick_within (k := 1) hcancelled hstatements (by decide) hn₁) rfl hlast
    (Phrase.nodesAt 0 (QuotedHeredoc.line name (doc :: docs)) ++ QuotedHeredoc.nodesAt
      (Phrase.stopAll 0 (QuotedHeredoc.line name (doc :: docs))) (doc :: docs))
  have hn₂ : n₂ = 2 ∨ env.options.maxStatements = none :=
    hn₂.elim (fun hn₂ => hn₁.imp_left fun hn₁ => by omega) .inr
  have hdone := @listStep_end_run _ {} _ inner _ { topLevel := true } _ _
    (tick_within hcancelled hstatements (by decide) hn₂) rfl hend (.inl rfl)
    (Phrase.nodesAt 0 (QuotedHeredoc.line name (doc :: docs)) ++ QuotedHeredoc.nodesAt
      (Phrase.stopAll 0 (QuotedHeredoc.line name (doc :: docs))) (doc :: docs))
  refine ⟨q + 1, n₂ + 1, ?_⟩
  unfold statements repeatStep
  refine bind_run.2 ⟨env.source, _, rfl, ?_⟩
  exact repeatUpTo_run_yield hline hpos hlast.le_size (repeatUpTo_run_yield hnewline
    (Nat.lt_succ_self q) hend.le_size (repeatUpTo_run_done hdone))

theorem parse_of_heredocs {text : String} {options : Options} {name : CommandName}
    (hstatements : ∀ limit ∈ options.maxStatements, 3 ≤ limit) (hdepth : 1 < options.maxDepth)
    (h : Written (.ofString text) 0 (QuotedHeredoc.line name (doc :: docs))
      (QuotedHeredoc.documents (doc :: docs))) :
    parse (.ofString text) options = .ok ⟨.ofString text,
      ⟨.program, ⟨0, (Source.ofString text).size, Nat.zero_le _⟩,
        Phrase.nodesAt 0 (QuotedHeredoc.line name (doc :: docs)) ++
          QuotedHeredoc.nodesAt (Phrase.stopAll 0 (QuotedHeredoc.line name (doc :: docs)))
            (doc :: docs)⟩, []⟩ := by
  obtain ⟨_, _, hrun⟩ := @statements_heredocs ⟨.ofString text, options, false⟩ _ _ _ _ rfl
    hstatements hdepth h
  exact parse_of_nodes hrun

end Grammar

def CommandName.cat : CommandName := { text := "cat" }

namespace QuotedHeredoc

def text (docs : List QuotedHeredoc) : String :=
  "cat" ++ String.join (docs.map fun doc => " <<'" ++ doc.delimiter.text ++ "'") ++ "\n" ++
    String.join (docs.map fun doc => doc.body ++ doc.delimiter.text ++ "\n")

theorem toList_join_documents (docs : List QuotedHeredoc) :
    (String.join (docs.map fun doc => doc.body ++ doc.delimiter.text ++ "\n")).toList =
      documents docs := by
  induction docs with
  | nil => rfl
  | cons doc docs ih => simp [documents, String.join_cons, ih]

theorem spellingAll_phrase {place : Nat} (hplace : place ≠ 0) (docs : List QuotedHeredoc) :
    Phrase.spellingAll place (docs.map phrase) =
      (String.join (docs.map fun doc => " <<'" ++ doc.delimiter.text ++ "'")).toList := by
  induction docs generalizing place with
  | nil => simp
  | cons doc docs ih =>
    have hstop : doc.phrase.stop place ≠ 0 :=
      Nat.ne_of_gt (Nat.zero_lt_of_lt (Grammar.lt_stop_phrase doc place))
    have hspelling : doc.phrase.spelling place =
        " <<'".toList ++ doc.delimiter.text.toList ++ ['\''] := by
      rw [phrase, Phrase.spelling_node, Phrase.spellingAll_cons, Phrase.spellingAll_cons]
      simp [Phrase.spelling, Phrase.gap, hplace, toList_marker]
    rw [List.map_cons, Phrase.spellingAll_cons, ih hstop, hspelling, List.map_cons,
      String.join_cons]
    simp

theorem text_eq (docs : List QuotedHeredoc) :
    Phrase.text (line .cat docs) (documents docs) = text docs := by
  have hname : (Phrase.leaf .word CommandName.cat.text false).spelling 0 = "cat".toList := rfl
  have hstop : (Phrase.leaf .word CommandName.cat.text false).stop 0 ≠ 0 :=
    CommandName.cat.stop_ne_zero 0
  rw [String.ext_iff]
  simp only [Phrase.text, Phrase.following, line, Phrase.commandOf, Phrase.spellingAll_cons,
    Phrase.spelling_node, Phrase.stop_node, Phrase.stopAll_cons, Phrase.stopAll_nil, hname,
    Phrase.spellingAll_nil, spellingAll_phrase hstop, ← toList_join_documents]
  simp [text, Phrase.spelling, Phrase.gap]

/-- The bodies and delimiters are those of the script. -/
theorem text?_nodesAt {src : Source} {place : Nat} {docs : List QuotedHeredoc}
    (h : src.tail? place = some (documents docs)) :
    (nodesAt place docs).map (·.text? src) =
      docs.flatMap fun doc => [some doc.body, some doc.delimiter.text] := by
  induction docs generalizing place with
  | nil => rfl
  | cons doc docs ih =>
    obtain ⟨hbody, hrest⟩ := (Source.spells_append _).1 (Source.tail?_eq_some_iff.1 h)
    obtain ⟨hdelimiter, _⟩ := (Source.spells_append _).1 hrest
    rw [← utf8ByteSize_eq_byteLength] at hbody hdelimiter
    rw [← utf8ByteSize_eq_byteLength] at hdelimiter
    have hbody : src.textOf? (.ofWidth place doc.body.utf8ByteSize) = some doc.body :=
      hbody.textOf?_eq
    have hdelimiter : src.textOf? (.ofWidth (place + doc.body.utf8ByteSize)
        doc.delimiter.text.utf8ByteSize) = some doc.delimiter.text := hdelimiter.textOf?_eq
    rw [nodesAt, List.map_cons, List.map_cons, ih (tail?_documents h).2, List.flatMap_cons]
    simp [Node.text?, Node.leaf, hbody, hdelimiter]

end QuotedHeredoc

/-- Each here-document with a quoted delimiter gets its body as it is written, however many of them
a line asks for. -/
theorem parse_quotedHeredocs (docs : List QuotedHeredoc) (hdocs : docs ≠ []) (options : Options)
    (hstatements : ∀ limit ∈ options.maxStatements, 3 ≤ limit) (hdepth : 1 < options.maxDepth) :
    let src := Source.ofString (QuotedHeredoc.text docs)
    let line := QuotedHeredoc.line .cat docs
    let bodies := QuotedHeredoc.nodesAt (Phrase.stopAll 0 line) docs
    parse src options = .ok ⟨src,
        ⟨.program, ⟨0, src.size, Nat.zero_le _⟩, Phrase.nodesAt 0 line ++ bodies⟩, []⟩ ∧
      bodies.map (·.text? src) =
        docs.flatMap fun doc => [some doc.body, some doc.delimiter.text] := by
  obtain ⟨doc, docs, rfl⟩ := List.exists_cons_of_ne_nil hdocs
  have h : Phrase.Written (.ofString (QuotedHeredoc.text (doc :: docs))) 0
      (QuotedHeredoc.line .cat (doc :: docs))
      (QuotedHeredoc.documents (doc :: docs)) := by
    rw [← QuotedHeredoc.text_eq]
    exact Phrase.written_text _ _
  exact ⟨Grammar.parse_of_heredocs hstatements hdepth h, QuotedHeredoc.text?_nodesAt h.after⟩

/-- The first body looks like a substitution, a here-document and a delimiter, and the second is
empty. -/
theorem parse_quotedHeredocs_two :
    let docs : List QuotedHeredoc :=
      [{ delimiter := { text := "a" }, body := "$(cat <<b\n a\n" },
        { delimiter := { text := "b" }, body := "" }]
    let src := Source.ofString (QuotedHeredoc.text docs)
    let line := QuotedHeredoc.line .cat docs
    let bodies := QuotedHeredoc.nodesAt (Phrase.stopAll 0 line) docs
    QuotedHeredoc.text docs = "cat <<'a' <<'b'\n$(cat <<b\n a\na\nb\n" ∧
      parse src {} = .ok ⟨src,
        ⟨.program, ⟨0, src.size, Nat.zero_le _⟩, Phrase.nodesAt 0 line ++ bodies⟩, []⟩ ∧
      bodies.map (·.text? src) = [some "$(cat <<b\n a\n", some "a", some "", some "b"] :=
  ⟨by decide, parse_quotedHeredocs _ (List.cons_ne_nil _ _) {} (by simp) (by decide)⟩

end ShellTree
