import ShellTree.Proofs.Written.ArithmeticLexer
import ShellTree.Proofs.Written.Keyword
import ShellTree.Proofs.Written.Statement

/-!
This module contains subshells that open right inside of another one, with no space between the
parentheses. `parse_nestedSubshells` says when `((` is read as the two parentheses that it is.
-/

namespace ShellTree

/-- What stands between a subshell and the command after it. -/
inductive Joiner where
  | sequence
  | pipe
  | and
  | or
deriving DecidableEq, Repr

def Joiner.text : Joiner → String
  | sequence => ";"
  | pipe => "|"
  | and => "&&"
  | or => "||"

namespace DoubleParen

variable {cs rest : List Char}

theorem isQuiet_of_isLower {c : Char} (hc : c.isLower) : isQuiet c := by
  have hnone : ∀ d ∈ ['(', ')', '\'', '"', '\\'], d.isLower = false := by decide
  simp only [isQuiet, List.contains_eq_mem, Bool.not_eq_true', decide_eq_false_iff_not]
  intro hmem
  rw [hnone c hmem] at hc
  cases hc

/-- A pipe or a list operator right behind the inner parentheses joins commands. -/
theorem closesWithGap_joiner (hcs : ∀ c ∈ cs, isQuiet c) {joiner : Joiner}
    (hjoiner : joiner ≠ .sequence) :
    closesWithGap (cs ++ ')' :: (joiner.text.toList ++ rest)) = true := by
  have hclose : showsSubshell closesWithGap.verdict .bare 2
      (')' :: (joiner.text.toList ++ rest)) =
        showsSubshell closesWithGap.verdict .bare 1 (joiner.text.toList ++ rest) := by
    rw [showsSubshell.eq_def]
    cases joiner <;> rfl
  unfold closesWithGap
  rw [Balanced.of_quiet hcs _ 0, hclose, showsSubshell.eq_def]
  cases joiner with
  | sequence => contradiction
  | _ => rfl

/-- A word by itself in the inner parentheses, with a semicolon behind them, is a command. -/
theorem startsLikeCommand_word (w : Word) :
    startsLikeCommand (w.text.toList ++ ')' :: ';' :: rest) = true := by
  have hname : ∀ c ∈ w.text.toList, isNameStart c ∧ isNameChar c := fun c hc => by
    simp [isNameStart, isNameChar, Char.isAlphanum, w.isAlpha c hc]
  have hword : (w.text.toList ++ ')' :: ';' :: rest).dropWhile
      (fun c => isNameChar c || c == '-' || c == '.') = ')' :: ';' :: rest := by
    rw [List.dropWhile_append_of_pos fun c hc => by simp [(hname c hc).2]]
    rfl
  obtain ⟨c, cs, hchars⟩ := List.exists_cons_of_ne_nil w.ne_nil
  rw [hchars, List.cons_append] at hword ⊢
  have hstart : isNameStart c := (hname c (by simp [hchars])).1
  have hfirst : ∀ d ∈ [' ', '\t', '(', '!', '['], c ≠ d := fun d hd =>
    Lexer.ne_of_class hstart (by revert d; decide)
  simp only [List.mem_cons, List.not_mem_nil, or_false, forall_eq_or_imp, forall_eq] at hfirst
  obtain ⟨hspace, htab, hopen, hnot, hbracket⟩ := hfirst
  have hnone : (c :: (cs ++ ')' :: ';' :: rest)).dropWhile
      (fun c => isInlineBlank c || c == '(') = c :: (cs ++ ')' :: ';' :: rest) := by
    rw [List.dropWhile_cons_of_neg (by simp [isInlineBlank, hspace, htab, hopen])]
  unfold startsLikeCommand
  rw [hnone]
  simp only [hword]
  simp [hnot, hbracket, hstart]
  rfl

end DoubleParen

namespace Grammar

open Parse Lexer
open Phrase (Written tokenAt following nodesAt stopAll)

variable {env : Env} {c : Setting} {place : Nat} {inner : Nested} {p : Phrase} {ps : List Phrase}
variable {rest : List Char} {name : CommandName} {glued : Bool}

/-! ### Commands that are glued -/

/-- The commands of the names, each behind a semicolon. -/
def commandsAfter (names : List CommandName) : List Phrase :=
  names.flatMap fun name => [Terminator.semicolon.phrase true, .commandOf name true []]

theorem commandsAfter_cons (name : CommandName) (names : List CommandName) :
    commandsAfter (name :: names) =
      Terminator.semicolon.phrase true :: .commandOf name true [] :: commandsAfter names := rfl

theorem lt_stop_bareCommand : place < (Phrase.commandOf name glued []).stop place := by
  rw [Phrase.stop_commandOf, Phrase.stopAll_nil]
  exact Phrase.lt_stop_leaf name.ne_nil

theorem following_glued {kind : NodeKind} {text : String} :
    following place (.leaf kind text true :: ps) rest =
      text.toList ++ following ((Phrase.leaf kind text true).stop place) ps rest := by
  rw [Phrase.following_cons, Phrase.spelling]
  rfl

theorem following_bareCommand :
    following place (.commandOf name true [] :: ps) rest =
      name.text.toList ++ following ((Phrase.commandOf name true []).stop place) ps rest := by
  rw [Phrase.commandOf, Phrase.following_node, List.cons_append, Phrase.following_node,
    List.cons_append, following_glued, Phrase.stop_node, Phrase.stopAll_cons, Phrase.stop_node]
  simp

theorem endsOperator_bareCommand (hplace : place ≠ 0) :
    EndsOperator (following place (.commandOf name glued [] :: ps) rest) := by
  cases glued with
  | false => exact (parted_following hplace rfl).endsOperator
  | true =>
    obtain ⟨d, ds, hchars⟩ := List.exists_cons_of_ne_nil name.ne_nil
    have hlower := name.isLower d (by simp [hchars])
    rw [following_bareCommand, hchars]
    rintro e ⟨⟩
    exact .inr (.inr hlower)

theorem endsName_bareCommand
    (hends : EndsCommand env.source ((Phrase.commandOf name glued []).stop place) ps rest) :
    EndsName env.source ((Phrase.leaf .word name.text glued).stop place) ([] ++ ps) rest := by
  rw [Phrase.stop_commandOf, Phrase.stopAll_nil] at hends
  exact hends.endsName

theorem runs_bareCommand (hmode : c.mode = .command) (hdepth : c.depth + 1 < env.options.maxDepth)
    (h : Written env.source place (.commandOf name glued [] :: ps) rest)
    (hends : EndsCommand env.source ((Phrase.commandOf name glued []).stop place) ps rest) :
    Runs env c place (primaryStatement inner)
      (some ((Phrase.commandOf name glued []).nodeAt place))
      ((Phrase.commandOf name glued []).stop place) := by
  refine runs_commandStatement hmode hdepth h (endsName_bareCommand hends) fun parts => ?_
  rw [Phrase.stop_commandOf] at hends
  have hmode' : c.deeper.mode = .command := hmode
  have hnone : Written env.source _ (([] : List Word).map Word.phrase ++ ps) rest :=
    h.parts.parts.tail
  exact runs_arguments hmode' hdepth hnone hends parts

/-! ### Lists -/

/-- The phrase is read as a statement of a list where it stands, if what follows ends it. -/
structure IsItem (env : Env) (c : Setting) (inner : Nested) (place : Nat) (p : Phrase) : Prop where
  lt_stop : place < p.stop place
  starts : ∀ {ps rest}, Written env.source place (p :: ps) rest →
    EndsStatement .list env.source (p.stop place) ps rest → StartsStatement env.source place {}
  runs : ∀ {ps rest}, Written env.source place (p :: ps) rest →
    EndsStatement .list env.source (p.stop place) ps rest →
      Runs env c place (statement inner .list) (some (p.nodeAt place)) (p.stop place)

theorem IsItem.bareCommand (name : CommandName) (glued : Bool) (hmode : c.mode = .command)
    (hdepth : c.depth + 1 < env.options.maxDepth) :
    IsItem env c inner place (.commandOf name glued []) where
  lt_stop := lt_stop_bareCommand
  starts h hends :=
    ⟨_, comes_word h.parts.parts name.isPlainWord
        (endsName_bareCommand hends.toEndsCommand).endsWord,
      rfl, nofun, endsList_name _ name⟩
  runs h hends :=
    runs_statement hmode (runs_bareCommand hmode hdepth h hends.toEndsCommand) hends h.tail.le_size

/-- The closing parenthesis of a subshell, right behind its last command. -/
def closeParen : Phrase := .leaf (.token ")") ")" true

section

variable (h : Written env.source place (closeParen :: ps) rest)

include h

theorem comes_closeParen {a s : Bool} :
    Comes env.source place .command { assignment := a, statementStart := s }
      (tokenAt place (.operator ")") ")" true) :=
  comes_parenthesis h (by decide) nofun

theorem closesList_closeParen : ClosesList env.source {} place :=
  ⟨_, comes_closeParen h, rfl, nofun, rfl⟩

theorem endsStatement_closeParen {tier : Tier} :
    EndsStatement tier env.source place (closeParen :: ps) rest :=
  endsStatement_of_comes (by decide) (comes_closeParen h) nofun

theorem runs_terminator?_closeParen (hmode : c.mode = .command) :
    Runs env c place (terminator? inner {}) (some []) place := by
  have hcomes := comes_closeParen (a := false) (s := false) h
  rw [← hmode] at hcomes
  unfold terminator?
  refine (runs_peekPlain hcomes).bind ?_
  exact leads_source.bind (Leads.pure _)

end

/-- The last statement of a list needs no terminator before the closing parenthesis. -/
theorem runs_closedItem (henv : env.Unlimited) (hmode : c.mode = .command)
    (hp : IsItem env c inner place p)
    (h : Written env.source place (p :: closeParen :: ps) rest) (nodes : List Node) :
    Runs env c place (listStep inner {} nodes) (.yield (nodes ++ [p.nodeAt place]))
      (p.stop place) := by
  have hends : EndsStatement .list env.source _ _ rest := endsStatement_closeParen h.tail
  have hlt := hp.lt_stop
  refine runs_listStep_item henv hmode (hp.starts h hends) ?_
  unfold listItemStep
  refine leads_position.bind ((hp.runs h hends).bind ?_)
  refine (runs_terminator?_closeParen h.tail hmode).bind ?_
  refine leads_position.bind (leads_isHalted.bind ?_)
  rw [if_neg (by simp; omega)]
  exact Leads.pure _

theorem sequence_rounds {names : List CommandName} (henv : env.Unlimited)
    (hmode : c.mode = .command)
    (hp : IsItem env c inner place p)
    (h : Written env.source place (p :: Terminator.semicolon.phrase true ::
      .commandOf name glued [] :: (commandsAfter names ++ closeParen :: ps)) rest)
    (hrounds : ∀ nodes, Rounds env c (listStep inner {})
      ((Terminator.semicolon.phrase true).stop (p.stop place)) nodes
      (stopAll ((Terminator.semicolon.phrase true).stop (p.stop place))
        (.commandOf name glued [] :: commandsAfter names))
      (nodes ++ nodesAt ((Terminator.semicolon.phrase true).stop (p.stop place))
        (.commandOf name glued [] :: commandsAfter names)))
    (nodes : List Node) :
    Rounds env c (listStep inner {}) place nodes
      (stopAll place (p :: Terminator.semicolon.phrase true :: .commandOf name glued [] ::
        commandsAfter names))
      (nodes ++ nodesAt place (p :: Terminator.semicolon.phrase true ::
        .commandOf name glued [] :: commandsAfter names)) := by
  have hlt := Terminator.semicolon.lt_stop true (p.stop place)
  have hlt' := hp.lt_stop
  have hafter : EndsOperator (following ((Terminator.semicolon.phrase true).stop (p.stop place))
      (.commandOf name glued [] :: (commandsAfter names ++ closeParen :: ps)) rest) :=
    endsOperator_bareCommand (by omega)
  have hends : EndsStatement .list env.source _ _ rest :=
    endsStatement_terminator .semicolon h.tail hafter
  have hitem := runs_listItem henv hmode (hp.starts h hends) (hp.runs h hends) h hafter nodes
  have hmore := hrounds (nodes ++ nodesAt place [p, Terminator.semicolon.phrase true])
  simp only [Phrase.stopAll_cons, Phrase.stopAll_nil, Phrase.nodesAt_cons, Phrase.nodesAt_nil,
    List.append_assoc, List.cons_append, List.nil_append] at hitem hmore ⊢
  exact .head hitem (by omega) hmore

theorem commandsAfter_rounds {names : List CommandName} (henv : env.Unlimited)
    (hmode : c.mode = .command) (hdepth : c.depth + 1 < env.options.maxDepth)
    (hp : IsItem env c inner place p)
    (h : Written env.source place (p :: (commandsAfter names ++ closeParen :: ps)) rest)
    (nodes : List Node) :
    Rounds env c (listStep inner {}) place nodes (stopAll place (p :: commandsAfter names))
      (nodes ++ nodesAt place (p :: commandsAfter names)) := by
  induction names generalizing place p nodes with
  | nil =>
    simpa [commandsAfter] using
      Rounds.single (runs_closedItem henv hmode hp h nodes) hp.lt_stop
  | cons name names ih =>
    exact sequence_rounds henv hmode hp h (ih (.bareCommand name true hmode hdepth) h.tail.tail)
      nodes

/-! ### Subshells -/

/-- A subshell with no space before its closing parenthesis. -/
def closedSubshell (glued : Bool) (body : List Phrase) : Phrase :=
  .node .subshell (.leaf (.token "(") "(" glued :: (body ++ [closeParen]))

section

variable {level : Nat} {body : List Phrase}

theorem written_closedSubshell
    (h : Written env.source place (closedSubshell glued body :: ps) rest) :
    Written env.source ((Phrase.leaf (.token "(") "(" glued).stop place)
      (body ++ closeParen :: ps) rest := by
  simpa using h.parts.tail

theorem startsStatement_parenthesis (ctx : ListContext) (hcomes : Comes env.source place .command
      { assignment := true, statementStart := true } (tokenAt place (.operator "(") "(" glued)) :
    StartsStatement env.source place ctx := by
  refine ⟨_, hcomes, rfl, nofun, ?_⟩
  simp [endsList, tokenAt, Operator.caseTerminators]

theorem runs_closedSubshell (henv : env.Unlimited) (hmode : c.mode = .command)
    (hdepth : c.depth < env.options.maxDepth)
    (hcomes : Comes env.source place .command { assignment := true, statementStart := true }
      (tokenAt place (.operator "(") "(" glued))
    (hbody : Rounds env c.deeper (listStep (nested level) {})
      ((Phrase.leaf (.token "(") "(" glued).stop place) []
      (stopAll ((Phrase.leaf (.token "(") "(" glued).stop place) body)
      (nodesAt ((Phrase.leaf (.token "(") "(" glued).stop place) body))
    (h : Written env.source place (closedSubshell glued body :: ps) rest) :
    Runs env c place (primaryStatement (nested (level + 1)))
      (some ((closedSubshell glued body).nodeAt place))
      ((closedSubshell glued body).stop place) := by
  have hlist := written_closedSubshell h
  have hclose := comes_closeParen (a := false) (s := false) hlist.drop
  have hmode' : c.deeper.mode = .command := hmode
  rw [← hmode'] at hcomes hclose
  simp only [closedSubshell, Phrase.stop_node, Phrase.stopAll_cons, Phrase.stopAll_append,
    Phrase.stopAll_nil]
  apply runs_nest hdepth
  unfold primaryBody
  refine (runs_peekStatement hcomes).bind ?_
  change Runs _ _ _ (Grammar.subshell (nested (level + 1)) >>= fun node => pure (some node)) _ _
  refine Leads.map ?_ some
  unfold Grammar.subshell
  refine (runs_peekStatement hcomes).bind ((leads_tokenLeaf _ rfl (by simp)).bind ?_)
  have hinside : Runs env c.deeper _ ((nested (level + 1)).statements {}) _ _ :=
    hbody.repeatStep (runs_listStep_closed henv hmode' rfl (closesList_closeParen hlist.drop) _)
      hlist.drop.le_size
  refine hinside.bind ((runs_expectOperator hclose).bind ?_)
  exact leads_node (by simp) (by simp [kindOf, closeParen])

/-- The phrase is read as a statement without operators where it stands. -/
structure IsPrimary (env : Env) (c : Setting) (inner : Nested) (place : Nat) (p : Phrase) :
    Prop where
  lt_stop : place < p.stop place
  starts : ∀ {ps rest}, Written env.source place (p :: ps) rest →
    StartsStatement env.source place {}
  runs : ∀ {ps rest}, Written env.source place (p :: ps) rest →
    Runs env c place (primaryStatement inner) (some (p.nodeAt place)) (p.stop place)

theorem IsPrimary.item (hp : IsPrimary env c inner place p) (hmode : c.mode = .command) :
    IsItem env c inner place p where
  lt_stop := hp.lt_stop
  starts h _ := hp.starts h
  runs h hends := runs_statement hmode (hp.runs h) hends h.tail.le_size

/-- A subshell of commands that stand right behind its opening parenthesis. -/
theorem IsPrimary.subshell (level : Nat) (name : CommandName) (names : List CommandName)
    (henv : env.Unlimited) (hmode : c.mode = .command)
    (hdepth : c.depth + 2 < env.options.maxDepth) :
    IsPrimary env c (nested (level + 1)) place
      (closedSubshell true (.commandOf name true [] :: commandsAfter names)) := by
  have hlt : place < (Phrase.leaf (.token "(") "(" true).stop place :=
    Phrase.lt_stop_leaf (by decide)
  have hcomes {ps rest} (h : Written env.source place
      (closedSubshell true (.commandOf name true [] :: commandsAfter names) :: ps) rest) :
      Comes env.source place .command { assignment := true, statementStart := true }
        (tokenAt place (.operator "(") "(" true) :=
    comes_operator h.parts (by decide) (by decide) (endsOperator_bareCommand (by omega))
  refine ⟨?_, fun h => startsStatement_parenthesis {} (hcomes h), fun {ps rest} h => ?_⟩
  . rw [closedSubshell, Phrase.stop_node, Phrase.stopAll_cons]
    exact Nat.lt_of_lt_of_le hlt (Phrase.le_stopAll _ _)
  . have hlist := written_closedSubshell h
    have hmode' : c.deeper.mode = .command := hmode
    have hfirst : IsItem env c.deeper (nested level)
        ((Phrase.leaf (.token "(") "(" true).stop place)
        (.commandOf name true []) := .bareCommand name true hmode' hdepth
    have hrounds := commandsAfter_rounds henv hmode' hdepth hfirst hlist []
    exact runs_closedSubshell henv hmode (by omega) (hcomes h) hrounds h

/-- A command that ends a list ends also what an operator takes on its right. -/
theorem runs_rightCommand (op : StatementOperator) (hmode : c.mode = .command)
    (hdepth : c.depth + 1 < env.options.maxDepth)
    (h : Written env.source place (.commandOf name glued [] :: ps) rest)
    (hends : EndsStatement .list env.source ((Phrase.commandOf name glued []).stop place) ps rest) :
    Runs env c place (statement inner (if op = .pipe then .command else .pipeline))
      (some ((Phrase.commandOf name glued []).nodeAt place))
      ((Phrase.commandOf name glued []).stop place) := by
  have hprimary : Runs env c place (primaryStatement inner) _ _ :=
    runs_bareCommand hmode hdepth h hends.toEndsCommand
  split
  . exact runs_statement hmode hprimary hends.toEndsCommand.statement h.tail.le_size
  . exact runs_statement hmode hprimary hends.pipeline h.tail.le_size

/-- An operator joins a statement with the command behind it. -/
theorem IsItem.joined (op : StatementOperator) (text : String) (hmode : c.mode = .command)
    (hdepth : c.depth + 1 < env.options.maxDepth)
    (hp : IsPrimary env c (nested (level + 1)) place p)
    (hsubshell : (p.nodeAt place).kind = .subshell)
    (htext : text ∈ separators) (hredirect : op ≠ .redirect)
    (hop : ∀ place,
      StatementOperator.ofToken? (tokenAt place (.operator text) text true) = some op)
    (name : CommandName) :
    IsItem env c (nested (level + 1)) place (.node (if op = .pipe then .pipeline else .list)
      [p, .leaf (.token text) text true, .commandOf name false []]) := by
  have hstop : (Phrase.node (if op = .pipe then .pipeline else .list)
      [p, .leaf (.token text) text true, .commandOf name false []]).stop place =
        (Phrase.commandOf name false []).stop
          ((Phrase.leaf (.token text) text true).stop (p.stop place)) := by simp
  have hlt : p.stop place < (Phrase.commandOf name false []).stop
      ((Phrase.leaf (.token text) text true).stop (p.stop place)) :=
    Nat.lt_trans (lt_stop_separator htext) lt_stop_bareCommand
  refine ⟨?_, fun h _ => hp.starts h.parts, fun {ps rest} h hends => ?_⟩
  . rw [hstop]
    exact Nat.lt_trans hp.lt_stop hlt
  . have hparts : Written env.source place
      (p :: .leaf (.token text) text true :: .commandOf name false [] :: ps) rest := h.parts
    rw [hstop] at hends ⊢
    have hname := hparts.tail.tail
    have hleft : leftOperands op (p.nodeAt place) = nodesAt place [p] := by
      simp [leftOperands, hsubshell]
    have hstep : Runs env c _ (statementStep (nested (level + 1)) .list _) _ _ :=
      runs_gluedJoinStep _ [p] hmode hparts.tail htext rfl (hop _) rfl hredirect hleft (by simp)
        (comes_word hname.parts.parts name.isPlainWord
          (endsName_bareCommand hends.toEndsCommand).endsWord) (by simp [tokenAt])
        (runs_rightCommand op hmode hdepth hname hends)
    unfold statement
    refine (hp.runs hparts).bind (Leads.map ?_ some)
    exact (Rounds.single hstep hlt).repeatStep (runs_statementStep_done hmode hends _)
      hname.tail.le_size

end

end Grammar

/-- Commands in an inner subshell, and behind a joiner those of the outer one. -/
structure NestedSubshells where
  first : CommandName
  more : List CommandName
  joiner : Joiner
  second : CommandName
  others : List CommandName

namespace NestedSubshells

open Grammar

def innerSubshell (n : NestedSubshells) : Phrase :=
  closedSubshell true (.commandOf n.first true [] :: commandsAfter n.more)

/-- The inner subshell is a statement by itself before a semicolon, and otherwise an operand. -/
def statements (n : NestedSubshells) : List Phrase :=
  let parts := [n.innerSubshell, .leaf (.token n.joiner.text) n.joiner.text true,
    .commandOf n.second false []]
  match n.joiner with
  | .sequence => parts
  | .pipe => [.node .pipeline parts]
  | .and | .or => [.node .list parts]

def phrase (n : NestedSubshells) : Phrase :=
  closedSubshell false (n.statements ++ commandsAfter n.others)

def text (n : NestedSubshells) : String := Phrase.text [n.phrase] []

variable {n : NestedSubshells} {place : Nat} {qs : List Phrase} {rest : List Char}

theorem following_statements :
    Phrase.following place (n.statements ++ qs) rest =
      Phrase.following place (n.innerSubshell :: .leaf (.token n.joiner.text) n.joiner.text true ::
        .commandOf n.second false [] :: qs) rest := by
  unfold statements
  cases n.joiner with
  | sequence => rfl
  | _ => exact Phrase.following_node _ _

theorem isQuiet_name (name : CommandName) : ∀ c ∈ name.text.toList, DoubleParen.isQuiet c :=
  fun c hc => DoubleParen.isQuiet_of_isLower (name.isLower c hc)

theorem isQuiet_commandsAfter (place : Nat) (names : List CommandName) :
    ∀ c ∈ Phrase.spellingAll place (commandsAfter names), DoubleParen.isQuiet c := by
  induction names generalizing place with
  | nil => simp [commandsAfter]
  | cons name names ih =>
    have hspelling {place} : (Phrase.commandOf name true []).spelling place = name.text.toList := by
      have h : Phrase.following place [.commandOf name true []] [] = _ := following_bareCommand
      simpa [Phrase.following, Phrase.spellingAll_cons] using h
    rw [commandsAfter_cons, Phrase.spellingAll_cons, Phrase.spellingAll_cons, hspelling]
    simp only [Terminator.phrase, Phrase.spelling, Phrase.gap, Bool.true_or, if_true,
      List.nil_append, List.forall_mem_append]
    exact ⟨by decide, isQuiet_name name, ih _⟩

/-- What stands between the second parenthesis and the one that closes it. -/
theorem exists_following_innerSubshell (n : NestedSubshells) (place : Nat) (qs : List Phrase)
    (rest : List Char) : ∃ cs place', (∀ c ∈ cs, DoubleParen.isQuiet c) ∧
      (n.more = [] → cs = n.first.text.toList) ∧
      Phrase.following place (n.innerSubshell :: qs) rest =
        '(' :: (cs ++ ')' :: Phrase.following place' qs rest) := by
  rw [innerSubshell, closedSubshell, Phrase.following_node, List.cons_append, following_glued,
    List.cons_append, List.cons_append, following_bareCommand, List.append_assoc,
    Phrase.following_append, List.singleton_append, closeParen, following_glued]
  refine ⟨n.first.text.toList ++ Phrase.spellingAll ?inside (commandsAfter n.more), ?after, ?_, ?_,
    ?eq⟩
  case eq =>
    rw [List.append_assoc]
    rfl
  . simp only [List.forall_mem_append]
    exact ⟨isQuiet_name n.first, isQuiet_commandsAfter _ n.more⟩
  . intro hmore
    simp [hmore, commandsAfter]

/-- The lookahead takes the two opening parentheses for what they are. -/
theorem opensArithmetic_eq_false (hjoiner : n.joiner = .sequence → n.more = []) :
    DoubleParen.opensArithmetic ((Phrase.following place (n.statements ++ qs) rest).drop 1) =
      false := by
  rw [following_statements]
  obtain ⟨cs, place', hquiet, hword, hfollowing⟩ := n.exists_following_innerSubshell place
    (.leaf (.token n.joiner.text) n.joiner.text true :: .commandOf n.second false [] :: qs) rest
  rw [hfollowing, following_glued, List.drop_one, List.tail_cons]
  unfold DoubleParen.opensArithmetic
  by_cases hsequence : n.joiner = .sequence
  . rw [hsequence, hword (hjoiner hsequence), show Joiner.sequence.text.toList = [';'] from rfl,
      List.singleton_append, DoubleParen.startsLikeCommand_word, Bool.not_true, Bool.and_false]
  . rw [DoubleParen.closesWithGap_joiner hquiet hsequence, Bool.not_true, Bool.false_and]

end NestedSubshells

namespace Grammar

open Parse Lexer
open Phrase (Written tokenAt following nodesAt stopAll)

variable {env : Env} {c : Setting} {place : Nat} {ps : List Phrase} {rest : List Char}

theorem nestedSubshells_rounds (level : Nat) {n : NestedSubshells} (henv : env.Unlimited)
    (hmode : c.mode = .command) (hdepth : c.depth + 2 < env.options.maxDepth)
    (h : Written env.source place (n.statements ++ commandsAfter n.others ++ closeParen :: ps)
      rest) :
    Rounds env c (listStep (nested (level + 1)) {}) place []
      (stopAll place (n.statements ++ commandsAfter n.others))
      (nodesAt place (n.statements ++ commandsAfter n.others)) := by
  have hinner : IsPrimary env c (nested (level + 1)) place n.innerSubshell :=
    .subshell level n.first n.more henv hmode hdepth
  have hkind : (n.innerSubshell.nodeAt place).kind = .subshell := by
    rw [NestedSubshells.innerSubshell, closedSubshell, Phrase.nodeAt_node]
  have hcommand : c.depth + 1 < env.options.maxDepth := Nat.lt_of_succ_lt hdepth
  unfold NestedSubshells.statements at h ⊢
  cases hjoiner : n.joiner with
  | sequence =>
    simp only [hjoiner] at h ⊢
    have hlist : Written env.source place (n.innerSubshell :: Terminator.semicolon.phrase true ::
        .commandOf n.second false [] :: (commandsAfter n.others ++ closeParen :: ps)) rest := h
    exact sequence_rounds henv hmode (hinner.item hmode) hlist
      (commandsAfter_rounds henv hmode hcommand (.bareCommand n.second false hmode hcommand)
        hlist.tail.tail) []
  | pipe =>
    simp only [hjoiner] at h ⊢
    have hitem := IsItem.joined .pipe "|" hmode hcommand hinner hkind (by decide) nofun
      (fun _ => rfl) n.second
    exact commandsAfter_rounds henv hmode hcommand hitem h []
  | and =>
    simp only [hjoiner] at h ⊢
    have hitem := IsItem.joined .list "&&" hmode hcommand hinner hkind (by decide) nofun
      (fun _ => rfl) n.second
    exact commandsAfter_rounds henv hmode hcommand hitem h []
  | or =>
    simp only [hjoiner] at h ⊢
    have hitem := IsItem.joined .list "||" hmode hcommand hinner hkind (by decide) nofun
      (fun _ => rfl) n.second
    exact commandsAfter_rounds henv hmode hcommand hitem h []

/-- The subshell as the first statement of a script. -/
theorem runs_nestedSubshells (ctx : ListContext) (level : Nat) {n : NestedSubshells}
    (henv : env.Unlimited)
    (hmode : c.mode = .command) (hdepth : c.depth + 3 < env.options.maxDepth)
    (hjoiner : n.joiner = .sequence → n.more = [])
    (h : Written env.source 0 (n.phrase :: ps) rest) :
    StartsStatement env.source 0 ctx ∧
      Runs env c 0 (primaryStatement (nested (level + 2))) (some (n.phrase.nodeAt 0))
        (n.phrase.stop 0) := by
  have hlist := written_closedSubshell h
  have hcomes : Comes env.source 0 .command { assignment := true, statementStart := true }
      (tokenAt 0 (.operator "(") "(" false) := by
    apply comes_parenthesis h.parts (by decide)
    intro _
    change (true && DoubleParen.opensArithmetic ((following _
      (n.statements ++ commandsAfter n.others ++ [closeParen] ++ ps) rest).drop 1)) = false
    rw [List.append_assoc, List.append_assoc, NestedSubshells.opensArithmetic_eq_false hjoiner]
    rfl
  have hmode' : c.deeper.mode = .command := hmode
  have hrounds := nestedSubshells_rounds level henv hmode' hdepth hlist
  exact ⟨startsStatement_parenthesis ctx hcomes,
    runs_closedSubshell henv hmode (by omega) hcomes hrounds h⟩

end Grammar

/-- Subshells right inside of subshells are read as such, unless the inner one has two commands or
more and a semicolon behind it. -/
theorem parse_nestedSubshells (n : NestedSubshells) (options : Options)
    (hstatements : options.maxStatements = none) (hdepth : 4 ≤ options.maxDepth)
    (hjoiner : n.joiner = .sequence → n.more = []) :
    parse (.ofString n.text) options = .ok (Phrase.script n.text [n.phrase]) := by
  have hwritten : Phrase.Written (.ofString n.text) 0 [n.phrase] [] := Phrase.written_text _ _
  -- The parenthesis that opens the script takes something, so that there is a level below it.
  have hsize : 0 < (Source.ofString n.text).size :=
    Nat.lt_of_lt_of_le (Phrase.lt_stop_leaf (by decide)) hwritten.parts.tail.le_size
  obtain ⟨level, hlevel⟩ : ∃ level, (Source.ofString n.text).size + 1 = level + 2 :=
    ⟨(Source.ofString n.text).size - 1, by omega⟩
  have henv : Parse.Env.Unlimited ⟨.ofString n.text, options, false⟩ := ⟨hstatements, rfl⟩
  obtain ⟨hstarts, hprimary⟩ :=
    Grammar.runs_nestedSubshells (c := {}) { topLevel := true } level henv rfl hdepth hjoiner
      hwritten
  rw [← hlevel] at hprimary
  exact Grammar.parse_of_statement (by simp [hstatements]) hwritten hstarts hprimary

theorem parse_nestedSubshells_and :
    parse (.ofString "((a;b)&& c;d)") { maxStatements := none } =
      .ok (Phrase.script "((a;b)&& c;d)"
        [.node .subshell
          [.token "(",
           .node .list
            [.node .subshell
              [.leaf (.token "(") "(" true,
               .node .command [.node .commandName [.leaf .word "a" true]],
               .leaf (.token ";") ";" true,
               .node .command [.node .commandName [.leaf .word "b" true]],
               .leaf (.token ")") ")" true],
             .leaf (.token "&&") "&&" true,
             .node .command [.node .commandName [.word "c"]]],
           .leaf (.token ";") ";" true,
           .node .command [.node .commandName [.leaf .word "d" true]],
           .leaf (.token ")") ")" true]]) := by
  have htext : "((a;b)&& c;d)" = NestedSubshells.text
      ⟨{ text := "a" }, [{ text := "b" }], .and, { text := "c" }, [{ text := "d" }]⟩ := by
    decide +kernel
  rw [htext]
  exact parse_nestedSubshells _ { maxStatements := none } rfl (by decide) nofun

/-- Two commands before the semicolon behind the inner subshell are read as arithmetic. -/
theorem parse_nestedSubshells_sequence :
    ∃ tree, parse (.ofString "((a;b);c)") = .ok tree ∧ tree.hasErrors ∧
      tree.root.children.map (·.kind) = [.testCommand] := by
  have htree : (parse (.ofString "((a;b);c)")).toOption.map
      (fun tree => (tree.hasErrors, tree.root.children.map (·.kind))) =
        some (true, [.testCommand]) := by decide +kernel
  obtain ⟨tree, htree, hkinds⟩ := exists_of_map htree
  simp only [Prod.mk.injEq] at hkinds
  exact ⟨tree, htree, hkinds⟩

end ShellTree
