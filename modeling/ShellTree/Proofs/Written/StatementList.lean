import ShellTree.Grammar.StatementList
import ShellTree.Proofs.Program
import ShellTree.Proofs.Written.Command

/-!
This module contains lists of statements with their terminators, and whole scripts, as the parse of
what they are written as.
-/

namespace ShellTree

inductive Terminator where
  | semicolon
  | ampersand
  | newline
deriving DecidableEq, Repr

def Terminator.text : Terminator → String
  | semicolon => ";"
  | ampersand => "&"
  | newline => "\n"

def Terminator.phrase (terminator : Terminator) (glued : Bool) : Phrase :=
  .leaf (.token terminator.text) terminator.text glued

theorem Terminator.lt_stop (terminator : Terminator) (glued : Bool) (place : Nat) :
    place < (terminator.phrase glued).stop place :=
  Phrase.lt_stop_leaf (by cases terminator <;> decide)

/-- The tree of a script that is written as the phrases, without a report. -/
def Phrase.script (text : String) (ps : List Phrase) : Tree :=
  ⟨.ofString text,
    ⟨.program, ⟨0, (Source.ofString text).size, Nat.zero_le _⟩, Phrase.nodesAt 0 ps⟩, []⟩

namespace Grammar

open Parse Lexer
open Phrase (Written tokenAt following)

variable {env : Env} {c : Setting} {place : Nat} {inner : Nested} {tok : Token} {text : String}
variable {kind : NodeKind} {glued : Bool} {p : Phrase} {ps : List Phrase} {rest : List Char}
variable {ctx : ListContext} {tier : Tier}

/-! ### What ends a statement -/

/-- What comes next joins no statement of the tier with another. -/
structure EndsStatement (tier : Tier) (src : Source) (place : Nat) (ps : List Phrase)
    (rest : List Char) : Prop extends EndsCommand src place ps rest where
  joinsNone : ∃ tok, Comes src place .command {} tok ∧
    ∀ op ∈ StatementOperator.ofToken? tok, tier.admits op = false

theorem endsWord_following_leaf (h : text.toList.head?.any Trivia.endsWord) :
    EndsWord (following place (.leaf kind text glued :: ps) rest) := by
  rw [Phrase.following_cons, Phrase.spelling, List.append_assoc]
  intro d hd
  cases Phrase.gap_eq glued place with
  | inl hnone =>
    cases hchars : text.toList with
    | nil => simp [hchars] at h
    | cons e es => simp_all
  | inr hspace =>
    rw [hspace] at hd
    simp only [List.cons_append, List.head?_cons, Option.mem_def, Option.some.injEq] at hd
    rw [← hd]
    rfl

/-- The operators that end a simple command. -/
def separators : List String := [";", "&", "|", "|&", "&&", "||", ")", ";;"]

theorem comes_separator {a s : Bool} (hop : text ∈ separators)
    (h : Written env.source place (.leaf kind text glued :: ps) rest)
    (hafter : EndsOperator (following ((Phrase.leaf kind text glued).stop place) ps rest)) :
    Comes env.source place .command { assignment := a, statementStart := s }
      (tokenAt place (.operator text) text glued) := by
  have hall : ∀ op ∈ separators, op ∈ Operator.command ∧ op ≠ "((" := by decide
  exact comes_operator h (hall text hop).1 (hall text hop).2 hafter

theorem lt_stop_separator (hop : text ∈ separators) :
    place < (Phrase.leaf kind text glued).stop place := by
  have hnil : ∀ op ∈ separators, op.toList ≠ [] := by decide
  exact Phrase.lt_stop_leaf (hnil text hop)

theorem stop_separator_ne_zero (hop : text ∈ separators) :
    (Phrase.leaf kind text glued).stop place ≠ 0 :=
  Nat.ne_of_gt (Nat.zero_lt_of_lt (lt_stop_separator hop))

theorem endsStatement_of_comes (hop : text ∈ separators)
    (hcomes : Comes env.source place .command {} (tokenAt place (.operator text) text glued))
    (hjoins : ∀ op ∈ StatementOperator.ofToken? (tokenAt place (.operator text) text glued),
      tier.admits op = false) :
    EndsStatement tier env.source place (.leaf kind text glued :: ps) rest := by
  have hall : ∀ op ∈ separators, op.toList.head?.any Trivia.endsWord ∧
      Operator.fragmentOpeners.contains op = false ∧ Operator.redirects.contains op = false ∧
      op ≠ "(" := by decide
  obtain ⟨hends, hliteral, hredirect, hparen⟩ := hall text hop
  refine ⟨⟨endsWord_following_leaf hends, _, hcomes, hliteral, ?_, ?_⟩, _, hcomes, hjoins⟩
  . simpa [Token.isRedirectStart, Token.isOneOf, tokenAt] using hredirect
  . simpa [Token.isOperator, tokenAt] using hparen

theorem endsStatement_of_separator (hop : text ∈ separators)
    (hjoins : ∀ op ∈ StatementOperator.ofToken? (tokenAt place (.operator text) text glued),
      tier.admits op = false)
    (h : Written env.source place (.leaf kind text glued :: ps) rest)
    (hafter : EndsOperator (following ((Phrase.leaf kind text glued).stop place) ps rest)) :
    EndsStatement tier env.source place (.leaf kind text glued :: ps) rest :=
  endsStatement_of_comes hop (comes_separator hop h hafter) hjoins

theorem endsStatement_terminator (terminator : Terminator)
    (h : Written env.source place (terminator.phrase glued :: ps) rest)
    (hafter : EndsOperator (following ((terminator.phrase glued).stop place) ps rest)) :
    EndsStatement tier env.source place (terminator.phrase glued :: ps) rest := by
  cases terminator with
  | newline =>
    have hcomes := comes_newline (a := false) (s := false) h
    exact ⟨⟨endsWord_following_leaf (by decide), _, hcomes, rfl, rfl, rfl⟩, _, hcomes, nofun⟩
  | semicolon => exact endsStatement_of_separator (by decide) nofun h hafter
  | ampersand => exact endsStatement_of_separator (by decide) nofun h hafter

theorem endsStatement_end {src : Source} (h : Written src place [] rest)
    (hrest : rest = [] ∨ rest = [' ']) : EndsStatement tier src place [] rest := by
  obtain ⟨tok, hkind, hcomes⟩ := comes_end .command {} h hrest
  have hkind : tok.kind = .eof := by simpa [Token.isEof] using hkind
  refine ⟨⟨?_, tok, hcomes, ?_, ?_, ?_⟩, tok, hcomes, ?_⟩
  . intro d hd
    cases hrest with
    | inl hnone => simp [following, hnone] at hd
    | inr hspace =>
      simp only [following, hspace, Phrase.spellingAll_nil, List.nil_append, List.head?_cons,
        Option.mem_def, Option.some.injEq] at hd
      rw [← hd]
      rfl
  all_goals
    simp [Token.isLiteralStart, Token.isRedirectStart, Token.isOneOf, Token.isOperator,
      StatementOperator.ofToken?, hkind]

theorem EndsCommand.statement (h : EndsCommand env.source place ps rest) :
    EndsStatement .command env.source place ps rest := by
  obtain ⟨tok, hcomes, _⟩ := h.next
  exact ⟨h, tok, hcomes, fun op _ => by cases op <;> rfl⟩

theorem runs_statementStep_done (hmode : c.mode = .command)
    (h : EndsStatement tier env.source place ps rest) (left : Node) :
    Runs env c place (statementStep inner tier left) (.done left) place := by
  obtain ⟨tok, hcomes, hjoins⟩ := h.joinsNone
  rw [← hmode] at hcomes
  unfold statementStep
  refine (runs_peekPlain hcomes).bind ?_
  cases hop : StatementOperator.ofToken? tok with
  | none => exact Leads.pure _
  | some op =>
    simp only [hjoins op hop, Bool.not_false, if_true]
    exact Leads.pure _

/-- A statement that nothing joins with another. -/
theorem runs_statement (hmode : c.mode = .command)
    (hprimary : Runs env c place (primaryStatement inner) (some (p.nodeAt place)) (p.stop place))
    (hends : EndsStatement tier env.source (p.stop place) ps rest)
    (hle : p.stop place ≤ env.source.size) :
    Runs env c place (statement inner tier) (some (p.nodeAt place)) (p.stop place) := by
  unfold statement
  refine hprimary.bind (Leads.map ?_ some)
  exact (Rounds.refl _ _).repeatStep (runs_statementStep_done hmode hends _) hle

/-! ### Terminators -/

/-- What comes next opens a statement of a list. -/
def StartsStatement (src : Source) (place : Nat) (ctx : ListContext) : Prop :=
  ∃ tok, Comes src place .command { assignment := true, statementStart := true } tok ∧
    tok.isEof = false ∧ tok.kind ≠ .newline ∧ endsList src ctx tok = false

theorem endsList_name {src : Source} (ctx : ListContext) (name : CommandName) :
    endsList src ctx (tokenAt place .word name.text glued) = false := by
  have hclosing : ∀ text ∈ Keyword.closing, text ∈ Keyword.all := by decide
  have hname : name.text ∉ Keyword.closing := fun hmem => name.notMem (hclosing _ hmem)
  simp [endsList, tokenAt, hname]

theorem runs_lineBreak?_none {keepLeaf : Bool} (h : Comes env.source place c.mode {} tok)
    (hkind : tok.kind ≠ .newline) : Runs env c place (lineBreak? inner keepLeaf) none place := by
  unfold lineBreak?
  refine (runs_peekPlain h).bind ?_
  rw [if_neg hkind]
  exact Leads.pure _

theorem runs_lineBreaks_nil (h : Comes env.source place c.mode {} tok)
    (hkind : tok.kind ≠ .newline) (hle : place ≤ env.source.size) :
    Runs env c place (lineBreaks inner) [] place := by
  apply (Rounds.refl _ _).repeatStep _ hle
  exact (runs_lineBreak?_none h hkind).bind (Leads.pure _)

theorem runs_terminator? {terminator : Terminator} (hmode : c.mode = .command)
    (h : Written env.source place (terminator.phrase glued :: ps) rest)
    (hafter : EndsOperator (following ((terminator.phrase glued).stop place) ps rest)) :
    Runs env c place (terminator? inner ctx)
      (some [(terminator.phrase glued).nodeAt place]) ((terminator.phrase glued).stop place) := by
  unfold terminator?
  cases terminator with
  | newline =>
    have hcomes := comes_newline (a := false) (s := false) h
    rw [← hmode] at hcomes
    have hbreak : Runs env c place (lineBreak? inner true)
        (some [(Terminator.newline.phrase glued).nodeAt place])
        ((Terminator.newline.phrase glued).stop place) := by
      unfold lineBreak?
      refine (runs_peekPlain hcomes).bind ?_
      rw [if_pos (show (tokenAt place .newline "\n" glued).kind = .newline from rfl)]
      refine (leads_tokenLeaf (.token "\n") rfl (by simp)).bind ?_
      exact .of_eq fun _ => rfl
    refine (runs_peekPlain hcomes).bind ?_
    exact hbreak.map _
  | semicolon =>
    have hcomes := comes_separator (a := false) (s := false) (by decide) h hafter
    rw [← hmode] at hcomes
    refine (runs_peekPlain hcomes).bind ?_
    exact (leads_tokenLeaf (.token ";") rfl (by simp)).map _
  | ampersand =>
    have hcomes := comes_separator (a := false) (s := false) (by decide) h hafter
    rw [← hmode] at hcomes
    refine (runs_peekPlain hcomes).bind ?_
    exact (leads_tokenLeaf (.token "&") rfl (by simp)).map _

theorem runs_terminator?_none (h : Comes env.source place c.mode {} tok) (htok : tok.isEof) :
    Runs env c place (terminator? inner ctx) none place := by
  have hkind : tok.kind = .eof := by simpa [Token.isEof] using htok
  unfold terminator?
  refine (runs_peekPlain h).bind ?_
  simp only [Token.isOneOf, Token.isEof, hkind]
  exact Leads.pure _

/-! ### Lists -/

/-- A step of a list reads a statement where one comes next and no limit is hit. -/
theorem listStep_run {n n' q : Nat} {nodes : List Node} {result : ForInStep (List Node)}
    (htick : tick env (c.state place n) = .ok (true, c.state place n')) (hmode : c.mode = .command)
    (hstarts : StartsStatement env.source place ctx)
    (hitem : Runs env c place (listItemStep inner ctx nodes) result q) :
    ∃ n'', listStep inner ctx nodes env (c.state place n) = .ok (result, c.state q n'') ∧
      (n'' = n' ∨ env.options.maxStatements = none) := by
  obtain ⟨tok, hcomes, heof, hnewline, hlist⟩ := hstarts
  rw [← hmode] at hcomes
  obtain ⟨n'', hrun, hn⟩ := hitem n'
  refine ⟨n'', ?_, hn⟩
  unfold listStep
  refine bind_run.2 ⟨true, _, htick, bind_run.2 ⟨tok, _, peekWith_state hcomes n', ?_⟩⟩
  rw [heof, if_neg Bool.false_ne_true, if_neg hnewline]
  refine bind_run.2 ⟨env.source, _, rfl, ?_⟩
  rw [hlist, if_neg Bool.false_ne_true]
  exact hrun

theorem runs_listStep_item {q : Nat} {nodes : List Node} {result : ForInStep (List Node)}
    (henv : env.Unlimited) (hmode : c.mode = .command)
    (hstarts : StartsStatement env.source place ctx)
    (hitem : Runs env c place (listItemStep inner ctx nodes) result q) :
    Runs env c place (listStep inner ctx nodes) result q := by
  intro n
  obtain ⟨_, htick, _⟩ := runs_tick (c := c) (p := place) henv n
  obtain ⟨n', hrun, _⟩ := listStep_run htick hmode hstarts hitem
  exact ⟨n', hrun, .inr henv.maxStatements_eq⟩

theorem runs_listItem {terminator : Terminator} (henv : env.Unlimited) (hmode : c.mode = .command)
    (hstarts : StartsStatement env.source place ctx)
    (hstatement : Runs env c place (statement inner .list) (some (p.nodeAt place)) (p.stop place))
    (h : Written env.source place (p :: terminator.phrase glued :: ps) rest)
    (hafter : EndsOperator (following ((terminator.phrase glued).stop (p.stop place)) ps rest))
    (nodes : List Node) :
    Runs env c place (listStep inner ctx nodes)
      (.yield (nodes ++ Phrase.nodesAt place [p, terminator.phrase glued]))
      (Phrase.stopAll place [p, terminator.phrase glued]) := by
  have hlt : place < (terminator.phrase glued).stop (p.stop place) :=
    Nat.lt_of_le_of_lt (Phrase.le_stop place p) (terminator.lt_stop glued _)
  refine runs_listStep_item henv hmode hstarts ?_
  unfold listItemStep
  refine leads_position.bind (hstatement.bind ((runs_terminator? hmode h.tail hafter).bind ?_))
  refine leads_position.bind (leads_isHalted.bind ?_)
  rw [if_neg (by simp; omega)]
  simp only [Phrase.nodesAt_cons, Phrase.nodesAt_nil, Phrase.stopAll_cons, Phrase.stopAll_nil]
  exact Leads.pure _

/-- A statement at the end of the text is the last node of a list. -/
theorem runs_lastItem (hstatement : Runs env c place (statement inner .list)
      (some (p.nodeAt place)) (p.stop place))
    (h : Written env.source place [p] []) (nodes : List Node) :
    Runs env c place (listItemStep inner ctx nodes) (.done (nodes ++ [p.nodeAt place]))
      (p.stop place) := by
  obtain ⟨last, hend, hlast⟩ := comes_end c.mode {} h.tail (.inl rfl)
  unfold listItemStep
  exact leads_position.bind (hstatement.bind ((runs_terminator?_none hlast hend).bind (Leads.pure _)))

theorem listStep_end_run {n n' : Nat}
    (htick : tick env (c.state place n) = .ok (true, c.state place n')) (hmode : c.mode = .command)
    (h : Written env.source place [] rest) (hrest : rest = [] ∨ rest = [' ']) (nodes : List Node) :
    listStep inner ctx nodes env (c.state place n) = .ok (.done nodes, c.state place n') := by
  obtain ⟨tok, hend, hcomes⟩ := comes_end .command
    { assignment := true, statementStart := true } h hrest
  rw [← hmode] at hcomes
  unfold listStep
  refine bind_run.2 ⟨true, _, htick, bind_run.2 ⟨tok, _, peekWith_state hcomes n', ?_⟩⟩
  rw [if_pos hend]
  rfl

theorem runs_listStep_end (henv : env.Unlimited) (hmode : c.mode = .command)
    (h : Written env.source place [] rest) (hrest : rest = [] ∨ rest = [' ']) (nodes : List Node) :
    Runs env c place (listStep inner ctx nodes) (.done nodes) place := by
  intro n
  obtain ⟨n', htick, hn⟩ := runs_tick (c := c) (p := place) henv n
  exact ⟨n', listStep_end_run htick hmode h hrest nodes, hn⟩

/-! ### Scripts -/

/-- A list of statements that runs through is the whole script. -/
theorem parse_of_nodes {options : Options} {nodes : List Node} {q n : Nat}
    (h : statements (nested ((Source.ofString text).size + 1)) { topLevel := true }
        ⟨.ofString text, options, false⟩ (({} : Setting).state 0 0) =
      .ok (nodes, ({} : Setting).state q n)) :
    parse (.ofString text) options = .ok ⟨.ofString text,
      ⟨.program, ⟨0, (Source.ofString text).size, Nat.zero_le _⟩, nodes⟩, []⟩ := by
  have hscript : script ⟨.ofString text, options, false⟩ {} = .ok
      (⟨.program, ⟨0, (Source.ofString text).size, Nat.zero_le _⟩, nodes⟩,
        ({} : Setting).state q n) := by
    unfold script
    refine bind_run.2 ⟨_, _, rfl, bind_run.2 ⟨_, _, h, ?_⟩⟩
    refine bind_run.2 ⟨(), _, rfl, bind_run.2 ⟨[], _, rfl, ?_⟩⟩
    rw [List.append_nil]
    exact bind_run.2 ⟨_, _, rfl, rfl⟩
  rw [parse_eq, show (Option.getD none false : Bool) = false from rfl, hscript]
  rfl

theorem parse_of_runs {options : Options} {q : Nat}
    (h : Runs ⟨.ofString text, options, false⟩ {} 0
      (statements (nested ((Source.ofString text).size + 1)) { topLevel := true })
      (Phrase.nodesAt 0 ps) q) :
    parse (.ofString text) options = .ok (Phrase.script text ps) := by
  obtain ⟨_, hrun, _⟩ := h 0
  exact parse_of_nodes hrun

/-- A statement by itself is a script where a single statement is not too many. -/
theorem parse_of_statement {options : Options} (hstatements : options.maxStatements ≠ some 0)
    (h : Written (.ofString text) 0 [p] [])
    (hstarts : StartsStatement (.ofString text) 0 { topLevel := true })
    (hprimary : Runs ⟨.ofString text, options, false⟩ {} 0
      (primaryStatement (nested ((Source.ofString text).size + 1))) (some (p.nodeAt 0))
      (p.stop 0)) :
    parse (.ofString text) options = .ok (Phrase.script text [p]) := by
  have htick : tick ⟨.ofString text, options, false⟩ (({} : Setting).state 0 0) =
      .ok (true, ({} : Setting).state 0 1) := by
    apply tick_run rfl
    rintro (_ | limit) hlimit
    . exact absurd hlimit hstatements
    . exact Nat.succ_pos limit
  have hends : EndsStatement .list (.ofString text) (p.stop 0) [] [] :=
    endsStatement_end h.tail (.inl rfl)
  have hstatement := runs_statement rfl hprimary hends h.tail.le_size
  obtain ⟨n, hstep, _⟩ := listStep_run htick rfl hstarts (runs_lastItem hstatement h [])
  refine parse_of_nodes (q := p.stop 0) (n := n) ?_
  rw [Phrase.nodesAt_cons, Phrase.nodesAt_nil]
  exact repeatStep_run hstep

/-- A command with one argument is a script by itself. -/
theorem parse_of_argument {options : Options} {name : CommandName} {argument : Phrase}
    (hstatements : options.maxStatements ≠ some 0) (hdepth : 1 < options.maxDepth)
    (h : Written (.ofString text) 0 [.namedCommand name [argument]] [])
    (hspaced : argument.IsSpaced)
    (hcomes : Comes (.ofString text) (name.phrase.stop 0) .command {} tok)
    (hadjacent : tok.adjacent = false) (hstarts : tok.isLiteralStart)
    (hfragment : Runs ⟨.ofString text, options, false⟩ ({} : Setting).deeper.deeper
      (name.phrase.stop 0) (fragmentOf (nested ((Source.ofString text).size + 1)) tok)
      (argument.nodeAt (name.phrase.stop 0)) (argument.stop (name.phrase.stop 0))) :
    parse (.ofString text) options = .ok (Phrase.script text [.namedCommand name [argument]]) := by
  have hparted : EndsWord (following (name.phrase.stop 0) [argument] []) :=
    (parted_following (name.stop_ne_zero 0) hspaced.spaced).endsWord
  have hword := comes_word (a := true) (s := true) h.parts.parts name.isPlainWord hparted
  have hparen : tok.isOperator "(" = false := by
    rw [← Bool.not_eq_true]
    intro hop
    simp [Token.isLiteralStart, show tok.kind = .operator "(" by simpa [Token.isOperator] using hop,
      Operator.fragmentOpeners] at hstarts
  have hname : EndsName (.ofString text) (name.phrase.stop 0) ([argument] ++ []) [] :=
    ⟨hparted, tok, hcomes, by rw [hadjacent, Bool.false_and], hparen⟩
  have hargument : Written (.ofString text) (name.phrase.stop 0) [argument] [] := h.parts.parts.tail
  have hends : EndsStatement .command (.ofString text) (argument.stop (name.phrase.stop 0)) [] [] :=
    endsStatement_end hargument.tail (.inl rfl)
  refine parse_of_statement hstatements h ⟨_, hword, rfl, by simp [tokenAt], endsList_name _ name⟩ ?_
  exact runs_namedStatement rfl hdepth h hname
    (runs_lastArgument rfl hdepth hcomes hstarts hfragment (hspaced.lt_stop _) hargument
      hends.toEndsCommand)

end Grammar

end ShellTree
