import ShellTree.Grammar.Statement
import ShellTree.Proofs.Written.Token

/-!
This module contains simple commands of plain words, and the parse of what they are written as.
-/

namespace ShellTree

/-- A word of lowercase letters. -/
structure Word where
  text : String
  ne_nil : text.toList ≠ [] := by decide
  isLower : ∀ c ∈ text.toList, c.isLower := by decide

def Word.phrase (w : Word) : Phrase := .word w.text

/-- A word that means nothing special where a command begins. -/
structure CommandName extends Word where
  notMem : text ∉ Keyword.all := by decide

structure SimpleCommand where
  name : CommandName
  arguments : List Word

def Phrase.namedCommand (name : CommandName) (arguments : List Phrase) : Phrase :=
  .node .command (.node .commandName [name.phrase] :: arguments)

/-- A command whose name stands right behind what comes before it, if it is glued. -/
def Phrase.commandOf (name : CommandName) (glued : Bool) (arguments : List Phrase) : Phrase :=
  .node .command (.node .commandName [.leaf .word name.text glued] :: arguments)

def SimpleCommand.phrase (command : SimpleCommand) : Phrase :=
  .namedCommand command.name (command.arguments.map Word.phrase)

@[simp]
theorem Phrase.stop_namedCommand {place : Nat} (name : CommandName) (arguments : List Phrase) :
    (namedCommand name arguments).stop place = stopAll (name.phrase.stop place) arguments := by
  simp [namedCommand]

@[simp]
theorem Phrase.stop_commandOf {place : Nat} (name : CommandName) (glued : Bool)
    (arguments : List Phrase) :
    (commandOf name glued arguments).stop place =
      stopAll ((leaf .word name.text glued).stop place) arguments := by
  simp [commandOf]

namespace Word

theorem isAlpha (w : Word) : ∀ c ∈ w.text.toList, c.isAlpha := by
  intro c hc
  change (c.isUpper || c.isLower) = true
  rw [w.isLower c hc, Bool.or_true]

theorem isPlainWord (w : Word) : Lexer.IsPlainWord w.text.toList where
  ne_nil := w.ne_nil
  plain c hc := by simp [Lexer.isPlain, w.isLower c hc]
  noTarget := .inl fun c hc => by simp [isNameChar, Char.isAlphanum, w.isAlpha c hc]

theorem isNumber_eq_false (w : Word) : isNumber w.text = false := by
  obtain ⟨c, cs, hchars⟩ := List.exists_cons_of_ne_nil w.ne_nil
  have hplain := w.isPlainWord.plain c (by simp [hchars])
  have hdigit := Lexer.isDigit_of_isPlain hplain
  unfold isNumber
  rw [hchars]
  split
  . next heq =>
    rw [(List.cons.inj heq).1] at hdigit
    cases hdigit
  . simp [isNumber.isNumeral, hdigit]

theorem isName_text (w : Word) : isName w.text.toList := by
  obtain ⟨c, cs, hchars⟩ := List.exists_cons_of_ne_nil w.ne_nil
  have hname : ∀ c ∈ w.text.toList, isNameStart c ∧ isNameChar c := by
    intro c hc
    simp [isNameStart, isNameChar, Char.isAlphanum, w.isAlpha c hc]
  rw [hchars] at hname ⊢
  simp only [isName, Bool.and_eq_true, List.all_eq_true]
  exact ⟨(hname c List.mem_cons_self).1, fun d hd => (hname d (List.mem_cons_of_mem c hd)).2⟩

theorem lt_stop (w : Word) (place : Nat) : place < w.phrase.stop place :=
  Phrase.lt_stop_leaf w.ne_nil

theorem stop_ne_zero (w : Word) (place : Nat) : w.phrase.stop place ≠ 0 :=
  Nat.ne_of_gt (Nat.zero_lt_of_lt (w.lt_stop place))

end Word

namespace Grammar

open Parse Lexer
open Phrase (Written tokenAt following)

variable {env : Env} {c : Setting} {place : Nat} {inner : Nested} {tok : Token} {text : String}
variable {glued : Bool} {ps : List Phrase} {rest : List Char}

/-! ### Literals -/

theorem runs_wordFragment (hword : Comes env.source place c.mode {} (tokenAt place .word text glued))
    (hnumber : isNumber text = false) (hdepth : c.depth < env.options.maxDepth) :
    Runs env c place (fragment inner) (some ((Phrase.leaf .word text glued).nodeAt place))
      ((Phrase.leaf .word text glued).stop place) := by
  unfold fragment
  refine (runs_peek hword).bind ?_
  rw [if_pos (show (tokenAt place .word text glued).isLiteralStart = true from rfl)]
  apply runs_nest hdepth
  refine Leads.map ?_ some
  change Runs _ _ _ (wordLeaf _) _ _
  unfold wordLeaf
  rw [show isNumber (tokenAt place .word text glued).text = false from hnumber]
  exact leads_leafAt

/-- A fragment is a literal by itself where nothing is glued to it. -/
theorem runs_literal_of_fragment {fragment : Node} {q : Nat}
    (hfragment : Runs env c place (Grammar.fragment inner) (some fragment) q)
    (hle : q ≤ env.source.size) (hnext : Comes env.source q c.mode {} tok)
    (hends : (tok.adjacent && tok.isLiteralStart) = false) :
    Runs env c place (literal inner) (some fragment) q := by
  unfold literal
  refine hfragment.bind ?_
  have hloop : Runs env c q (repeatStep (literalStep inner) [fragment]) [fragment] q := by
    apply (Rounds.refl _ _).repeatStep _ hle
    unfold literalStep
    refine (runs_peek hnext).bind ?_
    rw [hends, if_neg Bool.false_ne_true]
    exact Leads.pure _
  exact hloop.bind (Leads.pure _)

theorem runs_literal_none (h : Comes env.source place c.mode {} tok)
    (htok : tok.isLiteralStart = false) : Runs env c place (literal inner) none place := by
  have hfragment : Runs env c place (fragment inner) none place := by
    unfold fragment
    refine (runs_peek h).bind ?_
    rw [htok, if_neg Bool.false_ne_true]
    exact Leads.pure _
  unfold literal
  exact hfragment.bind (Leads.pure _)

/-! ### Commands -/

/-- What comes next is no part of a simple command. -/
structure EndsCommand (src : Source) (place : Nat) (ps : List Phrase) (rest : List Char) : Prop where
  endsWord : EndsWord (following place ps rest)
  next : ∃ tok, Comes src place .command {} tok ∧ tok.isLiteralStart = false ∧
    tok.isRedirectStart = false ∧ tok.isOperator "(" = false

/-- What comes next goes on with a command after a word at a distance, or ends the command. -/
structure EndsName (src : Source) (place : Nat) (ps : List Phrase) (rest : List Char) : Prop where
  endsWord : EndsWord (following place ps rest)
  next : ∃ tok, Comes src place .command {} tok ∧
    (tok.adjacent && tok.isLiteralStart) = false ∧ tok.isOperator "(" = false

theorem EndsCommand.endsName {src : Source} (h : EndsCommand src place ps rest) :
    EndsName src place ps rest := by
  obtain ⟨hword, tok, hcomes, hliteral, _, hoperator⟩ := h
  exact ⟨hword, tok, hcomes, by simp [hliteral], hoperator⟩

theorem endsWord_words {ws : List Word} (hplace : place ≠ 0)
    (hends : EndsWord (following (Phrase.stopAll place (ws.map Word.phrase)) ps rest)) :
    EndsWord (following place (ws.map Word.phrase ++ ps) rest) := by
  cases ws with
  | nil => exact hends
  | cons w ws => exact (parted_following hplace rfl).endsWord

theorem endsName_words {ws : List Word} (hplace : place ≠ 0)
    (h : Written env.source place (ws.map Word.phrase ++ ps) rest)
    (hends : EndsCommand env.source (Phrase.stopAll place (ws.map Word.phrase)) ps rest) :
    EndsName env.source place (ws.map Word.phrase ++ ps) rest := by
  cases ws with
  | nil => exact hends.endsName
  | cons w ws =>
    rw [List.map_cons, Phrase.stopAll_cons] at hends
    have hword := endsWord_words (w.stop_ne_zero place) hends.endsWord
    refine ⟨(parted_following hplace rfl).endsWord, _, comes_word h w.isPlainWord hword, ?_, rfl⟩
    rw [tokenAt_adjacent hplace, Bool.false_and]

theorem isInnerRedirect_runs {p : Nat} (htok : tok.isRedirectStart = false) :
    Runs env c p (isInnerRedirect tok) false p := by
  unfold isInnerRedirect
  rw [htok, if_neg Bool.false_ne_true]
  exact Leads.pure _

theorem Word.runs_literal (inner : Nested) (w : Word) (hmode : c.mode = .command)
    (hdepth : c.depth < env.options.maxDepth)
    (h : Written env.source place (.leaf .word w.text glued :: ps) rest)
    (hends : EndsName env.source ((Phrase.leaf .word w.text glued).stop place) ps rest) :
    Comes env.source place c.mode {} (tokenAt place .word w.text glued) ∧
      Runs env c place (literal inner) (some ((Phrase.leaf .word w.text glued).nodeAt place))
        ((Phrase.leaf .word w.text glued).stop place) := by
  obtain ⟨hword, tok, hnext, hglued, _⟩ := hends
  have hcomes := comes_word (a := false) (s := false) h w.isPlainWord hword
  rw [← hmode] at hcomes hnext
  exact ⟨hcomes, runs_literal_of_fragment (runs_wordFragment hcomes w.isNumber_eq_false hdepth)
    h.tail.le_size hnext hglued⟩

/-- A loop whose steps take a literal each runs through words. -/
theorem words_rounds {step : List Node → Parse (ForInStep (List Node))} {ws : List Word}
    (hmode : c.mode = .command) (hdepth : c.depth < env.options.maxDepth)
    (hstep : ∀ {place parts} {w : Word},
      Comes env.source place c.mode {} (tokenAt place .word w.text false) →
      Runs env c place (literal inner) (some (w.phrase.nodeAt place)) (w.phrase.stop place) →
      Runs env c place (step parts) (.yield (parts ++ [w.phrase.nodeAt place]))
        (w.phrase.stop place))
    (h : Written env.source place (ws.map Word.phrase ++ ps) rest)
    (hends : EndsCommand env.source (Phrase.stopAll place (ws.map Word.phrase)) ps rest)
    (parts : List Node) :
    Rounds env c step place parts (Phrase.stopAll place (ws.map Word.phrase))
      (parts ++ Phrase.nodesAt place (ws.map Word.phrase)) := by
  induction ws generalizing place parts with
  | nil =>
    simp only [List.map_nil, Phrase.stopAll_nil, Phrase.nodesAt_nil, List.append_nil]
    exact .refl place parts
  | cons w ws ih =>
    simp only [List.map_cons, List.cons_append, Phrase.stopAll_cons,
      Phrase.nodesAt_cons] at h hends ⊢
    obtain ⟨hword, hliteral⟩ := Word.runs_literal inner w hmode hdepth h
      (endsName_words (w.stop_ne_zero place) h.tail hends)
    apply Rounds.head (hstep hword hliteral) (w.lt_stop place)
    simpa using ih h.tail hends (parts ++ [w.phrase.nodeAt place])

theorem runs_argumentStep {argument : Node} {q : Nat} (hcomes : Comes env.source place c.mode {} tok)
    (hstarts : tok.isLiteralStart) (hliteral : Runs env c place (literal inner) (some argument) q)
    (parts : List Node) :
    Runs env c place (argumentStep inner parts) (.yield (parts ++ [argument])) q := by
  unfold argumentStep
  refine (runs_peek hcomes).bind ?_
  rw [if_pos hstarts]
  exact hliteral.bind (Leads.pure _)

theorem runs_argumentStep_done (hmode : c.mode = .command)
    (hends : EndsCommand env.source place ps rest) (parts : List Node) :
    Runs env c place (argumentStep inner parts) (.done parts) place := by
  obtain ⟨_, last, hlast, hliteral, hredirect, _⟩ := hends
  rw [← hmode] at hlast
  unfold argumentStep
  refine (runs_peek hlast).bind ?_
  rw [hliteral, if_neg Bool.false_ne_true]
  exact (isInnerRedirect_runs hredirect).bind (Leads.pure _)

theorem runs_arguments {ws : List Word} (hmode : c.mode = .command)
    (hdepth : c.depth < env.options.maxDepth)
    (h : Written env.source place (ws.map Word.phrase ++ ps) rest)
    (hends : EndsCommand env.source (Phrase.stopAll place (ws.map Word.phrase)) ps rest)
    (parts : List Node) :
    Runs env c place (repeatStep (argumentStep inner) parts)
      (parts ++ Phrase.nodesAt place (ws.map Word.phrase))
      (Phrase.stopAll place (ws.map Word.phrase)) :=
  (words_rounds hmode hdepth (fun hword hliteral => runs_argumentStep hword rfl hliteral _) h hends
    _).repeatStep (runs_argumentStep_done hmode hends _) h.drop.le_size

/-- A fragment that ends where its command does is an argument by itself. -/
theorem runs_lastArgument {p : Phrase} (hmode : c.mode = .command)
    (hdepth : c.depth < env.options.maxDepth) (hcomes : Comes env.source place c.mode {} tok)
    (hstarts : tok.isLiteralStart)
    (hfragment : Runs env c.deeper place (fragmentOf inner tok) (p.nodeAt place) (p.stop place))
    (hlt : place < p.stop place) (h : Written env.source place (p :: ps) rest)
    (hends : EndsCommand env.source (p.stop place) ps rest) (parts : List Node) :
    Runs env c place (repeatStep (argumentStep inner) parts)
      (parts ++ Phrase.nodesAt place [p]) (Phrase.stopAll place [p]) := by
  obtain ⟨last, hnext, hliteral, _⟩ := hends.next
  have hle := h.tail.le_size
  rw [← hmode] at hnext
  have hwhole : Runs env c place (fragment inner) (some (p.nodeAt place)) (p.stop place) := by
    unfold fragment
    refine (runs_peek hcomes).bind ?_
    rw [if_pos hstarts]
    apply runs_nest hdepth
    exact hfragment.map some
  have hargument := runs_literal_of_fragment hwhole hle hnext (by simp [hliteral])
  simp only [Phrase.stopAll_cons, Phrase.stopAll_nil, Phrase.nodesAt_cons, Phrase.nodesAt_nil]
  exact (Rounds.single (runs_argumentStep hcomes hstarts hargument parts) hlt).repeatStep
    (runs_argumentStep_done hmode hends _) hle

/-- A command of a plain name, with what is read as its arguments. -/
theorem runs_commandOf {name : CommandName} {arguments : List Phrase} (hmode : c.mode = .command)
    (hdepth : c.depth < env.options.maxDepth)
    (h : Written env.source place (.commandOf name glued arguments :: ps) rest)
    (hends : EndsName env.source ((Phrase.leaf .word name.text glued).stop place)
      (arguments ++ ps) rest)
    (harguments : ∀ parts, Runs env c ((Phrase.leaf .word name.text glued).stop place)
      (repeatStep (argumentStep inner) parts)
      (parts ++ Phrase.nodesAt ((Phrase.leaf .word name.text glued).stop place) arguments)
      (Phrase.stopAll ((Phrase.leaf .word name.text glued).stop place) arguments)) :
    Runs env c place (Grammar.command inner) ((Phrase.commandOf name glued arguments).nodeAt place)
      ((Phrase.commandOf name glued arguments).stop place) := by
  have htoken := fun a : Bool =>
    comes_word (a := a) (s := false) h.parts.parts name.isPlainWord hends.endsWord
  rw [← hmode] at htoken
  unfold Grammar.command
  have hhead : Runs env c place (repeatStep (commandHeadStep inner) []) [] place := by
    apply (Rounds.refl _ _).repeatStep _ h.le_size
    unfold commandHeadStep
    refine (runs_peekAssignment (htoken true)).bind ?_
    rw [if_neg (by simp [tokenAt])]
    exact (isInnerRedirect_runs rfl).bind (Leads.pure _)
  refine hhead.bind ((runs_peek (htoken false)).bind ?_)
  refine (Word.runs_literal inner _ hmode hdepth h.parts.parts hends).2.bind ?_
  have hname : Runs env c ((Phrase.leaf .word name.text glued).stop place)
      (node .commandName [(Phrase.leaf .word name.text glued).nodeAt place])
      ((Phrase.node .commandName [.leaf .word name.text glued]).nodeAt place)
      ((Phrase.leaf .word name.text glued).stop place) := leads_node (by simp) (by simp)
  refine hname.bind ((harguments _).bind ?_)
  rw [Phrase.stop_commandOf]
  exact leads_node (by simp) (by simp)

/-! ### Statements -/

theorem compoundOf?_eq_none (hmem : text ∉ Keyword.all) : compoundOf? inner text = none := by
  unfold compoundOf?
  split
  all_goals first
    | rfl
    | exact absurd (by decide) hmem

theorem runs_plainFunction?_none {name : CommandName} {arguments : List Phrase}
    (hmode : c.mode = .command)
    (h : Written env.source place (.commandOf name glued arguments :: ps) rest)
    (hends : EndsName env.source ((Phrase.leaf .word name.text glued).stop place)
      (arguments ++ ps) rest) :
    Runs env c place (plainFunction? inner) none place := by
  obtain ⟨hword, tok, hnext, _, hoperator⟩ := hends
  have htoken := comes_word (a := true) (s := true) h.parts.parts name.isPlainWord hword
  rw [← hmode] at hnext htoken
  unfold plainFunction?
  refine (runs_attempt_none (q := (Phrase.leaf .word name.text glued).stop place) ?_).bind
    (Leads.pure _)
  unfold functionHead?
  refine (runs_peekStatement htoken).bind (leads_leafAt.bind ((runs_peekPlain hnext).bind ?_))
  rw [hoperator, if_neg Bool.false_ne_true]
  exact Leads.pure _

/-- A name opens a definition or a simple command. -/
theorem wordStatement_name (name : CommandName) :
    wordStatement inner name.text = (do
      match ← plainFunction? inner with
      | some definition => return some definition
      | none => return some (← command inner)) := by
  -- All texts that open something else are keywords.
  have hnone : ∀ texts : List String, (∀ text ∈ texts, text ∈ Keyword.all) →
      texts.contains name.text = false := by
    intro texts hsubset
    simp only [List.contains_eq_mem, decide_eq_false_iff_not]
    exact fun hmem => name.notMem (hsubset _ hmem)
  have hne : ∀ text ∈ Keyword.all, name.text ≠ text := by
    rintro text hmem rfl
    exact name.notMem hmem
  unfold wordStatement
  rw [compoundOf?_eq_none name.notMem]
  dsimp only
  rw [if_neg (hne _ (by decide)), if_neg (hne _ (by decide)), hnone _ (by decide),
    hnone _ (by decide), hnone _ (by decide)]
  rfl

theorem opensGluedFragment_eq_false {cs : List Char} (h : EndsWord cs) :
    opensGluedFragment cs = false := by
  cases cs with
  | nil => rfl
  | cons d cs =>
    have hends : Trivia.endsWord d := h d rfl
    have hnot : ∀ d ∈ ['"', '\'', '\x60', '$'], Trivia.endsWord d = false := by decide
    have hmem : d ∉ ['"', '\'', '\x60', '$'] := by
      intro hmem
      rw [hnot d hmem] at hends
      cases hends
    simp only [List.mem_cons, List.not_mem_nil, or_false, not_or] at hmem
    simp [opensGluedFragment, hmem]

theorem isBareWord_of_written {kind : NodeKind}
    (h : Written env.source place (.leaf kind text glued :: ps) rest)
    (hends : EndsWord (following ((Phrase.leaf kind text glued).stop place) ps rest)) :
    isBareWord env.source (tokenAt place .word text glued) = true := by
  have htail : env.source.tail? (tokenAt place .word text glued).span.stop =
      some (following ((Phrase.leaf kind text glued).stop place) ps rest) := by
    rw [tokenAt_stop]
    exact h.tail
  unfold isBareWord
  rw [htail, Option.getD_some, opensGluedFragment_eq_false hends]
  rfl

/-- A statement that is a command of a plain name. Its arguments are read two nesting levels deep. -/
theorem runs_commandStatement {name : CommandName} {arguments : List Phrase}
    (hmode : c.mode = .command) (hdepth : c.depth + 1 < env.options.maxDepth)
    (h : Written env.source place (.commandOf name glued arguments :: ps) rest)
    (hends : EndsName env.source ((Phrase.leaf .word name.text glued).stop place)
      (arguments ++ ps) rest)
    (harguments : ∀ parts, Runs env c.deeper ((Phrase.leaf .word name.text glued).stop place)
      (repeatStep (argumentStep inner) parts)
      (parts ++ Phrase.nodesAt ((Phrase.leaf .word name.text glued).stop place) arguments)
      (Phrase.stopAll ((Phrase.leaf .word name.text glued).stop place) arguments)) :
    Runs env c place (primaryStatement inner)
      (some ((Phrase.commandOf name glued arguments).nodeAt place))
      ((Phrase.commandOf name glued arguments).stop place) := by
  have hname : Written env.source place (.leaf .word name.text glued :: (arguments ++ ps)) rest :=
    h.parts.parts
  have htoken := comes_word (a := true) (s := true) hname name.isPlainWord hends.endsWord
  have hmode' : c.deeper.mode = .command := hmode
  rw [← hmode'] at htoken
  apply runs_nest (Nat.lt_of_succ_lt hdepth)
  unfold primaryBody
  refine (runs_peekStatement htoken).bind ?_
  refine leads_source.bind ?_
  rw [isBareWord_of_written hname hends.endsWord, if_pos rfl]
  rw [show (tokenAt place .word name.text glued).text = name.text from rfl, wordStatement_name]
  exact (runs_plainFunction?_none hmode' h hends).bind
    ((runs_commandOf hmode' hdepth h hends harguments).map some)

theorem runs_namedStatement {name : CommandName} {arguments : List Phrase}
    (hmode : c.mode = .command) (hdepth : c.depth + 1 < env.options.maxDepth)
    (h : Written env.source place (.namedCommand name arguments :: ps) rest)
    (hends : EndsName env.source (name.phrase.stop place) (arguments ++ ps) rest)
    (harguments : ∀ parts, Runs env c.deeper (name.phrase.stop place)
      (repeatStep (argumentStep inner) parts)
      (parts ++ Phrase.nodesAt (name.phrase.stop place) arguments)
      (Phrase.stopAll (name.phrase.stop place) arguments)) :
    Runs env c place (primaryStatement inner)
      (some ((Phrase.namedCommand name arguments).nodeAt place))
      ((Phrase.namedCommand name arguments).stop place) :=
  runs_commandStatement hmode hdepth h hends harguments

/-! ### Simple commands -/

theorem SimpleCommand.endsName {command : SimpleCommand}
    (h : Written env.source place (command.phrase :: ps) rest)
    (hends : EndsCommand env.source (command.phrase.stop place) ps rest) :
    EndsName env.source (command.name.phrase.stop place)
      (command.arguments.map Word.phrase ++ ps) rest := by
  rw [SimpleCommand.phrase, Phrase.stop_namedCommand] at hends
  exact endsName_words (command.name.stop_ne_zero place) h.parts.parts.tail hends

theorem comes_command {a s : Bool} {command : SimpleCommand}
    (h : Written env.source place (command.phrase :: ps) rest)
    (hends : EndsCommand env.source (command.phrase.stop place) ps rest) :
    Comes env.source place .command { assignment := a, statementStart := s }
      (tokenAt place .word command.name.text false) :=
  comes_word h.parts.parts command.name.isPlainWord (SimpleCommand.endsName h hends).endsWord

theorem runs_primaryStatement {command : SimpleCommand} (hmode : c.mode = .command)
    (hdepth : c.depth + 1 < env.options.maxDepth)
    (h : Written env.source place (command.phrase :: ps) rest)
    (hends : EndsCommand env.source (command.phrase.stop place) ps rest) :
    Runs env c place (primaryStatement inner) (some (command.phrase.nodeAt place))
      (command.phrase.stop place) := by
  refine runs_namedStatement hmode hdepth h (SimpleCommand.endsName h hends) fun parts => ?_
  rw [SimpleCommand.phrase, Phrase.stop_namedCommand] at hends
  have hmode' : c.deeper.mode = .command := hmode
  exact runs_arguments hmode' hdepth h.parts.parts.tail hends parts

end Grammar

end ShellTree
