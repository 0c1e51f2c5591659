import ShellTree.Proofs.Written.Conditional

/-!
This module contains trees of commands and lists of commands in each other. They are read as they
are written, however deep they are.
-/

namespace ShellTree

mutual

inductive CommandTree where
  | simple (command : SimpleCommand)
  | conditional (condition body : CommandList) (clauses : Clauses)
  | loop (keyword : LoopKeyword) (condition body : CommandList)
  | forLoop (name : Word) (words : List Word) (body : CommandList)
  | choice (subject : Word) (items : CaseItems)
  | group (body : CommandList)
  | subshell (body : CommandList)
  /-- The closing parenthesis after the name stands right behind the opening one if it is glued. -/
  | definition (name : CommandName) (glued : Bool) (body : CommandList)

/-- Commands with a semicolon after each. -/
inductive CommandList where
  | last (command : CommandTree)
  | cons (command : CommandTree) (commands : CommandList)

/-- What follows the first list of an if statement. -/
inductive Clauses where
  | none
  | otherwise (body : CommandList)
  | elif (condition body : CommandList) (clauses : Clauses)

inductive CaseItems where
  | nil
  | cons (pattern : Word) (body : CommandList) (items : CaseItems)

end

mutual

def CommandTree.phrase : CommandTree → Phrase
  | .simple command => command.phrase
  | .conditional condition body clauses =>
    .node .ifStatement (.token "if" :: (condition.phrases ++
      .token "then" :: (body.phrases ++ (clauses.phrases ++ [.token "fi"]))))
  | .loop keyword condition body =>
    .node .whileStatement (.token keyword.text :: (condition.phrases ++
      [.enclosed .doGroup "do" body.phrases "done"]))
  | .forLoop name words body =>
    .node .forStatement (.token "for" :: .leaf .variableName name.text false :: .token "in" ::
      (words.map Word.phrase ++ [.token ";", .enclosed .doGroup "do" body.phrases "done"]))
  | .choice subject items =>
    .node .caseStatement (.token "case" :: subject.phrase :: .token "in" ::
      (items.phrases ++ [.token "esac"]))
  | .group body => .enclosed .compoundStatement "\x7b" body.phrases "\x7d"
  | .subshell body => .enclosed .subshell "(" body.phrases ")"
  | .definition name glued body =>
    .node .functionDefinition [name.phrase, .token "(", .leaf (.token ")") ")" glued,
      .enclosed .compoundStatement "\x7b" body.phrases "\x7d"]

def CommandList.phrases : CommandList → List Phrase
  | .last command => [command.phrase, Terminator.semicolon.phrase false]
  | .cons command commands =>
    command.phrase :: Terminator.semicolon.phrase false :: commands.phrases

def Clauses.phrases : Clauses → List Phrase
  | .none => []
  | .otherwise body => [.node .elseClause (.token "else" :: body.phrases)]
  | .elif condition body clauses =>
    .node .elifClause (.token "elif" :: (condition.phrases ++ .token "then" :: body.phrases)) ::
      clauses.phrases

def CaseItems.phrases : CaseItems → List Phrase
  | .nil => []
  | .cons pattern body items => .caseItem pattern body.phrases :: items.phrases

end

def CommandTree.text (command : CommandTree) : String := Phrase.text [command.phrase] []

namespace Grammar

open Parse

variable {env : Env}

mutual

theorem isStatement_tree : (command : CommandTree) → IsStatement env command.phrase
  | .simple command => .simple command
  | .conditional condition body clauses =>
    .conditional (isList_commands condition) (isList_commands body) (areClauses_clauses clauses)
  | .loop keyword condition body =>
    .loop keyword (isList_commands condition) (isList_commands body)
  | .forLoop name words body => .forLoop name words (isList_commands body)
  | .choice subject items => .choice subject (areItems_items items)
  | .group body => .group (isList_commands body)
  | .subshell body => .subshell (isList_commands body)
  | .definition name glued body => .definition name glued (isList_commands body)

theorem isList_commands : (commands : CommandList) → IsList env commands.phrases
  | .last command => .single (isStatement_tree command)
  | .cons command commands => .cons (isStatement_tree command) (isList_commands commands)

theorem areClauses_clauses : (clauses : Clauses) → AreClauses env clauses.phrases
  | .none => .nil
  | .otherwise body => .otherwise (isList_commands body)
  | .elif condition body clauses =>
    .elif (isList_commands condition) (isList_commands body) (areClauses_clauses clauses)

theorem areItems_items : (items : CaseItems) → AreItems env items.phrases
  | .nil => .nil
  | .cons pattern body items => .cons pattern (isList_commands body) (areItems_items items)

end

/-- A statement is a script by itself. -/
theorem IsStatement.runs_script {p : Phrase} {ctx : ListContext} (hp : IsStatement env p)
    (henv : env.Unlimited) (hsize : 2 * env.source.size ≤ env.options.maxDepth)
    (h : Phrase.Written env.source 0 [p] []) :
    Runs env {} 0 (statements (nested (env.source.size + 1)) ctx) (Phrase.nodesAt 0 [p])
      (p.stop 0) := by
  have hends : EndsStatement .list env.source (p.stop 0) [] [] :=
    endsStatement_end h.tail (.inl rfl)
  have hapart : EndsApart env.source (p.stop 0) [] [] := ⟨hends.toEndsCommand, nofun⟩
  have hample : Ample env {} (env.source.size + 1) 0 :=
    ⟨⟨by omega, Nat.le_refl 0, by omega⟩, henv, rfl, hsize⟩
  obtain ⟨tok, hcomes, heof, hnewline, hopen⟩ := hp.starts h hapart
  have hstatement := runs_statement rfl (hp.runs hample h hapart) hends h.tail.le_size
  have hlast : Runs env {} 0 (listStep (nested (env.source.size + 1)) ctx []) _ (p.stop 0) :=
    runs_listStep_item henv rfl ⟨tok, hcomes, heof, hnewline, hopen ctx⟩
      (runs_lastItem hstatement h [])
  rw [Phrase.nodesAt_cons, Phrase.nodesAt_nil]
  exact (Rounds.refl 0 []).repeatStep hlast h.le_size

end Grammar

theorem parse_tree (command : CommandTree) (options : Options)
    (hstatements : options.maxStatements = none)
    (hdepth : 2 * command.text.utf8ByteSize ≤ options.maxDepth) :
    parse (.ofString command.text) options =
      .ok (Phrase.script command.text [command.phrase]) :=
  Grammar.parse_of_runs <| (Grammar.isStatement_tree command).runs_script ⟨hstatements, rfl⟩ hdepth
    (Phrase.written_text [command.phrase] [])

theorem parse_tree_conditional :
    parse (.ofString "if a ; then f () \x7b b ; \x7d ; else ( c fi ; ) ; fi")
        { maxDepth := 100, maxStatements := none } =
      .ok (Phrase.script "if a ; then f () \x7b b ; \x7d ; else ( c fi ; ) ; fi"
        [.node .ifStatement
          [.token "if",
           .node .command [.node .commandName [.word "a"]], .token ";",
           .token "then",
           .node .functionDefinition
            [.word "f", .token "(", .leaf (.token ")") ")" true,
             .node .compoundStatement
              [.token "\x7b",
               .node .command [.node .commandName [.word "b"]], .token ";",
               .token "\x7d"]],
           .token ";",
           .node .elseClause
            [.token "else",
             .node .subshell
              [.token "(",
               .node .command [.node .commandName [.word "c"], .word "fi"], .token ";",
               .token ")"],
             .token ";"],
           .token "fi"]]) := by
  have htext : "if a ; then f () \x7b b ; \x7d ; else ( c fi ; ) ; fi" = CommandTree.text
      (.conditional (.last (.simple ⟨{ text := "a" }, []⟩))
        (.last (.definition { text := "f" } true (.last (.simple ⟨{ text := "b" }, []⟩))))
        (.otherwise
          (.last (.subshell (.last (.simple ⟨{ text := "c" }, [{ text := "fi" }]⟩)))))) := by
    decide +kernel
  rw [htext]
  exact parse_tree _ { maxDepth := 100, maxStatements := none } rfl (by decide)

end ShellTree
