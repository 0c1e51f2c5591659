import ShellTree.Proofs.Written.Compound

/-!
This module contains if statements and case statements as statements around lists.
-/

namespace ShellTree

/-- A case item with one pattern. -/
def Phrase.caseItem (pattern : Word) (body : List Phrase) : Phrase :=
  .node .caseItem (.token "(" :: pattern.phrase :: .token ")" :: (body ++ [.token ";;"]))

namespace Grammar

open Parse Lexer
open Phrase (Written tokenAt following isGluedAll nodesAt stopAll)

variable {env : Env} {c : Setting} {level start place : Nat} {ps : List Phrase} {rest : List Char}
variable {condition body clauses items : List Phrase}

/-! ### If statements -/

/-- The phrases are read as the clauses of an if statement after its first list. -/
structure AreClauses (env : Env) (clauses : List Phrase) : Prop where
  ends : ∀ {place ps rest}, place ≠ 0 →
    Written env.source place (clauses ++ .token "fi" :: ps) rest →
    EndsWord (following ((Phrase.token "fi").stop (stopAll place clauses)) ps rest) →
    EndsList env.source {} place (clauses ++ .token "fi" :: ps) rest
  rounds : ∀ {c level start place ps rest}, Ample env c level start → start < place →
    Written env.source place (clauses ++ .token "fi" :: ps) rest →
    EndsWord (following ((Phrase.token "fi").stop (stopAll place clauses)) ps rest) →
    ∀ nodes, Rounds env c.deeper (alternativeStep (nested level)) place nodes
      (stopAll place clauses) (nodes ++ nodesAt place clauses)

theorem AreClauses.nil : AreClauses env [] where
  ends hplace h hends := endsList_keyword (by decide) hplace h hends
  rounds {_ _ _ place _ _} _ _ _ _ nodes := by simpa using .refl place nodes

theorem runs_elseClause (hbody : IsList env body) (hample : Ample env c level start)
    (hlt : start < place)
    (h : Written env.source place (.node .elseClause (.token "else" :: body) :: ps) rest)
    (hends : EndsList env.source {}
      ((Phrase.node .elseClause (.token "else" :: body)).stop place) ps rest) :
    Runs env c.deeper place (elseClause (nested level) (tokenAt place .word "else" false))
      ((Phrase.node .elseClause (.token "else" :: body)).nodeAt place)
      ((Phrase.node .elseClause (.token "else" :: body)).stop place) := by
  have hplace : start < (Phrase.token "else").stop place :=
    Nat.lt_trans hlt (lt_stop_keyword (by decide))
  rw [Phrase.stop_node, Phrase.stopAll_cons] at hends ⊢
  unfold elseClause
  refine (leads_keywordLeaf (by decide)).bind ?_
  refine (hbody.runs hample hplace rfl h.parts.tail hends).bind ?_
  exact leads_node (by simp) (by simp [Phrase.token])

theorem runs_elifClause (hcondition : IsList env condition) (hbody : IsList env body)
    (hample : Ample env c level start) (hlt : start < place)
    (h : Written env.source place
      (.node .elifClause (.token "elif" :: (condition ++ .token "then" :: body)) :: ps) rest)
    (hends : EndsList env.source {} ((Phrase.node .elifClause
      (.token "elif" :: (condition ++ .token "then" :: body))).stop place) ps rest) :
    Runs env c.deeper place (elifClause (nested level) (tokenAt place .word "elif" false))
      ((Phrase.node .elifClause
        (.token "elif" :: (condition ++ .token "then" :: body))).nodeAt place)
      ((Phrase.node .elifClause
        (.token "elif" :: (condition ++ .token "then" :: body))).stop place) := by
  have hplace : start < (Phrase.token "elif").stop place :=
    Nat.lt_trans hlt (lt_stop_keyword (by decide))
  have hlist : Written env.source ((Phrase.token "elif").stop place)
      (condition ++ .token "then" :: (body ++ ps)) rest := by simpa using h.parts.tail
  have hle := Phrase.le_stopAll ((Phrase.token "elif").stop place) (condition ++ [.token "then"])
  have hword {place} : EndsWord (following ((Phrase.token "then").stop place) (body ++ ps) rest) :=
    hbody.endsWord (by decide)
  simp only [Phrase.stop_node, Phrase.stopAll_cons, Phrase.stopAll_append,
    Phrase.stopAll_nil] at hends hle ⊢
  unfold elifClause
  refine (leads_keywordLeaf (by decide)).bind ?_
  refine (hcondition.runs_keyword hample hplace (by decide) hlist hword).bind ?_
  refine (runs_expectKeyword hample.deeper_mode (by decide) (by decide) hlist.drop hword).bind ?_
  refine (hbody.runs hample (Nat.lt_of_lt_of_le hplace hle) rfl hlist.drop.tail hends).bind ?_
  exact leads_node (by simp) (by simp [Phrase.token])

/-- An else clause is the last one. -/
theorem AreClauses.otherwise (hbody : IsList env body) :
    AreClauses env [.node .elseClause (.token "else" :: body)] := by
  refine ⟨fun hplace h _ => (endsList_keyword (by decide) hplace h.parts
      (hbody.endsWord (by decide))).node,
    fun {c level start place ps rest} hample hlt h hends nodes => ?_⟩
  have hword : EndsWord (following ((Phrase.token "else").stop place)
    (body ++ .token "fi" :: ps) rest) := hbody.endsWord (by decide)
  have hcomes := comes_keyword (a := true) (s := true) (by decide) (by decide) h.parts hword
  have hlt' : place < (Phrase.node .elseClause (.token "else" :: body)).stop place :=
    ((isSpaced_keyword (by decide)).node body).lt_stop place
  rw [Phrase.stopAll_cons, Phrase.stopAll_nil] at hends ⊢
  have hclause := runs_elseClause hbody hample hlt h
    (endsList_keyword (by decide) (Nat.ne_of_gt (Nat.zero_lt_of_lt hlt')) h.tail hends)
  rw [← hample.deeper_mode] at hcomes
  rw [Phrase.nodesAt_cons, Phrase.nodesAt_nil]
  refine .single ?_ hlt'
  unfold alternativeStep
  refine (runs_peekStatement hcomes).bind (leads_source.bind ?_)
  rw [isKeyword_of_written "elif" h.parts hword, if_neg (by decide)]
  refine leads_source.bind ?_
  rw [isKeyword_of_written "else" h.parts hword, if_pos (by decide)]
  exact hclause.map _

theorem AreClauses.elif (hcondition : IsList env condition) (hbody : IsList env body)
    (hclauses : AreClauses env clauses) :
    AreClauses env
      (.node .elifClause (.token "elif" :: (condition ++ .token "then" :: body)) :: clauses) := by
  have hword {place ps rest} : EndsWord (following ((Phrase.token "elif").stop place)
      (condition ++ .token "then" :: body ++ ps) rest) := by
    rw [List.append_assoc]
    exact hcondition.endsWord (by decide)
  refine ⟨fun hplace h _ => (endsList_keyword (by decide) hplace h.parts hword).node,
    fun {c level start place ps rest} hample hlt h hends nodes => ?_⟩
  have hcomes := comes_keyword (a := true) (s := true) (by decide) (by decide) h.parts hword
  have hlt' : place < (Phrase.node .elifClause
      (.token "elif" :: (condition ++ .token "then" :: body))).stop place :=
    ((isSpaced_keyword (by decide)).node _).lt_stop place
  rw [Phrase.stopAll_cons] at hends ⊢
  have hclause := runs_elifClause hcondition hbody hample hlt h
    (hclauses.ends (Nat.ne_of_gt (Nat.zero_lt_of_lt hlt')) h.tail hends)
  have hmore := hclauses.rounds hample (Nat.lt_trans hlt hlt') h.tail hends
    (nodes ++ [(Phrase.node .elifClause
      (.token "elif" :: (condition ++ .token "then" :: body))).nodeAt place])
  rw [List.append_assoc, List.singleton_append] at hmore
  rw [← hample.deeper_mode] at hcomes
  rw [Phrase.nodesAt_cons]
  refine .head ?_ hlt' hmore
  unfold alternativeStep
  refine (runs_peekStatement hcomes).bind (leads_source.bind ?_)
  rw [isKeyword_of_written "elif" h.parts hword, if_pos (by decide)]
  exact hclause.map _

theorem runs_alternatives (hclauses : AreClauses env clauses) (hample : Ample env c level start)
    (hlt : start < place) (h : Written env.source place (clauses ++ .token "fi" :: ps) rest)
    (hends : EndsWord (following ((Phrase.token "fi").stop (stopAll place clauses)) ps rest)) :
    Runs env c.deeper place (repeatStep (alternativeStep (nested level)) [])
      (nodesAt place clauses) (stopAll place clauses) := by
  have hcomes := comes_keyword (a := true) (s := true) (by decide) (by decide) h.drop hends
  rw [← hample.deeper_mode] at hcomes
  apply (hclauses.rounds hample hlt h hends []).repeatStep _ h.drop.le_size
  unfold alternativeStep
  refine (runs_peekStatement hcomes).bind (leads_source.bind ?_)
  rw [isKeyword_of_written "elif" h.drop hends, if_neg (by decide)]
  refine leads_source.bind ?_
  rw [isKeyword_of_written "else" h.drop hends, if_neg (by decide)]
  exact Leads.pure _

theorem IsStatement.conditional (hcondition : IsList env condition) (hbody : IsList env body)
    (hclauses : AreClauses env clauses) :
    IsStatement env (.node .ifStatement (.token "if" :: (condition ++
      .token "then" :: (body ++ (clauses ++ [.token "fi"]))))) := by
  refine .of_keyword ifStatement (fun _ => rfl) (by decide) (by decide) (by decide)
    (Phrase.isGluedAll_append hcondition.spaced _)
    fun {c level place ps rest} hample hcomes h hends => ?_
  have hlist : Written env.source ((Phrase.token "if").stop place) (condition ++
      .token "then" :: (body ++ (clauses ++ .token "fi" :: ps))) rest := by
    simpa using h.parts.tail
  have hthen := hlist.drop
  have hrest := hthen.tail.drop
  have hword {place} : EndsWord (following ((Phrase.token "then").stop place)
    (body ++ (clauses ++ .token "fi" :: ps)) rest) := hbody.endsWord (by decide)
  have hif : place < (Phrase.token "if").stop place := lt_stop_keyword (by decide)
  have hle := Phrase.le_stopAll ((Phrase.token "if").stop place) (condition ++ [.token "then"])
  have hle' := Phrase.le_stopAll ((Phrase.token "if").stop place)
    (condition ++ .token "then" :: body)
  simp only [Phrase.stop_node, Phrase.stopAll_cons, Phrase.stopAll_append,
    Phrase.stopAll_nil] at hends hle hle' ⊢
  have hbodyEnds := hclauses.ends (by omega) hrest hends.endsWord
  unfold ifStatement
  refine (runs_peekStatement hcomes).bind ((leads_keywordLeaf (by decide)).bind ?_)
  refine (hcondition.runs_keyword hample hif (by decide) hlist hword).bind ?_
  refine (runs_expectKeyword hample.deeper_mode (by decide) (by decide) hthen hword).bind ?_
  refine (hbody.runs hample (by omega) rfl hthen.tail hbodyEnds).bind ?_
  refine (runs_alternatives hclauses hample (by omega) hrest hends.endsWord).bind ?_
  refine (runs_expectKeyword hample.deeper_mode (by decide) (by decide) hrest.drop
    hends.endsWord).bind ?_
  exact leads_node (by simp) (by simp [Phrase.token])

/-! ### Case statements -/

/-- The phrases are read as the items of a case statement. -/
structure AreItems (env : Env) (items : List Phrase) : Prop where
  spaced : ∀ ps, isGluedAll (items ++ .token "esac" :: ps) = false
  next : ∀ {place ps rest}, Written env.source place (items ++ .token "esac" :: ps) rest →
    EndsWord (following ((Phrase.token "esac").stop (stopAll place items)) ps rest) →
    ∃ tok, Comes env.source place .command {} tok ∧ tok.kind ≠ .newline
  rounds : ∀ {c level start place ps rest}, Ample env c level start → start < place →
    Written env.source place (items ++ .token "esac" :: ps) rest →
    EndsWord (following ((Phrase.token "esac").stop (stopAll place items)) ps rest) →
    ∀ nodes, Rounds env c.deeper (caseItemStep (nested level)) place nodes
      (stopAll place items) (nodes ++ nodesAt place items)

theorem AreItems.nil : AreItems env [] where
  spaced _ := rfl
  next h hends := ⟨_, comes_keyword (by decide) (by decide) h hends, nofun⟩
  rounds {_ _ _ place _ _} _ _ _ _ nodes := by simpa using .refl place nodes

/-- A pattern ends at its parenthesis. -/
theorem runs_patterns {pattern : Word} (hmode : c.mode = .command)
    (hdepth : c.depth < env.options.maxDepth)
    (h : Written env.source place (pattern.phrase :: .token ")" :: ps) rest)
    (hparted : Parted (following ((Phrase.token ")").stop (pattern.phrase.stop place)) ps rest)) :
    Runs env c place (repeatStep (patternStep (nested level)) [])
      [pattern.phrase.nodeAt place] (pattern.phrase.stop place) := by
  have hends : EndsStatement .command env.source (pattern.phrase.stop place)
      (.token ")" :: ps) rest :=
    endsStatement_of_separator (by decide) nofun h.tail hparted.endsOperator
  obtain ⟨hpattern, hliteral⟩ :=
    Word.runs_literal (nested level) pattern hmode hdepth h hends.endsName
  have hbar := comes_separator (a := false) (s := false) (by decide) h.tail hparted.endsOperator
  rw [← hmode] at hbar
  have hstep : Runs env c place (patternStep (nested level) [])
      (.done [pattern.phrase.nodeAt place]) (pattern.phrase.stop place) := by
    unfold patternStep
    refine (runs_peek hpattern).bind (hliteral.bind ?_)
    exact (runs_acceptOperator_none hbar rfl).bind (Leads.pure _)
  exact (Rounds.refl _ _).repeatStep hstep h.le_size

theorem runs_caseItemBody (hbody : IsList env body) (hample : Ample env c level start)
    (hlt : start < place) (h : Written env.source place (body ++ .token ";;" :: ps) rest)
    (hparted : Parted (following ((Phrase.token ";;").stop (stopAll place body)) ps rest)) :
    Runs env c.deeper place (caseItemBody (nested level))
      (nodesAt place (body ++ [.token ";;"])) (stopAll place (body ++ [.token ";;"])) := by
  have hle := Phrase.le_stopAll place body
  have hclose := comes_separator (a := false) (s := false) (by decide) h.drop
    hparted.endsOperator
  have hends : EndsList env.source { inCaseItem := true } (stopAll place body)
      (.token ";;" :: ps) rest :=
    endsList_operator (.inr ⟨rfl, rfl⟩) (by omega) h.drop hparted.endsOperator
  rw [← hample.deeper_mode] at hclose
  unfold caseItemBody
  refine (hbody.runs hample hlt rfl h hends).bind ?_
  refine (runs_peek hclose).bind ?_
  rw [if_pos (by simp [Token.isOneOf, tokenAt, Operator.caseTerminators])]
  simp only [Phrase.nodesAt_append, Phrase.stopAll_append, Phrase.nodesAt_cons, Phrase.nodesAt_nil,
    Phrase.stopAll_cons, Phrase.stopAll_nil]
  exact (leads_tokenLeaf _ rfl (by simp)).map _

theorem comes_caseItem {a s : Bool} {pattern : Word}
    (h : Written env.source place (.caseItem pattern body :: ps) rest) :
    Comes env.source place .command { assignment := a, statementStart := s }
      (tokenAt place (.operator "(") "(" false) :=
  comes_operator h.parts (by decide) (by decide) (parted_following
    (Nat.ne_of_gt (Nat.zero_lt_of_lt (Phrase.lt_stop_leaf (by decide)))) rfl).endsOperator

theorem runs_caseItem {pattern : Word} (hbody : IsList env body) (hample : Ample env c level start)
    (hlt : start < place) (h : Written env.source place (.caseItem pattern body :: ps) rest)
    (hparted : Parted (following ((Phrase.caseItem pattern body).stop place) ps rest)) :
    Runs env c.deeper place (caseItem (nested level))
      (some ((Phrase.caseItem pattern body).nodeAt place))
      ((Phrase.caseItem pattern body).stop place) := by
  have hopen := comes_caseItem (a := false) (s := false) h
  have hparts : Written env.source place (.token "(" :: pattern.phrase :: .token ")" ::
    (body ++ .token ";;" :: ps)) rest := by simpa [Phrase.caseItem] using h.parts
  have hspaced {place} : Parted (following ((Phrase.token ")").stop place)
      (body ++ .token ";;" :: ps) rest) :=
    parted_phrases (stop_separator_ne_zero (by decide))
      (Phrase.isGluedAll_append hbody.spaced _)
  have hclose := comes_separator (a := false) (s := false) (by decide) hparts.tail.tail
    hspaced.endsOperator
  have hlt' : place < (Phrase.token "(").stop place := Phrase.lt_stop_leaf (by decide)
  have hdepth : c.deeper.depth < env.options.maxDepth := 
    hample.succ_depth_lt (Nat.lt_of_lt_of_le (Nat.lt_trans hlt hlt') hparts.tail.le_size)
  have hle := Phrase.le_stopAll place [.token "(", pattern.phrase, .token ")"]
  simp only [Phrase.caseItem, Phrase.stop_node, Phrase.stopAll_cons, Phrase.stopAll_append,
    Phrase.stopAll_nil] at hparted hle ⊢
  rw [← hample.deeper_mode] at hopen hclose
  unfold caseItem
  refine (runs_peek hopen).bind ((runs_acceptOperator hopen).bind ?_)
  refine (runs_patterns hample.deeper_mode hdepth hparts.tail hspaced).bind ?_
  dsimp only [List.append, List.isEmpty]
  rw [if_neg (by simp)]
  refine (runs_expectOperator hclose).bind ?_
  rw [if_neg (by simp)]
  refine (runs_caseItemBody hbody hample (by omega) hparts.tail.tail.tail
    (by simpa using hparted)).bind ?_
  simp only [Phrase.stopAll_append, Phrase.stopAll_cons, Phrase.stopAll_nil]
  exact (leads_node (by simp) (by simp [Phrase.token])).map some

theorem AreItems.cons (pattern : Word) (hbody : IsList env body) (hitems : AreItems env items) :
    AreItems env (.caseItem pattern body :: items) where
  spaced _ := rfl
  next h _ := ⟨_, comes_caseItem h, nofun⟩
  rounds {c level start place ps rest} hample hlt h hends nodes := by
    have hcomes := comes_caseItem (a := true) (s := true) h
    have hlt' : place < (Phrase.caseItem pattern body).stop place := by
      rw [Phrase.caseItem, Phrase.stop_node, Phrase.stopAll_cons]
      exact Nat.lt_of_lt_of_le (Phrase.lt_stop_leaf (by decide)) (Phrase.le_stopAll _ _)
    rw [Phrase.stopAll_cons] at hends ⊢
    obtain ⟨tok, hnext, hkind⟩ := hitems.next h.tail hends
    have hitem := runs_caseItem hbody hample hlt h
      (parted_phrases (Nat.ne_of_gt (Nat.zero_lt_of_lt hlt')) (hitems.spaced ps))
    have hmore := hitems.rounds hample (Nat.lt_trans hlt hlt') h.tail hends
      (nodes ++ [(Phrase.caseItem pattern body).nodeAt place])
    rw [List.append_assoc, List.singleton_append] at hmore
    rw [← hample.deeper_mode] at hcomes hnext
    rw [Phrase.nodesAt_cons]
    refine .head ?_ hlt' hmore
    unfold caseItemStep
    refine (runs_peekStatement hcomes).bind (leads_source.bind (leads_isHalted.bind ?_))
    rw [if_neg (by simp [Token.isEof, isKeyword, isBareWord, tokenAt])]
    refine leads_position.bind (hitem.bind ?_)
    refine (runs_lineBreaks_nil hnext hkind h.tail.le_size).bind (leads_position.bind ?_)
    rw [if_neg (Nat.ne_of_gt hlt'), Option.toList_some, List.append_nil]
    exact Leads.pure _

theorem runs_caseItems (hitems : AreItems env items) (hample : Ample env c level start)
    (hlt : start < place) (h : Written env.source place (items ++ .token "esac" :: ps) rest)
    (hends : EndsWord (following ((Phrase.token "esac").stop (stopAll place items)) ps rest)) :
    Runs env c.deeper place (repeatStep (caseItemStep (nested level)) [])
      (nodesAt place items) (stopAll place items) := by
  have hcomes := comes_keyword (a := true) (s := true) (by decide) (by decide) h.drop hends
  rw [← hample.deeper_mode] at hcomes
  apply (hitems.rounds hample hlt h hends []).repeatStep _ h.drop.le_size
  unfold caseItemStep
  refine (runs_peekStatement hcomes).bind (leads_source.bind (leads_isHalted.bind ?_))
  rw [isKeyword_of_written "esac" h.drop hends, if_pos (by simp)]
  exact Leads.pure _

/-- A subject is a word before the keyword. -/
theorem runs_caseSubject {subject : Word} (hmode : c.mode = .command)
    (hdepth : c.depth < env.options.maxDepth)
    (h : Written env.source place (subject.phrase :: .token "in" :: ps) rest)
    (hword : EndsWord (following ((Phrase.token "in").stop (subject.phrase.stop place)) ps rest)) :
    Runs env c place (caseSubject (nested level)) [subject.phrase.nodeAt place]
      (subject.phrase.stop place) := by
  have hstop := subject.stop_ne_zero place
  have hkeyword := comes_keyword (a := false) (s := false) (by decide) (by decide) h.tail hword
  have hends : EndsName env.source (subject.phrase.stop place) (.token "in" :: ps) rest :=
    ⟨(parted_following hstop rfl).endsWord, _, hkeyword,
      by rw [tokenAt_adjacent hstop, Bool.false_and], rfl⟩
  obtain ⟨hsubject, hliteral⟩ := Word.runs_literal (nested level) subject hmode hdepth h hends
  unfold caseSubject
  refine (runs_peek hsubject).bind ?_
  exact hliteral.bind (Leads.pure _)

theorem IsStatement.choice (subject : Word) (hitems : AreItems env items) :
    IsStatement env (.node .caseStatement (.token "case" :: subject.phrase ::
      .token "in" :: (items ++ [.token "esac"]))) := by
  refine .of_keyword caseStatement (fun _ => rfl) (by decide) (by decide) (by decide) rfl
    fun {c level place ps rest} hample hcomes h hends => ?_
  have hsubject : Written env.source ((Phrase.token "case").stop place) (subject.phrase ::
      .token "in" :: (items ++ .token "esac" :: ps)) rest := by simpa using h.parts.tail
  have hin := hsubject.tail
  have hlt : place < (Phrase.token "case").stop place := lt_stop_keyword (by decide)
  have hle := Phrase.le_stopAll ((Phrase.token "case").stop place) [subject.phrase, .token "in"]
  have hword {place} : EndsWord (following ((Phrase.token "in").stop place)
      (items ++ .token "esac" :: ps) rest) :=
    (parted_phrases (stop_keyword_ne_zero (by decide)) (hitems.spaced ps)).endsWord
  simp only [Phrase.stop_node, Phrase.stopAll_cons, Phrase.stopAll_append,
    Phrase.stopAll_nil] at hends hle ⊢
  have hkeyword := comes_keyword (a := false) (s := false) (by decide) (by decide) hin hword
  obtain ⟨tok, hnext, hkind⟩ := hitems.next hin.tail hends.endsWord
  have hdepth : c.deeper.depth < env.options.maxDepth :=
    hample.succ_depth_lt (Nat.lt_of_lt_of_le hlt hsubject.le_size)
  rw [← hample.deeper_mode] at hkeyword hnext
  unfold caseStatement
  refine (runs_peekStatement hcomes).bind ((leads_keywordLeaf (by decide)).bind ?_)
  refine (runs_caseSubject hample.deeper_mode hdepth hsubject hword).bind ?_
  refine (runs_acceptOperator_none hkeyword rfl).bind ?_
  refine (runs_lineBreaks_nil hkeyword nofun hin.le_size).bind ?_
  refine (runs_expectKeyword hample.deeper_mode (by decide) (by decide) hin hword).bind ?_
  refine (runs_lineBreaks_nil hnext hkind hin.tail.le_size).bind ?_
  refine (runs_caseItems hitems hample (by omega) hin.tail hends.endsWord).bind ?_
  refine (runs_expectKeyword hample.deeper_mode (by decide) (by decide) hin.tail.drop
    hends.endsWord).bind ?_
  exact leads_node (by simp) (by simp [Phrase.token])

end Grammar

end ShellTree
