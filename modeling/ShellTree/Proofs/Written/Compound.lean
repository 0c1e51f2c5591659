import ShellTree.Proofs.Written.Keyword

/-!
This module contains what it takes to read phrases as statements and as lists of statements, and
compound commands as statements around lists.
-/

namespace ShellTree

/-- Phrases whose first token is not glued part from what comes before them. -/
theorem Lexer.parted_phrases {place : Nat} {ps : List Phrase} {rest : List Char} (hplace : place ≠ 0)
    (hspaced : Phrase.isGluedAll ps = false) : Parted (Phrase.following place ps rest) := by
  cases ps with
  | nil => cases hspaced
  | cons p ps => exact parted_following hplace hspaced

theorem Phrase.isGluedAll_append {ps : List Phrase} (hspaced : isGluedAll ps = false)
    (qs : List Phrase) : isGluedAll (ps ++ qs) = false := by
  cases ps with
  | nil => cases hspaced
  | cons p ps => exact hspaced

/-- Phrases between two keywords. -/
def Phrase.enclosed (kind : NodeKind) (opener : String) (body : List Phrase) (closer : String) :
    Phrase := .node kind (.token opener :: (body ++ [.token closer]))

inductive LoopKeyword where
  | whileTrue
  | untilTrue
deriving DecidableEq, Repr

def LoopKeyword.text : LoopKeyword → String
  | whileTrue => "while"
  | untilTrue => "until"

namespace Grammar

open Parse Lexer
open Phrase (Written tokenAt following isGluedAll nodesAt stopAll)

variable {env : Env} {c : Setting} {level start place : Nat} {ps : List Phrase} {rest : List Char}

/-- What is left suffices for commands that are written from the place on. -/
structure Ample (env : Env) (c : Setting) (level place : Nat) : Prop
    extends Enough env c level place where
  unlimited : env.Unlimited
  mode_eq : c.mode = .command
  two_mul_size_le : 2 * env.source.size ≤ env.options.maxDepth

namespace Ample

theorem mono (h : Ample env c level start) (hle : start ≤ place) : Ample env c level place :=
  ⟨h.toEnough.mono hle, h.unlimited, h.mode_eq, h.two_mul_size_le⟩

theorem inside (h : Ample env c (level + 1) start) (hlt : start < place) :
    Ample env c.deeper level place :=
  ⟨h.toEnough.deeper hlt, h.unlimited, h.mode_eq, h.two_mul_size_le⟩

theorem deeper_mode (h : Ample env c level place) : c.deeper.mode = .command := h.mode_eq

theorem succ_depth_lt (h : Ample env c level place) (hlt : place < env.source.size) :
    c.depth + 1 < env.options.maxDepth := by
  have hdepth := h.depth_le
  have hmax := h.two_mul_size_le
  omega

end Ample

/-- What comes next is no part of a statement and is parted from it. -/
structure EndsApart (src : Source) (place : Nat) (ps : List Phrase) (rest : List Char) : Prop
    extends EndsCommand src place ps rest where
  parted : Parted (following place ps rest)

/-- The phrase is read as a statement wherever it is written. -/
structure IsStatement (env : Env) (p : Phrase) : Prop extends p.IsSpaced where
  starts : ∀ {place ps rest}, Written env.source place (p :: ps) rest →
    EndsApart env.source (p.stop place) ps rest →
    ∃ tok, Comes env.source place .command { assignment := true, statementStart := true } tok ∧
      tok.isEof = false ∧ tok.kind ≠ .newline ∧ ∀ ctx, endsList env.source ctx tok = false
  runs : ∀ {c level place ps rest}, Ample env c level place →
    Written env.source place (p :: ps) rest → EndsApart env.source (p.stop place) ps rest →
    Runs env c place (primaryStatement (nested level)) (some (p.nodeAt place)) (p.stop place)

/-- The phrases are read as statements of a list wherever they are written. -/
structure IsList (env : Env) (body : List Phrase) : Prop where
  spaced : isGluedAll body = false
  rounds : ∀ {c level place ps rest}, Ample env c level place →
    Written env.source place (body ++ ps) rest → Parted (following (stopAll place body) ps rest) →
    ∀ ctx nodes, Rounds env c (listStep (nested level) ctx) place nodes
      (stopAll place body) (nodes ++ nodesAt place body)

/-! ### Lists -/

section

variable {p : Phrase} {body : List Phrase}

theorem IsStatement.rounds {terminator : Terminator} (hp : IsStatement env p)
    (hample : Ample env c level place)
    (h : Written env.source place (p :: terminator.phrase false :: ps) rest)
    (hparted : Parted (following ((terminator.phrase false).stop (p.stop place)) ps rest))
    (ctx : ListContext) (nodes : List Node) :
    Rounds env c (listStep (nested level) ctx) place nodes
      ((terminator.phrase false).stop (p.stop place))
      (nodes ++ nodesAt place [p, terminator.phrase false]) := by
  have hends : EndsStatement .list env.source (p.stop place) (terminator.phrase false :: ps) rest :=
    endsStatement_terminator terminator h.tail hparted.endsOperator
  have hapart : EndsApart env.source (p.stop place) (terminator.phrase false :: ps) rest :=
    ⟨hends.toEndsCommand, parted_following hp.stop_ne_zero rfl⟩
  obtain ⟨tok, hcomes, heof, hnewline, hopen⟩ := hp.starts h hapart
  have hstatement := runs_statement hample.mode_eq (hp.runs hample h hapart) hends h.tail.le_size
  have hitem := runs_listItem hample.unlimited hample.mode_eq
    ⟨tok, hcomes, heof, hnewline, hopen ctx⟩ hstatement h hparted.endsOperator nodes
  rw [Phrase.stopAll_cons, Phrase.stopAll_cons, Phrase.stopAll_nil] at hitem
  exact .single hitem (Nat.lt_of_le_of_lt (Phrase.le_stop place p) (terminator.lt_stop false _))

theorem IsStatement.simple (command : SimpleCommand) : IsStatement env command.phrase where
  toIsSpaced := ((Phrase.IsSpaced.leaf command.name.ne_nil).node []).node _
  starts h hends :=
    ⟨_, comes_command h hends.toEndsCommand, rfl, nofun, fun ctx => endsList_name ctx command.name⟩
  runs {_ _ place _ _} hample h hends := by
    have hlt : place < env.source.size :=
      Nat.lt_of_lt_of_le (command.name.lt_stop place)
        h.parts.parts.tail.le_size
    exact runs_primaryStatement hample.mode_eq (hample.succ_depth_lt hlt) h hends.toEndsCommand

theorem IsList.single (hp : IsStatement env p) :
    IsList env [p, Terminator.semicolon.phrase false] where
  spaced := hp.spaced
  rounds hample h hparted := by
    rw [Phrase.stopAll_cons, Phrase.stopAll_cons, Phrase.stopAll_nil] at hparted ⊢
    exact hp.rounds hample h hparted

theorem IsList.cons (hp : IsStatement env p) (hbody : IsList env body) :
    IsList env (p :: Terminator.semicolon.phrase false :: body) where
  spaced := hp.spaced
  rounds {_ _ place ps _} hample h hparted ctx nodes := by
    have hlt := Terminator.semicolon.lt_stop false (p.stop place)
    have hspaced := Phrase.isGluedAll_append hbody.spaced ps
    rw [Phrase.stopAll_cons, Phrase.stopAll_cons] at hparted ⊢
    have hfirst := hp.rounds hample h
      (parted_phrases (Nat.ne_of_gt (Nat.zero_lt_of_lt hlt)) hspaced) ctx nodes
    have hrounds := hfirst.trans
      (hbody.rounds (hample.mono hfirst.le) h.tail.tail hparted ctx _)
    simpa using hrounds

/-- A list inside a construct is read up to what closes it. -/
theorem IsList.runs {ctx : ListContext} (hbody : IsList env body) (hample : Ample env c level start)
    (hlt : start < place) (htop : ctx.topLevel = false)
    (h : Written env.source place (body ++ ps) rest)
    (hends : EndsList env.source ctx (stopAll place body) ps rest) :
    Runs env c.deeper place ((nested level).statements ctx) (nodesAt place body)
      (stopAll place body) := by
  have hle := h.le_size
  have hsize := hample.size_lt
  -- The construct took something before the list, so that there is a level left for it.
  obtain ⟨level, rfl⟩ : ∃ n, level = n + 1 := ⟨level - 1, by omega⟩
  have hinside := hample.inside hlt
  exact (hbody.rounds hinside h hends.parted ctx []).repeatStep
    (runs_listStep_closed hinside.unlimited hinside.mode_eq htop hends.next _) h.drop.le_size

theorem IsList.runs_keyword {text : String} (hbody : IsList env body)
    (hample : Ample env c level start) (hlt : start < place) (htext : text ∈ Keyword.closing)
    (h : Written env.source place (body ++ .token text :: ps) rest)
    (hends : EndsWord
      (following ((Phrase.token text).stop (stopAll place body)) ps rest)) :
    Runs env c.deeper place ((nested level).statements {}) (nodesAt place body)
      (stopAll place body) := by
  have hle := Phrase.le_stopAll place body
  exact hbody.runs hample hlt rfl h (endsList_keyword htext (by omega) h.drop hends)

end

/-! ### Compound commands -/

section

variable {kind : NodeKind} {text : String} {parts body : List Phrase}

theorem IsStatement.of_keyword (compound : Nested → Parse Node)
    (hcompound : ∀ inner, compoundOf? inner text = some (compound inner))
    (htext : text ∈ Keyword.all) (hne : text ≠ "!") (hopen : text ∉ Keyword.closing)
    (hspaced : isGluedAll parts = false)
    (hruns : ∀ {c level place ps rest}, Ample env c level place →
      Comes env.source place c.deeper.mode { assignment := true, statementStart := true }
        (tokenAt place .word text false) →
      Written env.source place (.node kind (.token text :: parts) :: ps) rest →
      EndsApart env.source ((Phrase.node kind (.token text :: parts)).stop place) ps rest →
      Runs env c.deeper place (compound (nested level))
        ((Phrase.node kind (.token text :: parts)).nodeAt place)
        ((Phrase.node kind (.token text :: parts)).stop place)) :
    IsStatement env (.node kind (.token text :: parts)) := by
  have hword {place ps rest} : EndsWord (following ((Phrase.token text).stop place)
      (parts ++ ps) rest) :=
    (parted_phrases (stop_keyword_ne_zero htext) (Phrase.isGluedAll_append hspaced ps)).endsWord
  refine ⟨(isSpaced_keyword htext).node parts, fun h _ => ?_,
    fun {c level place ps rest} hample h hends => ?_⟩
  . refine ⟨_, comes_keyword htext hne h.parts hword, rfl, nofun, fun ctx => ?_⟩
    simp [endsList, tokenAt, hopen]
  . have hcomes := comes_keyword (a := true) (s := true) htext hne h.parts hword
    rw [← hample.deeper_mode] at hcomes
    have hlt : place < env.source.size :=
      Nat.lt_of_lt_of_le (lt_stop_keyword htext) h.parts.tail.le_size
    exact runs_keywordStatement (hcompound _) htext hne hample.mode_eq
      (Nat.lt_of_succ_lt (hample.succ_depth_lt hlt)) h.parts hword (hruns hample hcomes h hends)

theorem IsList.endsWord (hbody : IsList env body) (htext : text ∈ Keyword.all) :
    EndsWord (following ((Phrase.token text).stop place) (body ++ ps) rest) :=
  (parted_phrases (stop_keyword_ne_zero htext)
    (Phrase.isGluedAll_append hbody.spaced ps)).endsWord

theorem IsList.endsWord_enclosed {opener closer : String} (hbody : IsList env body)
    (hopener : opener ∈ Keyword.all) :
    EndsWord (following ((Phrase.token opener).stop place) (body ++ [.token closer] ++ ps)
      rest) := by
  rw [List.append_assoc]
  exact hbody.endsWord hopener

theorem runs_enclosed (construct : Construct) (origin : Nat) {opener closer : String}
    (hopener : opener ∈ Keyword.all) (hcloser : closer ∈ Keyword.closing) (hbody : IsList env body)
    (hample : Ample env c level start) (hle : start ≤ place)
    (h : Written env.source place (.enclosed kind opener body closer :: ps) rest)
    (hends : EndsWord (following ((Phrase.enclosed kind opener body closer).stop place) ps rest)) :
    Runs env c.deeper place
      (do
        let leaf ← keywordLeaf (tokenAt place .word opener false)
        let body ← (nested level).statements {}
        let close ← expectKeyword closer construct origin
        node kind (leaf :: body ++ close))
      ((Phrase.enclosed kind opener body closer).nodeAt place)
      ((Phrase.enclosed kind opener body closer).stop place) := by
  have hall : ∀ text ∈ Keyword.closing, text ∈ Keyword.all ∧ text ≠ "!" := by decide
  have hlt : start < (Phrase.token opener).stop place :=
    Nat.lt_of_le_of_lt hle (lt_stop_keyword hopener)
  have hlist : Written env.source ((Phrase.token opener).stop place)
      (body ++ .token closer :: ps) rest := by simpa using h.parts.tail
  simp only [Phrase.enclosed, Phrase.stop_node, Phrase.stopAll_cons, Phrase.stopAll_append,
    Phrase.stopAll_nil] at hends ⊢
  refine (leads_keywordLeaf hopener).bind ?_
  refine (hbody.runs_keyword hample hlt hcloser hlist hends).bind ?_
  refine (runs_expectKeyword hample.deeper_mode (hall closer hcloser).1 (hall closer hcloser).2
    hlist.drop hends).bind ?_
  exact leads_node (by simp) (by simp [Phrase.token])

theorem runs_braceGroup (hbody : IsList env body) (hample : Ample env c level start)
    (hle : start ≤ place)
    (h : Written env.source place (.enclosed .compoundStatement "\x7b" body "\x7d" :: ps) rest)
    (hends : EndsWord (following
      ((Phrase.enclosed .compoundStatement "\x7b" body "\x7d").stop place) ps rest)) :
    Runs env c.deeper place (braceGroup (nested level))
      ((Phrase.enclosed .compoundStatement "\x7b" body "\x7d").nodeAt place)
      ((Phrase.enclosed .compoundStatement "\x7b" body "\x7d").stop place) := by
  have hcomes := comes_keyword (a := true) (s := true) (by decide) (by decide) h.parts
    (hbody.endsWord_enclosed (by decide))
  rw [← hample.deeper_mode] at hcomes
  unfold braceGroup
  refine (runs_peekStatement hcomes).bind ?_
  exact runs_enclosed _ _ (by decide) (by decide) hbody hample hle h hends

theorem IsStatement.group (hbody : IsList env body) :
    IsStatement env (.enclosed .compoundStatement "\x7b" body "\x7d") :=
  .of_keyword braceGroup (fun _ => rfl) (by decide) (by decide) (by decide)
    (Phrase.isGluedAll_append hbody.spaced _) fun hample _ h hends =>
      runs_braceGroup hbody hample (Nat.le_refl _) h hends.endsWord

theorem IsStatement.subshell (hbody : IsList env body) :
    IsStatement env (.enclosed .subshell "(" body ")") := by
  have hopener : (Phrase.token "(").IsSpaced := .leaf (by decide)
  have hcomes {place ps rest}
      (h : Written env.source place (.enclosed .subshell "(" body ")" :: ps) rest) :
      Comes env.source place .command { assignment := true, statementStart := true }
        (tokenAt place (.operator "(") "(" false) :=
    comes_operator h.parts (by decide) (by decide) (parted_phrases hopener.stop_ne_zero
      (Phrase.isGluedAll_append (Phrase.isGluedAll_append hbody.spaced _) _)).endsOperator
  have hlt {place} : place < (Phrase.token "(").stop place := hopener.lt_stop place
  refine ⟨hopener.node _, fun h _ => ⟨_, hcomes h, rfl, nofun, fun ctx => ?_⟩,
    fun {c level place ps rest} hample h hends => ?_⟩
  . simp [endsList, tokenAt, Operator.caseTerminators]
  . have hopen := hcomes h
    have hlist : Written env.source ((Phrase.token "(").stop place)
        (body ++ .token ")" :: ps) rest := by simpa using h.parts.tail
    have hsize : place < env.source.size := Nat.lt_of_lt_of_le hlt hlist.le_size
    have hle := Phrase.le_stopAll ((Phrase.token "(").stop place) body
    simp only [Phrase.enclosed, Phrase.stop_node, Phrase.stopAll_cons, Phrase.stopAll_append,
      Phrase.stopAll_nil] at hends ⊢
    have hclose := comes_separator (a := false) (s := false) (by decide) hlist.drop
      hends.parted.endsOperator
    have hbodyEnds : EndsList env.source {} _ (.token ")" :: ps) rest :=
      endsList_operator (.inl rfl) (Nat.ne_of_gt (Nat.lt_of_lt_of_le (Nat.zero_lt_of_lt hlt) hle))
        hlist.drop hends.parted.endsOperator
    rw [← hample.deeper_mode] at hopen hclose
    apply runs_nest (Nat.lt_of_succ_lt (hample.succ_depth_lt hsize))
    unfold primaryBody
    refine (runs_peekStatement hopen).bind ?_
    change Runs _ _ _ (Grammar.subshell (nested level) >>= fun node => pure (some node)) _ _
    refine Leads.map ?_ some
    unfold Grammar.subshell
    refine (runs_peekStatement hopen).bind ((leads_tokenLeaf _ rfl (by simp)).bind ?_)
    refine (hbody.runs hample hlt rfl hlist hbodyEnds).bind ?_
    refine (runs_expectOperator hclose).bind ?_
    exact leads_node (by simp) (by simp [Phrase.token, kindOf])

/-! ### Definitions -/

theorem runs_redirects_none (hmode : c.mode = .command) (h : EndsCommand env.source place ps rest)
    (hle : place ≤ env.source.size) : Runs env c place (redirects (nested level)) [] place := by
  obtain ⟨_, tok, hcomes, _, hredirect, _⟩ := h
  rw [← hmode] at hcomes
  apply (Rounds.refl _ _).repeatStep _ hle
  have hnone : Runs env c place (redirect (nested level)) none place := by
    unfold redirect
    refine (runs_peek hcomes).bind ?_
    rw [hredirect]
    exact Leads.pure _
  exact hnone.bind (Leads.pure _)

theorem endsOperator_closeParen {glued : Bool} :
    EndsOperator (following place (.leaf kind ")" glued :: ps) rest) := by
  rw [Phrase.following_cons, Phrase.spelling, List.append_assoc]
  intro d hd
  cases Phrase.gap_eq glued place with
  | inl hnone =>
    rw [hnone] at hd
    cases hd
    exact .inr (.inl rfl)
  | inr hspace =>
    rw [hspace] at hd
    cases hd
    exact .inl rfl

/-- The name of a function, with parentheses after it. -/
theorem runs_functionHead? {name : CommandName} {glued : Bool} {p : Phrase}
    (hmode : c.mode = .command) (hp : p.isGlued = false)
    (h : Written env.source place
      (name.phrase :: .token "(" :: .leaf (.token ")") ")" glued :: p :: ps) rest) :
    Runs env c place functionHead?
      (some (nodesAt place [name.phrase, .token "(", .leaf (.token ")") ")" glued]))
      (stopAll place [name.phrase, .token "(", .leaf (.token ")") ")" glued]) := by
  have hname := comes_word (a := true) (s := true) h name.isPlainWord
    (parted_following (name.stop_ne_zero place) rfl).endsWord
  have hopen := comes_operator (a := false) (s := false) h.tail (by decide) (by decide)
    endsOperator_closeParen
  have hclose := comes_separator (a := false) (s := false) (by decide) h.tail.tail
    (parted_following (stop_separator_ne_zero (by decide)) hp).endsOperator
  rw [← hmode] at hname hopen hclose
  simp only [Phrase.stopAll_cons, Phrase.stopAll_nil, Phrase.nodesAt_cons, Phrase.nodesAt_nil]
  unfold functionHead?
  refine (runs_peekStatement hname).bind (leads_leafAt.bind ?_)
  refine (runs_peekPlain hopen).bind ?_
  rw [if_pos (by simp [Token.isOperator, tokenAt])]
  refine (leads_tokenLeaf _ rfl (by simp)).bind ?_
  refine (runs_peekPlain hclose).bind ?_
  rw [if_pos (by simp [Token.isOperator, tokenAt])]
  exact (leads_tokenLeaf _ rfl (by simp)).map _

theorem runs_functionFrom {head : List Phrase} {origin : Nat} (hbody : IsList env body)
    (hample : Ample env c level origin) (hle : origin ≤ stopAll place head)
    (h : Written env.source (stopAll place head)
      (.enclosed .compoundStatement "\x7b" body "\x7d" :: ps) rest)
    (hends : EndsCommand env.source ((Phrase.enclosed .compoundStatement "\x7b" body "\x7d").stop
      (stopAll place head)) ps rest) :
    Runs env c.deeper (stopAll place head)
      (functionFrom (nested level) (nodesAt place head))
      ((Phrase.node .functionDefinition
        (head ++ [.enclosed .compoundStatement "\x7b" body "\x7d"])).nodeAt place)
      ((Phrase.enclosed .compoundStatement "\x7b" body "\x7d").stop (stopAll place head)) := by
  have hword : EndsWord (following ((Phrase.token "\x7b").stop (stopAll place head))
    (body ++ [.token "\x7d"] ++ ps) rest) := hbody.endsWord_enclosed (by decide)
  have hopen := fun a s : Bool =>
    comes_keyword (a := a) (s := s) (by decide) (by decide) h.parts hword
  rw [← hample.deeper_mode] at hopen
  unfold functionFrom
  refine (runs_lineBreaks_nil (hopen false false) nofun h.le_size).bind ?_
  have hgroup : Runs env c.deeper (stopAll place head) (functionBody (nested level))
      (some ((Phrase.enclosed .compoundStatement "\x7b" body "\x7d").nodeAt (stopAll place head)))
      ((Phrase.enclosed .compoundStatement "\x7b" body "\x7d").stop (stopAll place head)) := by
    unfold functionBody
    refine (runs_peekStatement (hopen true true)).bind ?_
    refine leads_source.bind ?_
    rw [isBareWord_of_written h.parts hword, if_pos rfl]
    exact (runs_braceGroup hbody hample hle h hends.endsWord).map some
  refine hgroup.bind ?_
  refine (runs_redirects_none hample.deeper_mode hends h.tail.le_size).bind ?_
  exact leads_node (by simp) (by simp)

theorem IsStatement.definition (name : CommandName) (glued : Bool) (hbody : IsList env body) :
    IsStatement env (.node .functionDefinition
      [name.phrase, .token "(", .leaf (.token ")") ")" glued,
       .enclosed .compoundStatement "\x7b" body "\x7d"]) := by
  have hcomes {place ps rest} (h : Written env.source place (.node .functionDefinition
      [name.phrase, .token "(", .leaf (.token ")") ")" glued,
       .enclosed .compoundStatement "\x7b" body "\x7d"] :: ps) rest) :
      Comes env.source place .command { assignment := true, statementStart := true }
        (tokenAt place .word name.text false) :=
    comes_word h.parts name.isPlainWord
      (parted_following (name.stop_ne_zero place) rfl).endsWord
  refine ⟨(Phrase.IsSpaced.leaf name.ne_nil).node _,
    fun h _ => ⟨_, hcomes h, rfl, nofun, (endsList_name · name)⟩,
    fun {c level place ps rest} hample h hends => ?_⟩
  have hname := hcomes h
  have hparts := h.parts
  have hgroup := hparts.tail.tail.tail
  have hsize : place < env.source.size :=
    Nat.lt_of_lt_of_le (name.lt_stop place) hparts.tail.le_size
  have hword {place ps} : EndsWord (following (name.phrase.stop place)
      (.token "(" :: ps) rest) := (parted_following (name.stop_ne_zero place) rfl).endsWord
  rw [← hample.deeper_mode] at hname
  apply runs_nest (Nat.lt_of_succ_lt (hample.succ_depth_lt hsize))
  unfold primaryBody
  refine (runs_peekStatement hname).bind ?_
  refine leads_source.bind ?_
  rw [isBareWord_of_written hparts hword, if_pos rfl,
    show (tokenAt place .word name.text false).text = name.text from rfl, wordStatement_name]
  have hhead := runs_attempt_some (runs_functionHead? hample.deeper_mode rfl hparts)
  have hdefinition : Runs env c.deeper place (plainFunction? (nested level)) _ _ :=
    hhead.bind ((runs_functionFrom hbody hample (Phrase.le_stopAll _ _) (by simpa using hgroup)
      (by simpa using hends.toEndsCommand)).map some)
  simp only [Phrase.stop_node, Phrase.stopAll_cons, Phrase.stopAll_nil] at hdefinition ⊢
  exact hdefinition.bind (Leads.pure _)

/-! ### Loops -/

theorem runs_doGroup {construct : Construct} {origin : Nat} (hbody : IsList env body)
    (hample : Ample env c level start) (hle : start ≤ place)
    (h : Written env.source place (.enclosed .doGroup "do" body "done" :: ps) rest)
    (hends : EndsWord
      (following ((Phrase.enclosed .doGroup "do" body "done").stop place) ps rest)) :
    Runs env c.deeper place (doGroup (nested level) construct origin)
      [(Phrase.enclosed .doGroup "do" body "done").nodeAt place]
      ((Phrase.enclosed .doGroup "do" body "done").stop place) := by
  have hword : EndsWord (following ((Phrase.token "do").stop place)
    (body ++ [.token "done"] ++ ps) rest) := hbody.endsWord_enclosed (by decide)
  have hcomes := comes_keyword (a := true) (s := true) (by decide) (by decide) h.parts hword
  rw [← hample.deeper_mode] at hcomes
  unfold doGroup
  refine (runs_peekStatement hcomes).bind (leads_source.bind ?_)
  rw [isKeyword_of_written "do" h.parts hword, if_pos (by decide)]
  have hrun : Runs env c.deeper place _ _ _ := (runs_enclosed construct origin
    (by decide) (by decide) hbody hample hle h hends).map fun group => [group]
  simpa only [bind_assoc] using hrun

/-- A list before a group of `do` and `done`. -/
theorem endsList_doGroup {ctx : ListContext} (hplace : place ≠ 0) (hbody : IsList env body)
    (h : Written env.source place (.enclosed .doGroup "do" body "done" :: ps) rest) :
    EndsList env.source ctx place (.enclosed .doGroup "do" body "done" :: ps) rest :=
  (endsList_keyword (by decide) hplace h.parts (hbody.endsWord_enclosed (by decide))).node

theorem IsStatement.loop {condition : List Phrase} (keyword : LoopKeyword)
    (hcondition : IsList env condition) (hbody : IsList env body) :
    IsStatement env (.node .whileStatement (.token keyword.text ::
      (condition ++ [.enclosed .doGroup "do" body "done"]))) := by
  have htext : keyword.text ∈ Keyword.all := by cases keyword <;> decide
  refine .of_keyword whileLoop (fun _ => by cases keyword <;> rfl) htext
    (by cases keyword <;> decide) (by cases keyword <;> decide)
    (Phrase.isGluedAll_append hcondition.spaced _)
    fun {c level place ps rest} hample hcomes h hends => ?_
  have hlt : place < (Phrase.token keyword.text).stop place := lt_stop_keyword htext
  have hle := Phrase.le_stopAll ((Phrase.token keyword.text).stop place) condition
  have hlist : Written env.source ((Phrase.token keyword.text).stop place)
      (condition ++ .enclosed .doGroup "do" body "done" :: ps) rest := by simpa using h.parts.tail
  simp only [Phrase.stop_node, Phrase.stopAll_cons, Phrase.stopAll_append,
    Phrase.stopAll_nil] at hends ⊢
  unfold whileLoop
  refine (runs_peekStatement hcomes).bind ?_
  refine (leads_keywordLeaf htext).bind ?_
  refine (hcondition.runs hample hlt rfl hlist
    (endsList_doGroup (by omega) hbody hlist.drop)).bind ?_
  refine (runs_doGroup hbody hample (by omega) hlist.drop hends.endsWord).bind ?_
  exact leads_node (by simp) (by simp [Phrase.token])

/-- The values of a loop end at a semicolon. -/
theorem runs_loopValues {words : List Word} (hmode : c.mode = .command)
    (hdepth : c.depth < env.options.maxDepth)
    (h : Written env.source place
      (.token "in" :: (words.map Word.phrase ++ .token ";" :: ps)) rest)
    (hparted : Parted (following (stopAll place
      (.token "in" :: (words.map Word.phrase ++ [.token ";"]))) ps rest)) :
    Runs env c place (loopValues (nested level))
      (nodesAt place (.token "in" :: words.map Word.phrase))
      (stopAll place (.token "in" :: words.map Word.phrase)) := by
  simp only [Phrase.stopAll_cons, Phrase.stopAll_append, Phrase.stopAll_nil] at hparted
  have hends : EndsStatement .command env.source _ (.token ";" :: ps) rest :=
    endsStatement_of_separator (by decide) nofun h.tail.drop hparted.endsOperator
  have hword := endsWord_words (stop_keyword_ne_zero (by decide)) hends.endsWord
  have hcomes := comes_keyword (a := false) (s := false) (by decide) (by decide) h hword
  rw [← hmode] at hcomes
  unfold loopValues
  refine (runs_peek hcomes).bind (leads_source.bind ?_)
  rw [isKeyword_of_written "in" h hword, if_pos (by decide)]
  refine (leads_keywordLeaf (by decide)).bind ?_
  have hstep {place values} {w : Word}
      (_ : Comes env.source place c.mode {} (tokenAt place .word w.text false))
      (hliteral : Runs env c place (literal (nested level)) (some (w.phrase.nodeAt place))
        (w.phrase.stop place)) :
      Runs env c place (loopValueStep (nested level) values)
        (.yield (values ++ [w.phrase.nodeAt place])) (w.phrase.stop place) := by
    unfold loopValueStep
    exact hliteral.bind (Leads.pure _)
  have hrounds := words_rounds hmode hdepth hstep h.tail hends.toEndsCommand
    [(Phrase.token "in").nodeAt place]
  obtain ⟨_, tok, hsemicolon, hliteral, _⟩ := hends.toEndsCommand
  rw [← hmode] at hsemicolon
  rw [Phrase.stopAll_cons, Phrase.nodesAt_cons]
  apply hrounds.repeatStep _ h.tail.drop.le_size
  unfold loopValueStep
  exact (runs_literal_none hsemicolon hliteral).bind (Leads.pure _)

theorem runs_loopVariable {name : Word} (hmode : c.mode = .command)
    (h : Written env.source place (.leaf .variableName name.text false :: ps) rest)
    (hword : EndsWord (following
      ((Phrase.leaf .variableName name.text false).stop place) ps rest)) :
    Runs env c place (loopVariable (nested level))
      [(Phrase.leaf .variableName name.text false).nodeAt place]
      ((Phrase.leaf .variableName name.text false).stop place) := by
  have hcomes := comes_word (a := false) (s := false) h name.isPlainWord hword
  rw [← hmode] at hcomes
  unfold loopVariable
  refine (runs_peek hcomes).bind ?_
  rw [if_pos (by simp [tokenAt, name.isName_text])]
  exact leads_leafAt.map _

theorem IsStatement.forLoop (name : Word) (words : List Word) (hbody : IsList env body) :
    IsStatement env (.node .forStatement (.token "for" :: .leaf .variableName name.text false ::
      .token "in" :: (words.map Word.phrase ++
        [.token ";", .enclosed .doGroup "do" body "done"]))) := by
  refine .of_keyword Grammar.forLoop (fun _ => rfl) (by decide) (by decide) (by decide) rfl
    fun {c level place ps rest} hample hcomes h hends => ?_
  have hname : Written env.source ((Phrase.token "for").stop place)
      (.leaf .variableName name.text false :: .token "in" :: (words.map Word.phrase ++
        .token ";" :: .enclosed .doGroup "do" body "done" :: ps)) rest := by
    simpa using h.parts.tail
  simp only [Phrase.stop_node, Phrase.stopAll_cons, Phrase.stopAll_append,
    Phrase.stopAll_nil] at hends ⊢
  have hvalues := hname.tail
  have hsemicolon := hvalues.tail.drop
  have hgroup := hsemicolon.tail
  have hdepth : c.deeper.depth < env.options.maxDepth :=
    hample.succ_depth_lt (Nat.lt_of_lt_of_le (lt_stop_keyword (by decide)) hname.le_size)
  have hparted {place} : Parted (following ((Phrase.token ";").stop place)
      (.enclosed .doGroup "do" body "done" :: ps) rest) :=
    parted_following (stop_separator_ne_zero (by decide)) rfl
  have hword {place ps} : EndsWord (following
      ((Phrase.leaf .variableName name.text false).stop place) (.token "in" :: ps) rest) :=
    (parted_following (name.stop_ne_zero place) rfl).endsWord
  have hvariable := comes_word (a := true) (s := true) hname name.isPlainWord hword
  have hsemi := comes_separator (a := false) (s := false) (by decide) hsemicolon
    hparted.endsOperator
  have hdo := comes_keyword (a := false) (s := false) (by decide) (by decide) hgroup.parts
    (hbody.endsWord_enclosed (by decide))
  rw [← hample.deeper_mode] at hvariable hsemi hdo
  unfold Grammar.forLoop
  refine (runs_peekStatement hcomes).bind ((leads_keywordLeaf (by decide)).bind ?_)
  rw [if_neg (by simp [tokenAt])]
  refine (runs_peekStatement hvariable).bind ?_
  rw [if_neg (by simp [Token.isOperator, tokenAt])]
  unfold valueLoop
  refine (runs_loopVariable hample.deeper_mode hname hword).bind ?_
  refine (runs_loopValues hample.deeper_mode hdepth hvalues (by simpa using hparted)).bind ?_
  rw [Phrase.stopAll_cons]
  refine (runs_acceptOperator hsemi).bind ?_
  refine (runs_lineBreaks_nil hdo (by simp [tokenAt]) hgroup.le_size).bind ?_
  have hle := Phrase.le_stopAll place (.token "for" :: .leaf .variableName name.text false ::
    .token "in" :: (words.map Word.phrase ++ [.token ";"]))
  refine (runs_doGroup hbody hample (by simpa using hle) hgroup hends.endsWord).bind ?_
  exact leads_node (by simp) (by simp [Phrase.token])

end

end Grammar

end ShellTree
