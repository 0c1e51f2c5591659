import ShellTree.Proofs.Written.StatementList

/-!
This module contains scripts of simple commands that pipes and list operators join. They are read as
flat pipelines in lists that group to the left.
-/

namespace ShellTree

inductive PipeOperator where
  | output
  | outputAndErrors
deriving DecidableEq, Repr

def PipeOperator.text : PipeOperator → String
  | output => "|"
  | outputAndErrors => "|&"

inductive ListOperator where
  | and
  | or
deriving DecidableEq, Repr

def ListOperator.text : ListOperator → String
  | and => "&&"
  | or => "||"

/-- Commands that pipes join. -/
structure Pipeline where
  first : SimpleCommand
  more : List (PipeOperator × SimpleCommand)

/-- Pipelines that list operators join. -/
structure AndOrList where
  first : Pipeline
  more : List (ListOperator × Pipeline)

structure ListItem where
  content : AndOrList
  terminator : Terminator
  /-- The terminator stands right behind the list. -/
  glued : Bool

theorem SimpleCommand.isGlued_phrase (command : SimpleCommand) :
    command.phrase.isGlued = false := rfl

namespace Pipeline

def joints (more : List (PipeOperator × SimpleCommand)) : List Phrase :=
  more.flatMap fun joint => [.token joint.1.text, joint.2.phrase]

/-- Two or more commands are one node. -/
def join (first : SimpleCommand) (more : List (PipeOperator × SimpleCommand)) : Phrase :=
  if more = [] then first.phrase else .node .pipeline (first.phrase :: joints more)

def phrase (pipeline : Pipeline) : Phrase := join pipeline.first pipeline.more

variable {src : Source} {place : Nat} {ps : List Phrase} {rest : List Char}

theorem joints_cons (joint : PipeOperator × SimpleCommand)
    (more : List (PipeOperator × SimpleCommand)) :
    joints (joint :: more) = .token joint.1.text :: joint.2.phrase :: joints more := rfl

theorem joints_append (more more' : List (PipeOperator × SimpleCommand)) :
    joints (more ++ more') = joints more ++ joints more' :=
  List.flatMap_append

theorem isGlued_phrase (pipeline : Pipeline) : pipeline.phrase.isGlued = false := by
  unfold phrase join
  split
  . rfl
  . rw [Phrase.isGlued, Phrase.isGluedAll, SimpleCommand.isGlued_phrase]

theorem after_first {pipeline : Pipeline}
    (h : Phrase.Written src place (pipeline.phrase :: ps) rest) :
    Phrase.Written src place
        (pipeline.first.phrase :: (joints pipeline.more ++ ps)) rest ∧
      pipeline.phrase.stop place =
        Phrase.stopAll (pipeline.first.phrase.stop place) (joints pipeline.more) := by
  unfold phrase join at h ⊢
  split at h
  . next hnone =>
    rw [if_pos hnone, hnone]
    exact ⟨h, rfl⟩
  . next hmore =>
    rw [if_neg hmore, Phrase.stop_node, Phrase.stopAll_cons]
    exact ⟨h.parts, rfl⟩

end Pipeline

namespace AndOrList

def joints (more : List (ListOperator × Pipeline)) : List Phrase :=
  more.flatMap fun joint => [.token joint.1.text, joint.2.phrase]

def join (left : Phrase) (joint : ListOperator × Pipeline) : Phrase :=
  .node .list [left, .token joint.1.text, joint.2.phrase]

/-- The operators have one level and group to the left. -/
def phrase (content : AndOrList) : Phrase := content.more.foldl join content.first.phrase

variable {src : Source} {place : Nat} {ps : List Phrase} {rest : List Char}

theorem joints_cons (joint : ListOperator × Pipeline) (more : List (ListOperator × Pipeline)) :
    joints (joint :: more) = .token joint.1.text :: joint.2.phrase :: joints more := rfl

theorem stop_foldl (left : Phrase) (more : List (ListOperator × Pipeline)) :
    (more.foldl join left).stop place = Phrase.stopAll (left.stop place) (joints more) := by
  induction more generalizing left with
  | nil => simp [joints]
  | cons joint more ih =>
    rw [List.foldl_cons, ih, join, Phrase.stop_node, joints_cons]
    simp

theorem written_foldl {left : Phrase} {more : List (ListOperator × Pipeline)}
    (h : Phrase.Written src place (more.foldl join left :: ps) rest) :
    Phrase.Written src place (left :: (joints more ++ ps)) rest := by
  induction more generalizing left with
  | nil => exact h
  | cons joint more ih => exact (ih h).parts

theorem isGlued_phrase (content : AndOrList) : content.phrase.isGlued = false := by
  have hfoldl : ∀ (more : List (ListOperator × Pipeline)) (left : Phrase),
      (more.foldl join left).isGlued = left.isGlued := by
    intro more
    induction more with
    | nil => exact fun _ => rfl
    | cons joint more ih =>
      intro left
      rw [List.foldl_cons, ih, join, Phrase.isGlued, Phrase.isGluedAll]
  rw [phrase, hfoldl, Pipeline.isGlued_phrase]

end AndOrList

namespace ListItem

def phrases (item : ListItem) : List Phrase :=
  [item.content.phrase, item.terminator.phrase item.glued]

/-- The characters after the last terminator. -/
def ending (items : List ListItem) : List Char := if items = [] then [] else [' ']

/-- The text of the items, with a space after each. -/
def text (items : List ListItem) : String := Phrase.text (items.flatMap phrases) (ending items)

end ListItem

namespace PipeOperator

variable {place : Nat}

theorem text_mem (op : PipeOperator) : op.text ∈ Grammar.separators := by cases op <;> decide

theorem ofToken?_tokenAt (op : PipeOperator) :
    StatementOperator.ofToken? (Phrase.tokenAt place (.operator op.text) op.text false) =
      some .pipe := by
  cases op <;> rfl

end PipeOperator

namespace ListOperator

variable {place : Nat}

theorem text_mem (op : ListOperator) : op.text ∈ Grammar.separators := by cases op <;> decide

theorem ofToken?_tokenAt (op : ListOperator) :
    StatementOperator.ofToken? (Phrase.tokenAt place (.operator op.text) op.text false) =
      some .list := by
  cases op <;> rfl

end ListOperator

namespace Grammar

open Parse Lexer
open Phrase (Written tokenAt following)

variable {env : Env} {c : Setting} {start place : Nat} {ps : List Phrase} {rest : List Char}
variable {tier : Tier}

/-! ### Joined statements -/

/-- An operator makes a node of the operands on its left, of itself and of what is on its right. -/
theorem runs_gluedJoinStep (inner : Nested) {op : StatementOperator} {text : String} {tok : Token}
    {glued : Bool} {left right : Phrase} (operands : List Phrase) (hmode : c.mode = .command)
    (h : Written env.source place (.leaf (.token text) text glued :: right :: ps) rest)
    (htext : text ∈ separators) (hspaced : right.isGlued = false)
    (hop : StatementOperator.ofToken? (tokenAt place (.operator text) text glued) = some op)
    (hadmits : tier.admits op = true) (hredirect : op ≠ .redirect)
    (hleft : leftOperands op (left.nodeAt start) = Phrase.nodesAt start operands)
    (hstop : Phrase.stopAll start operands = place)
    (hnext : Comes env.source ((Phrase.leaf (.token text) text glued).stop place) .command {} tok)
    (hbreak : tok.kind ≠ .newline)
    (hright : Runs env c ((Phrase.leaf (.token text) text glued).stop place)
      (inner.statement (if op = .pipe then .command else .pipeline))
      (some (right.nodeAt ((Phrase.leaf (.token text) text glued).stop place)))
      (right.stop ((Phrase.leaf (.token text) text glued).stop place))) :
    Runs env c place (statementStep inner tier (left.nodeAt start))
      (.yield ((Phrase.node (if op = .pipe then .pipeline else .list)
        (operands ++ [.leaf (.token text) text glued, right])).nodeAt start))
      (right.stop ((Phrase.leaf (.token text) text glued).stop place)) := by
  have hparted : Parted
      (following ((Phrase.leaf (.token text) text glued).stop place) (right :: ps) rest) :=
    parted_following (stop_separator_ne_zero htext) hspaced
  have hcomes := comes_separator (a := false) (s := false) htext h hparted.endsOperator
  rw [← hmode] at hcomes hnext
  unfold statementStep
  refine (runs_peekPlain hcomes).bind ?_
  rw [hop]
  simp only [hadmits, Bool.not_true, Bool.false_eq_true, if_false, hredirect]
  refine Leads.map ?_ ForInStep.yield
  unfold joined
  refine (leads_tokenLeaf (.token text) rfl (by simp)).bind ?_
  refine (runs_lineBreaks_nil hnext hbreak h.tail.le_size).bind ?_
  have hafter : Runs env c ((Phrase.leaf (.token text) text glued).stop place)
      (statementAfter inner text (if op = .pipe then .command else .pipeline))
      [right.nodeAt ((Phrase.leaf (.token text) text glued).stop place)]
      (right.stop ((Phrase.leaf (.token text) text glued).stop place)) := hright.bind (Leads.pure _)
  refine hafter.bind (leads_node (by simp) ?_)
  rw [hleft, Phrase.nodesAt_append, hstop]
  simp only [Phrase.nodesAt_cons, Phrase.nodesAt_nil, List.append_assoc]
  rfl

theorem runs_joinStep (inner : Nested) {op : StatementOperator} {text : String} {tok : Token}
    {left right : Phrase} (operands : List Phrase) (hmode : c.mode = .command)
    (h : Written env.source place (.token text :: right :: ps) rest)
    (htext : text ∈ separators) (hspaced : right.isGlued = false)
    (hop : StatementOperator.ofToken? (tokenAt place (.operator text) text false) = some op)
    (hadmits : tier.admits op = true) (hredirect : op ≠ .redirect)
    (hleft : leftOperands op (left.nodeAt start) = Phrase.nodesAt start operands)
    (hstop : Phrase.stopAll start operands = place)
    (hnext : Comes env.source ((Phrase.token text).stop place) .command {} tok)
    (hbreak : tok.kind ≠ .newline)
    (hright : Runs env c ((Phrase.token text).stop place)
      (inner.statement (if op = .pipe then .command else .pipeline))
      (some (right.nodeAt ((Phrase.token text).stop place)))
      (right.stop ((Phrase.token text).stop place))) :
    Runs env c place (statementStep inner tier (left.nodeAt start))
      (.yield ((Phrase.node (if op = .pipe then .pipeline else .list)
        (operands ++ [.token text, right])).nodeAt start))
      (right.stop ((Phrase.token text).stop place)) :=
  runs_gluedJoinStep inner operands hmode h htext hspaced hop hadmits hredirect hleft hstop hnext
    hbreak hright

/-! ### Pipelines -/

theorem endsCommand_joints {more : List (PipeOperator × SimpleCommand)}
    (h : Written env.source place (Pipeline.joints more ++ ps) rest)
    (hends : EndsCommand env.source (Phrase.stopAll place (Pipeline.joints more)) ps rest) :
    EndsCommand env.source place (Pipeline.joints more ++ ps) rest := by
  cases more with
  | nil => exact hends
  | cons joint more =>
    suffices hnone : EndsStatement .command env.source place _ rest from hnone.toEndsCommand
    apply endsStatement_of_separator joint.1.text_mem _ h
    . exact (parted_following (stop_separator_ne_zero joint.1.text_mem)
        joint.2.isGlued_phrase).endsOperator
    . intro op _
      cases op <;> rfl

theorem leftOperands_join (start : Nat) (first : SimpleCommand)
    (more : List (PipeOperator × SimpleCommand)) :
    leftOperands .pipe ((Pipeline.join first more).nodeAt start) =
        Phrase.nodesAt start (first.phrase :: Pipeline.joints more) ∧
      Phrase.stopAll start (first.phrase :: Pipeline.joints more) =
        (Pipeline.join first more).stop start := by
  unfold Pipeline.join
  split
  . next hnone =>
    subst hnone
    simp [Pipeline.joints, leftOperands, SimpleCommand.phrase, Phrase.namedCommand,
      Phrase.nodeAt_node]
  . simp [leftOperands, Phrase.nodeAt_node]

theorem pipes_rounds (level : Nat) {first : SimpleCommand}
    {done todo : List (PipeOperator × SimpleCommand)}
    (hmode : c.mode = .command) (hdepth : c.depth + 1 < env.options.maxDepth)
    (htier : tier.admits .pipe = true)
    (h : Written env.source ((Pipeline.join first done).stop start)
      (Pipeline.joints todo ++ ps) rest)
    (hends : EndsCommand env.source
      (Phrase.stopAll ((Pipeline.join first done).stop start) (Pipeline.joints todo)) ps rest) :
    Rounds env c (statementStep (nested (level + 1)) tier)
      ((Pipeline.join first done).stop start) ((Pipeline.join first done).nodeAt start)
      ((Pipeline.join first (done ++ todo)).stop start)
      ((Pipeline.join first (done ++ todo)).nodeAt start) := by
  -- What is joined so far is one flat node, whose parts the next step takes over.
  induction todo generalizing done with
  | nil =>
    rw [List.append_nil]
    exact .refl _ _
  | cons joint todo ih =>
    obtain ⟨operator, command⟩ := joint
    have hjoin : Pipeline.join first (done ++ [(operator, command)]) =
        .node .pipeline (first.phrase :: Pipeline.joints done ++
          [.token operator.text, command.phrase]) := by
      unfold Pipeline.join
      rw [if_neg (by simp), Pipeline.joints_append]
      rfl
    obtain ⟨hleft, hstop⟩ := leftOperands_join start first done
    have hjoined : (Pipeline.join first (done ++ [(operator, command)])).stop start =
        command.phrase.stop ((Phrase.token operator.text).stop
          ((Pipeline.join first done).stop start)) := by
      rw [hjoin, Phrase.stop_node, Phrase.stopAll_append, hstop]
      simp
    rw [Pipeline.joints_cons, List.cons_append, List.cons_append] at h
    rw [Pipeline.joints_cons, Phrase.stopAll_cons, Phrase.stopAll_cons] at hends
    have hcommand := endsCommand_joints h.tail.tail hends
    have hright : Runs env c ((Phrase.token operator.text).stop
          ((Pipeline.join first done).stop start))
        (statement (nested level) .command) _ _ :=
      runs_statement hmode (runs_primaryStatement hmode hdepth h.tail hcommand)
        hcommand.statement h.tail.tail.le_size
    have hstep := runs_joinStep (nested (level + 1)) (first.phrase :: Pipeline.joints done) hmode h
      operator.text_mem command.isGlued_phrase operator.ofToken?_tokenAt htier (by decide) hleft hstop
      (comes_command h.tail hcommand) (by simp [tokenAt]) hright
    rw [if_pos rfl, ← hjoin, ← hjoined] at hstep
    have hmore := h.tail.tail
    rw [← hjoined] at hmore hends
    have hlt : (Pipeline.join first done).stop start <
        (Pipeline.join first (done ++ [(operator, command)])).stop start := by
      rw [hjoined]
      exact Nat.lt_of_lt_of_le (lt_stop_separator operator.text_mem) (Phrase.le_stop _ _)
    have hrounds := ih hmore hends
    rw [List.append_assoc] at hrounds
    exact .head hstep hlt hrounds

/-- A pipeline is read as its first command and the rounds that bring the others. -/
theorem pipeline_rounds (level : Nat) (tier : Tier) {pipeline : Pipeline}
    (hmode : c.mode = .command) (hdepth : c.depth + 1 < env.options.maxDepth)
    (htier : tier.admits .pipe = true)
    (h : Written env.source place (pipeline.phrase :: ps) rest)
    (hends : EndsCommand env.source (pipeline.phrase.stop place) ps rest) :
    Runs env c place (primaryStatement (nested (level + 1)))
        (some (pipeline.first.phrase.nodeAt place)) (pipeline.first.phrase.stop place) ∧
      Rounds env c (statementStep (nested (level + 1)) tier)
        (pipeline.first.phrase.stop place) (pipeline.first.phrase.nodeAt place)
        (pipeline.phrase.stop place) (pipeline.phrase.nodeAt place) := by
  obtain ⟨hfirst, hstop⟩ := Pipeline.after_first h
  rw [hstop] at hends
  have hrounds : Rounds env c (statementStep (nested (level + 1)) tier)
      ((Pipeline.join pipeline.first []).stop place) _ _ _ :=
    pipes_rounds level hmode hdepth htier hfirst.tail hends
  exact ⟨runs_primaryStatement hmode hdepth hfirst (endsCommand_joints hfirst.tail hends), hrounds⟩

theorem comes_pipeline {a s : Bool} {pipeline : Pipeline}
    (h : Written env.source place (pipeline.phrase :: ps) rest)
    (hends : EndsCommand env.source (pipeline.phrase.stop place) ps rest) :
    Comes env.source place .command { assignment := a, statementStart := s }
      (tokenAt place .word pipeline.first.name.text false) := by
  obtain ⟨hfirst, hstop⟩ := Pipeline.after_first h
  rw [hstop] at hends
  exact comes_command hfirst (endsCommand_joints hfirst.tail hends)

theorem runs_pipeline (level : Nat) {pipeline : Pipeline} (hmode : c.mode = .command)
    (hdepth : c.depth + 1 < env.options.maxDepth)
    (h : Written env.source place (pipeline.phrase :: ps) rest)
    (hends : EndsStatement .pipeline env.source (pipeline.phrase.stop place) ps rest) :
    Runs env c place (statement (nested (level + 1)) .pipeline) (some (pipeline.phrase.nodeAt place))
      (pipeline.phrase.stop place) := by
  obtain ⟨hfirst, hrounds⟩ := pipeline_rounds level .pipeline hmode hdepth rfl h hends.toEndsCommand
  unfold statement
  refine hfirst.bind (Leads.map ?_ some)
  exact hrounds.repeatStep (runs_statementStep_done hmode hends _) h.tail.le_size

/-! ### Lists of pipelines -/

theorem EndsStatement.pipeline {src : Source} (h : EndsStatement .list src place ps rest) :
    EndsStatement .pipeline src place ps rest := by
  obtain ⟨hends, tok, hcomes, hjoins⟩ := h
  exact ⟨hends, tok, hcomes, fun op hop => absurd (hjoins op hop) (by cases op <;> decide)⟩

theorem endsStatement_joints {more : List (ListOperator × Pipeline)}
    (h : Written env.source place (AndOrList.joints more ++ ps) rest)
    (hends : EndsStatement .list env.source (Phrase.stopAll place (AndOrList.joints more)) ps rest) :
    EndsStatement .pipeline env.source place (AndOrList.joints more ++ ps) rest := by
  cases more with
  | nil => exact hends.pipeline
  | cons joint more =>
    apply endsStatement_of_separator joint.1.text_mem _ h
    . exact (parted_following (stop_separator_ne_zero joint.1.text_mem)
        joint.2.isGlued_phrase).endsOperator
    . rw [ListOperator.ofToken?_tokenAt]
      rintro op ⟨⟩
      rfl

/-- The rounds of a list take one operator and one pipeline each, and what is joined so far is the
left operand of the next. -/
theorem lists_rounds (level : Nat) {left : Phrase} {more : List (ListOperator × Pipeline)}
    (hmode : c.mode = .command) (hdepth : c.depth + 1 < env.options.maxDepth)
    (h : Written env.source (left.stop start) (AndOrList.joints more ++ ps) rest)
    (hends : EndsStatement .list env.source
      (Phrase.stopAll (left.stop start) (AndOrList.joints more)) ps rest) :
    Rounds env c (statementStep (nested (level + 2)) .list)
      (left.stop start) (left.nodeAt start)
      ((more.foldl AndOrList.join left).stop start)
      ((more.foldl AndOrList.join left).nodeAt start) := by
  induction more generalizing left with
  | nil => exact .refl _ _
  | cons joint more ih =>
    have hjoined : (AndOrList.join left joint).stop start =
        joint.2.phrase.stop ((Phrase.token joint.1.text).stop (left.stop start)) := by
      simp [AndOrList.join]
    rw [AndOrList.joints_cons, List.cons_append, List.cons_append] at h
    rw [AndOrList.joints_cons, Phrase.stopAll_cons, Phrase.stopAll_cons] at hends
    have hmore := h.tail.tail
    have hpipeline := endsStatement_joints hmore hends
    have hleft : leftOperands .list (left.nodeAt start) = Phrase.nodesAt start [left] := by
      simp [leftOperands]
    have hstep : Runs env c _ (statementStep (nested (level + 2)) .list _) _ _ :=
      runs_joinStep _ [left] hmode h joint.1.text_mem joint.2.isGlued_phrase
        joint.1.ofToken?_tokenAt rfl (by decide) hleft (by simp)
        (comes_pipeline h.tail hpipeline.toEndsCommand) (by simp [tokenAt])
        (runs_pipeline level hmode hdepth h.tail hpipeline)
    rw [← hjoined] at hstep hmore hends
    have hlt : left.stop start < (AndOrList.join left joint).stop start := by
      rw [hjoined]
      exact Nat.lt_of_lt_of_le (lt_stop_separator joint.1.text_mem) (Phrase.le_stop _ _)
    exact .head hstep hlt (ih hmore hends)

/-- A statement with all of its operators. -/
theorem runs_andOrList (level : Nat) {content : AndOrList} (hmode : c.mode = .command)
    (hdepth : c.depth + 1 < env.options.maxDepth)
    (h : Written env.source place (content.phrase :: ps) rest)
    (hends : EndsStatement .list env.source (content.phrase.stop place) ps rest) :
    Runs env c place (statement (nested (level + 2)) .list) (some (content.phrase.nodeAt place))
      (content.phrase.stop place) := by
  have hfirst := AndOrList.written_foldl h
  have hmore := hends
  rw [AndOrList.phrase, AndOrList.stop_foldl] at hmore
  have hpipeline := endsStatement_joints hfirst.tail hmore
  obtain ⟨hprimary, hpipes⟩ :=
    pipeline_rounds (level + 1) .list hmode hdepth rfl hfirst hpipeline.toEndsCommand
  have hrounds := hpipes.trans (lists_rounds level hmode hdepth hfirst.tail hmore)
  unfold statement
  refine hprimary.bind (Leads.map ?_ some)
  exact hrounds.repeatStep (runs_statementStep_done hmode hends _) h.tail.le_size

/-! ### Scripts -/

theorem startsStatement_andOrList {content : AndOrList} {ctx : ListContext}
    (h : Written env.source place (content.phrase :: ps) rest)
    (hends : EndsStatement .list env.source (content.phrase.stop place) ps rest) :
    StartsStatement env.source place ctx := by
  have hfirst := AndOrList.written_foldl h
  rw [AndOrList.phrase, AndOrList.stop_foldl] at hends
  have hpipeline := endsStatement_joints hfirst.tail hends
  exact ⟨_, comes_pipeline hfirst hpipeline.toEndsCommand, rfl, nofun, endsList_name _ _⟩

theorem parted_items (items : List ListItem) (hplace : place ≠ 0) (hrest : Parted rest) :
    Parted (following place (items.flatMap ListItem.phrases) rest) := by
  cases items with
  | nil =>
    rw [List.flatMap_nil, following, Phrase.spellingAll_nil]
    exact hrest
  | cons item items => exact parted_following hplace item.content.isGlued_phrase

theorem items_rounds (level : Nat) {items : List ListItem} {ctx : ListContext} (henv : env.Unlimited)
    (hmode : c.mode = .command) (hdepth : c.depth + 1 < env.options.maxDepth)
    (hrest : Parted rest) (h : Written env.source place (items.flatMap ListItem.phrases) rest)
    (nodes : List Node) :
    Rounds env c (listStep (nested (level + 2)) ctx) place nodes
      (Phrase.stopAll place (items.flatMap ListItem.phrases))
      (nodes ++ Phrase.nodesAt place (items.flatMap ListItem.phrases)) := by
  induction items generalizing place nodes with
  | nil => simpa using .refl place nodes
  | cons item items ih =>
    rw [List.flatMap_cons, Phrase.stopAll_append, Phrase.nodesAt_append, ← List.append_assoc]
    rw [List.flatMap_cons, ListItem.phrases] at h
    have hcontent : Written env.source place (item.content.phrase ::
      item.terminator.phrase item.glued :: items.flatMap ListItem.phrases) rest := h
    have hlt := item.terminator.lt_stop item.glued (item.content.phrase.stop place)
    have hparted := parted_items items (Nat.ne_of_gt (Nat.zero_lt_of_lt hlt)) hrest
    have hends : EndsStatement .list env.source _ _ rest :=
      endsStatement_terminator _ hcontent.tail hparted.endsOperator
    have hstep : Runs env c place (listStep (nested (level + 2)) ctx nodes) _ _ :=
      runs_listItem henv hmode (startsStatement_andOrList hcontent hends)
        (runs_andOrList level hmode hdepth hcontent hends) hcontent hparted.endsOperator nodes
    have hle := Phrase.le_stop place item.content.phrase
    refine .head hstep ?_ (ih h.drop _)
    simp
    omega

/-- The items of a whole script. -/
theorem runs_items {items : List ListItem} {ctx : ListContext} (henv : env.Unlimited)
    (hmode : c.mode = .command) (hdepth : c.depth + 1 < env.options.maxDepth)
    (h : Written env.source 0 (items.flatMap ListItem.phrases) (ListItem.ending items)) :
    Runs env c 0 (statements (nested (env.source.size + 1)) ctx)
      (Phrase.nodesAt 0 (items.flatMap ListItem.phrases))
      (Phrase.stopAll 0 (items.flatMap ListItem.phrases)) := by
  have hend : Written env.source (Phrase.stopAll 0 (items.flatMap ListItem.phrases)) []
      (ListItem.ending items) := by
    apply Phrase.Written.drop
    rw [List.append_nil]
    exact h
  cases items with
  | nil =>
    exact (Rounds.refl 0 []).repeatStep (runs_listStep_end henv hmode hend (.inl rfl) _) h.le_size
  | cons item items =>
    -- A terminator is not empty, so that there are the two levels that pipelines in lists need.
    have hlt : 0 < env.source.size := by
      have hitem : Written env.source 0 (item.content.phrase ::
        item.terminator.phrase item.glued :: items.flatMap ListItem.phrases) _ := h
      have := item.terminator.lt_stop item.glued (item.content.phrase.stop 0)
      have := hitem.tail.tail.le_size
      omega
    obtain ⟨level, hlevel⟩ : ∃ level, env.source.size = level + 1 := ⟨env.source.size - 1, by omega⟩
    rw [hlevel]
    have hrounds : Rounds env c (listStep (nested (level + 2)) ctx) 0 [] _ _ :=
      items_rounds level henv hmode hdepth (by rintro c ⟨⟩; rfl) h []
    exact hrounds.repeatStep (runs_listStep_end henv hmode hend (.inr rfl) _) h.stopAll_le_size

end Grammar

/-- A script of and-or lists is its own tree. -/
theorem parse_items (items : List ListItem) (options : Options)
    (hstatements : options.maxStatements = none) (hdepth : 2 ≤ options.maxDepth) :
    parse (.ofString (ListItem.text items)) options =
      .ok (Phrase.script (ListItem.text items) (items.flatMap ListItem.phrases)) :=
  Grammar.parse_of_runs <| Grammar.runs_items ⟨hstatements, rfl⟩ rfl hdepth <|
    Phrase.written_text (items.flatMap ListItem.phrases) (ListItem.ending items)

theorem parse_items_pipeline :
    parse (.ofString "a if |& b || c; d & ") { maxStatements := none } =
      .ok (Phrase.script "a if |& b || c; d & "
        [.node .list
          [.node .pipeline
            [.node .command [.node .commandName [.word "a"], .word "if"],
             .token "|&",
             .node .command [.node .commandName [.word "b"]]],
           .token "||",
           .node .command [.node .commandName [.word "c"]]],
         .leaf (.token ";") ";" true,
         .node .command [.node .commandName [.word "d"]],
         .token "&"]) := by
  have htext : "a if |& b || c; d &\x20" = ListItem.text
      [⟨⟨⟨⟨{ text := "a" }, [{ text := "if" }]⟩, [(.outputAndErrors, ⟨{ text := "b" }, []⟩)]⟩,
          [(.or, ⟨⟨{ text := "c" }, []⟩, []⟩)]⟩, .semicolon, true⟩,
       ⟨⟨⟨⟨{ text := "d" }, []⟩, []⟩, []⟩, .ampersand, false⟩] := by decide +kernel
  rw [htext]
  exact parse_items _ { maxStatements := none } rfl (by decide)

end ShellTree
