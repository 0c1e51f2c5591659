import ShellTree.Proofs.Limit
import ShellTree.Proofs.Written.Echo

/-!
This module contains how an arithmetic command reads what an arithmetic expansion reads. Behind
their openers the two read the same text in the same way, the expansion behind a name and one level
deeper. What differs is what the openers are taken for: a text that starts like a command is read
as one by the command only.
-/

namespace ShellTree

namespace Grammar

open Parse Lexer
open Phrase (tokenAt)

variable {env : Env} {s s₁ s' : State} {inner : Nested} {node : Node} {tok : Token}

/-! ### The end of a script -/

/-- Everything has been read but trivia and comments, and nothing is waited for. -/
structure AtEnd (env : Env) (s : State) : Prop where
  clean : s.IsClean
  modes_eq : s.modes = [.command]
  inBacktick_eq : s.inBacktick = false
  pending_eq : s.pending = []
  next : ∃ tok comments, Lexer.next env.source s.pos .command {} = .ok (tok, comments) ∧ tok.isEof

theorem AtEnd.peekPlain_run (h : AtEnd env s) :
    ∃ tok s', peekPlain env s = .ok (tok, s') ∧ tok.kind = .eof ∧ AtEnd env s' := by
  obtain ⟨tok, comments, hnext, heof⟩ := h.next
  have hmode : s.mode = .command := by simp [State.mode, h.modes_eq, h.pending_eq]
  refine ⟨tok, { s with comments := s.comments.insertAll comments }, ?_, isEof_iff.1 heof,
    ⟨h.clean.1, h.clean.2⟩, h.modes_eq, h.inBacktick_eq, h.pending_eq, h.next⟩
  refine bind_run.2 ⟨s, s, rfl, ?_⟩
  rw [if_neg (by simp [h.clean.running])]
  refine bind_run.2 ⟨env.source, s, rfl, bind_run.2 ⟨(tok, comments), s, ?_, rfl⟩⟩
  change (liftM (Lexer.next env.source s.pos s.mode { stopAtBacktick := s.inBacktick }) : Parse _)
    env s = _
  rw [hmode, h.inBacktick_eq, hnext]
  rfl

theorem statement_at_end (tier : Tier)
    (hprimary : primaryStatement inner env s = .ok (some node, s₁)) (hend : AtEnd env s₁) :
    ∃ s₂, statement inner tier env s = .ok (some node, s₂) ∧ AtEnd env s₂ := by
  obtain ⟨tok, s₂, hpeek, heof, hend₂⟩ := hend.peekPlain_run
  have hnone : StatementOperator.ofToken? tok = none := by
    simp [StatementOperator.ofToken?, Token.isOneOf, Token.isRedirectStart, heof]
  have hstep : statementStep inner tier node env s₁ = .ok (.done node, s₂) := by
    refine bind_run.2 ⟨tok, s₂, hpeek, ?_⟩
    rw [hnone]
    rfl
  exact ⟨s₂, bind_run.2 ⟨some node, s₁, hprimary, bind_run.2 ⟨node, s₂, repeatStep_run hstep, rfl⟩⟩,
    hend₂⟩

theorem listItemStep_at_end (ctx : ListContext)
    (hprimary : primaryStatement inner env s = .ok (some node, s₁)) (hend : AtEnd env s₁) :
    ∃ s₂, listItemStep inner ctx [] env s = .ok (.done [node], s₂) ∧ AtEnd env s₂ := by
  obtain ⟨s₂, hstatement, hend₂⟩ := statement_at_end .list hprimary hend
  obtain ⟨tok, s₃, hpeek, heof, hend₃⟩ := hend₂.peekPlain_run
  have hterminator : terminator? inner ctx env s₂ = .ok (none, s₃) := by
    refine bind_run.2 ⟨tok, s₃, hpeek, ?_⟩
    rw [if_neg (by simp [Token.isOneOf, heof]), if_neg (by simp [heof]),
      if_pos (isEof_iff.2 heof)]
    rfl
  exact ⟨s₃, bind_run.2 ⟨_, s, rfl, bind_run.2 ⟨_, s₂, hstatement,
    bind_run.2 ⟨none, s₃, hterminator, rfl⟩⟩⟩, hend₃⟩

/-- A statement that has come to the end is the whole script. -/
theorem script_of_statement (hcancelled : env.cancelled = false)
    (hlimited : ∀ limit ∈ env.options.maxStatements, 0 < limit)
    (hstarts : StartsStatement env.source 0 { topLevel := true })
    (hprimary : primaryStatement (nested (env.source.size + 1)) env (({} : Setting).state 0 1) =
      .ok (some node, s)) (hend : AtEnd env s) :
    ∃ root s', script env {} = .ok (root, s') ∧ root.children = [node] ∧ s'.IsClean := by
  obtain ⟨tok, hcomes, heof, hnewline, hlist⟩ := hstarts
  obtain ⟨s₂, hitem, hend₂⟩ := listItemStep_at_end { topLevel := true } hprimary hend
  have hstep : listStep (nested (env.source.size + 1)) { topLevel := true } [] env {} =
      .ok (.done [node], s₂) := by
    refine bind_run.2 ⟨true, _, tick_run (c := {}) hcancelled hlimited, ?_⟩
    refine bind_run.2 ⟨tok, _, peekWith_state (c := {}) hcomes 1, ?_⟩
    rw [heof, if_neg Bool.false_ne_true, if_neg hnewline]
    refine bind_run.2 ⟨env.source, _, rfl, ?_⟩
    rw [hlist, if_neg Bool.false_ne_true]
    exact hitem
  have hreport : reportPending env s₂ = .ok (⟨⟩, s₂) := by
    have hset : { s₂ with pending := [] } = s₂ := by rw [← hend₂.pending_eq]
    refine bind_run.2 ⟨s₂, s₂, rfl, bind_run.2 ⟨⟨⟩, s₂, ?_, ?_⟩⟩
    . exact congrArg (fun s => Except.ok (PUnit.unit, s)) hset
    . rw [hend₂.pending_eq]
      rfl
  have hrest : unread env s₂ = .ok ([], s₂) := by
    refine bind_run.2 ⟨s₂, s₂, rfl, bind_run.2 ⟨env.source, s₂, rfl, ?_⟩⟩
    rw [if_neg (by simp [hend₂.clean.running])]
    rfl
  refine ⟨⟨.program, ⟨0, env.source.size, Nat.zero_le _⟩, [node]⟩, s₂, ?_, rfl, hend₂.clean⟩
  refine bind_run.2 ⟨env.source, {}, rfl, bind_run.2 ⟨[node], s₂, repeatStep_run hstep, ?_⟩⟩
  exact bind_run.2 ⟨⟨⟩, s₂, hreport, bind_run.2 ⟨[], s₂, hrest, rfl⟩⟩

/-! ### The rest of a line -/

section

variable {src : Source} {comments : List Span} {start stop : Nat}

theorem next_of_skips (h : Skips src comments start src.size)
    (hopens : Trivia.opensComment src start) (hline : '\n' ∉ src.text.toList) :
    ∃ tok comments', next src start .command {} = .ok (tok, comments') ∧ tok.isEof := by
  obtain ⟨cs, htail, hspells⟩ := h.left.exists_tail?
  have hcs : '\n' ∉ cs := by
    obtain ⟨before, after, htext, _⟩ := hspells
    rw [htext] at hline
    simp only [List.mem_append, not_or] at hline
    exact hline.1.2
  have hskip : (Trivia.skip src start (triviaRules .command {})).1 = src.size := by
    unfold Trivia.skip
    rw [htail, hopens]
    dsimp only
    rw [Trivia.skipFrom_of_skips rfl h rfl hspells hcs, hspells.stop_eq]
  have hend : src.tail? src.size = some [] := by
    have hboundary : src.Boundary src.size := Source.boundary_size
    obtain ⟨rest, hrest, hspells⟩ := hboundary.exists_tail?
    rwa [hspells.unique hboundary] at hrest
  unfold next skipTrivia
  generalize Trivia.skip src start (triviaRules .command {}) = result at hskip
  obtain ⟨place, comments'⟩ := result
  obtain rfl : place = src.size := hskip
  dsimp only
  rw [hend]
  exact ⟨_, comments', rfl, rfl⟩

/-- The end of the text is where it was behind other text. -/
theorem exists_eof_of_behind {src src' : Source} {before : List Char} {place : Nat} {tok : Token}
    {comments : List Span} (h : src.Behind before src')
    (hnext : next src' (place + byteLength before) .command {} = .ok (tok, comments))
    (heof : tok.isEof) :
    ∃ tok comments, next src place .command {} = .ok (tok, comments) ∧ tok.isEof := by
  have hmoved := (next_moved h place .command {}).symm.trans hnext
  cases hfound : next src place .command {} with
  | error fault =>
    rw [hfound] at hmoved
    cases hmoved
  | ok found =>
    rw [hfound] at hmoved
    cases hmoved
    exact ⟨found.1, found.2, rfl, heof⟩

end

/-! ### The inside of the parentheses -/

/-- The setting inside the parentheses, so many levels deep. -/
def arithmeticAt (depth : Nat) : Setting where
  mode := .arithmetic
  outer := [.command]
  depth := depth

variable {c : Setting} {cs : List Char} {echoed expansion : Node} {parts nodes : List Node}

theorem sound_state {place n : Nat} (h : env.source.Boundary place) :
    Sound env (c.state place n) where
  boundary := h
  modes_ne_nil := by simp [Setting.state]
  pending := by simp [Setting.state]
  comments := ⟨by simp [Setting.state], by simp [Setting.state]⟩
  reports := by simp [Setting.state]
  running := by simp [Setting.state]
  halted := by simp [Setting.state]

/-- Two places from the start there is room for what is two levels deep. -/
theorem within_arithmeticAt {place : Nat} (h : env.source.Boundary place) (hplace : 2 ≤ place) :
    Within env (env.source.size + 1) 2 ((arithmeticAt 2).state place 1) where
  sound := sound_state h
  size_lt := by
    change env.source.size < place + (env.source.size + 1)
    omega
  depth_le := by
    change 2 + 2 ≤ 2 * place + 2
    omega

theorem boundary_of_text {src : Source} {before : List Char} {place : Nat}
    (h : src.text.toList = before ++ cs) (hplace : byteLength before = place) :
    src.Boundary place := ⟨before, cs, by simp [h], hplace, rfl⟩

namespace EchoesExpansion

variable (hecho : Echoes env.source cs) (h : EchoesExpansion env (nested (env.source.size + 1))
  ({} : Setting).deeper 1 cs echoed expansion parts s)

include hecho h

theorem reads : ReadsUpTo env "))" ((arithmeticAt 2).state 8 1) parts s := by
  have hboundary : env.source.Boundary 8 := boundary_of_text hecho rfl
  have hwithin := within_arithmeticAt hboundary (by omega)
  refine (arithmeticBody_reads (nested_fits env _) hwithin .arithmeticExpansion ?_).of_run h.body
  exact Nat.le_trans (by omega) hboundary.le_size

theorem opensComment : Trivia.opensComment env.source s.pos := by
  have hreads := reads hecho h
  obtain ⟨close, hlast, hkind⟩ := hreads.ends h.clean.diagnostics_eq
  obtain ⟨_, _, hlast', hstop⟩ := arithmeticBody_clean h.body h.clean
  obtain rfl := Option.mem_unique hlast hlast'
  have hmem := Node.mem_preorderAll_of_mem (List.mem_of_getLast? hlast)
  have hspells := (hreads.genuine close hmem).spelled _ hkind
  rw [hstop] at hspells
  exact Trivia.opensComment_of_endsWord [')'] hspells rfl

theorem ledger (hkind : echoed.kind = .command)
    (hexpansion : expansion.kind = .arithmeticExpansion) :
    Ledger env.source [] [] [echoed] s.pending [] := by
  have hwrap : ∀ {node : Node} {pending}, node.kind.isPlain →
      Ledger env.source [] [] node.children pending [] →
        Ledger env.source [] [] [node] pending [] := by
    rintro ⟨kind, span, children⟩ pending hplain hchildren
    exact hchildren.wrap (.inr hplain)
  have hnil : Ledger env.source [] [] [] [] [] := .nil rfl rfl
  have hleaf : Ledger env.source [] [] [echoLeaf] [] [] := hwrap rfl hnil
  have hopener : Ledger env.source [] [] [openerLeaf] [] [] := hwrap rfl hnil
  have hparts := ((reads hecho h).accounts h.clean.running).2
  rw [h.clean.diagnostics_eq] at hparts
  have hexpansion : Ledger env.source [] [] [expansion] s.pending [] := by
    apply hwrap (by rw [hexpansion]; rfl)
    rw [h.parts_eq]
    exact hopener.trans hparts
  have hname : Ledger env.source [] [] [echoName] [] [] := hwrap rfl hleaf
  apply hwrap (by rw [hkind]; rfl)
  rw [h.children_eq]
  exact hname.trans hexpansion

/-- All here-documents of the expansion have been read where none is reported to lack its body. -/
theorem pending_eq (hkind : echoed.kind = .command)
    (hexpansion : expansion.kind = .arithmeticExpansion)
    (hbalanced : Balanced env.source [echoed] []) : s.pending = [] := by
  have hledger := (ledger hecho h hkind hexpansion).delimiters.length_eq
  have hdelimiters := hbalanced.delimiters.length_eq
  simp only [owed, missingBodies, missingEnds, List.filterMap_nil, List.length_append,
    List.length_map, List.length_nil] at hledger hdelimiters
  exact List.length_eq_zero_iff.1 (by omega)

end EchoesExpansion

/-! ### Without the command around it -/

/-- The source is what `((` opens before the characters. -/
def Groups (src : Source) (cs : List Char) : Prop := src.text.toList = "((".toList ++ cs

section

variable {inner outer : Env} {before : List Char}

theorem Groups.behind {inner outer : Source} (h : Groups inner cs) (hecho : Echoes outer cs) :
    inner.Behind "echo $".toList outer where
  text_eq := by
    rw [hecho, h]
    rfl
  fresh := .inr (by
    rw [h]
    rfl)

/-- The parse of a text by itself and the parse that has read and reported nothing before it but a
name. -/
def behindName (hbehind : inner.source.Behind before outer.source)
    (hwithin : inner.options.IsWithin outer.options)
    (hcancelled : outer.cancelled = inner.cancelled) : Embedding where
  before := before
  inner := inner
  outer := outer
  behind := hbehind
  reports := []
  boundaries := 0
  maxDepth_le := hwithin.maxDepth
  statements_le := hwithin.maxStatements
  cancelled_eq := hcancelled
  Logs _ _ := True
  insertAll _ _ _ _ := trivial
  toDepthRelation := .same

/-- The parse of a text at two depths. -/
def shallower (env : Env) : Embedding where
  before := []
  inner := env
  outer := env
  behind := ⟨rfl, .inl rfl⟩
  reports := []
  boundaries := 0
  maxDepth_le := Nat.le_refl _
  statements_le limit hlimit := ⟨limit, hlimit, Nat.le_refl _⟩
  cancelled_eq := rfl
  Logs _ _ := True
  insertAll _ _ _ _ := trivial
  toDepthRelation := .shallower

/-- What the expansion reads inside the parentheses is read without the name before it, and nothing
is reported either. -/
theorem arithmeticBody_of_echo (hgroups : Groups inner.source cs) (hecho : Echoes outer.source cs)
    (hoptions : outer.options = inner.options) (hcancelled : outer.cancelled = inner.cancelled)
    (h : EchoesExpansion outer (nested (outer.source.size + 1)) ({} : Setting).deeper 1 cs echoed
      expansion parts s) :
    ∃ nodes s', arithmeticBody (nested (inner.source.size + 1)) .arithmeticCommand 0 inner
        ((arithmeticAt 2).state 2 1) = .ok (nodes, s') ∧ s'.IsClean ∧ parts = moved 6 nodes ∧
      s.pos = s'.pos + 6 ∧ s.pending = moved 6 s'.pending := by
  let E := behindName (hgroups.behind hecho) (.of_eq hoptions) hcancelled
  -- the inner parse has a result, since its one fault would be one of the outer parse
  have htight : E.IsTight := ⟨hoptions, rfl, fun _ _ heq => heq.symm⟩
  have hle : inner.source.size + 1 ≤ outer.source.size + 1 := by
    rw [(hgroups.behind hecho).size_eq]
    omega
  have hcarries := arithmeticBody_carries (nested_carried (E := E) hle) .arithmeticCommand 0
  have hboundary : inner.source.Boundary 2 := boundary_of_text hgroups rfl
  have hmeets := arithmeticBody_reads (nested_fits inner _)
    (within_arithmeticAt hboundary (Nat.le_refl 2)) .arithmeticCommand (Nat.zero_le _)
  have houter : arithmeticBody (nested (outer.source.size + 1)) .arithmeticCommand (0 + E.width)
      outer (E.state ((arithmeticAt 2).state 2 1) ⟨{}, 2⟩) = .ok (parts, s) :=
    (arithmeticBody_clean h.body h.clean).1 .arithmeticCommand 6
  have hpairs : E.Pairs ((arithmeticAt 2).state 2 1) ⟨{}, 2⟩ := ⟨trivial, rfl⟩
  obtain ⟨nodes, s', own, hrun, rfl, rfl⟩ := hcarries.run_of_outer htight hmeets hpairs houter
  have hdiagnostics : s'.diagnostics = [] := by
    have hreports : [] ++ s'.diagnostics.map E.report = [] := h.clean.diagnostics_eq
    simpa using hreports
  exact ⟨nodes, s', hrun, ⟨hdiagnostics, h.clean.running⟩, rfl, rfl, rfl⟩

/-- One level less deep the inside is read as well. -/
theorem arithmeticBody_shallower {construct : Construct} {start place : Nat}
    (hrun : arithmeticBody (nested (env.source.size + 1)) construct start env
      ((arithmeticAt 2).state place 1) = .ok (nodes, s')) (hclean : s'.IsClean) :
    ∃ s₁, arithmeticBody (nested (env.source.size + 1)) construct start env
        ((arithmeticAt 1).state place 1) = .ok (nodes, s₁) ∧ s₁.IsClean ∧ s₁.pos = s'.pos ∧
      s₁.pending = moved 0 s'.pending := by
  let E := shallower env
  have hinner := nested_carried (E := E) (Nat.le_refl (env.source.size + 1))
  have hcarries := arithmeticBody_carries hinner construct start
  obtain ⟨own, _, hrun'⟩ := hcarries.run _ _ _ hrun (.inr hclean.running) ⟨{}, 1⟩
    ⟨trivial, Nat.le_succ 1⟩
  rw [show moved E.width nodes = nodes from Node.moved_zero_all nodes] at hrun'
  refine ⟨_, hrun', ⟨?_, hclean.running⟩, rfl, rfl⟩
  change [] ++ s'.diagnostics.map E.report = []
  rw [hclean.diagnostics_eq]
  rfl

end

/-! ### The arithmetic command -/

def commandToken : Token := tokenAt 0 (.operator "((") "((" false

def commandLeaf : Node := .leaf (.token "((") (.ofWidth 0 2)

theorem comes_commandToken (hgroups : Groups env.source cs)
    (hopens : DoubleParen.opensArithmetic cs) :
    Comes env.source 0 .command { assignment := true, statementStart := true } commandToken := by
  have hwritten : Phrase.Written env.source 0 [.token "(("] cs := by
    rw [Phrase.Written, Source.tail?_eq, hgroups]
    rfl
  exact comes_parentheses hwritten hopens

theorem exists_node (env : Env) (s : State) (kind : NodeKind) {first : Node}
    (hstart : first.span.start = 0) (nodes : List Node) :
    ∃ node, Parse.node kind (first :: nodes) env s = .ok (node, s) ∧ node.kind = kind ∧
      node.children = first :: nodes := by
  obtain ⟨last, hlast⟩ : ∃ last, (first :: nodes).getLast? = some last :=
    ⟨_, List.getLast?_eq_some_getLast (List.cons_ne_nil first nodes)⟩
  have hle : first.span.start ≤ last.span.stop := by
    rw [hstart]
    exact Nat.zero_le _
  have hspan : spanBetween first.span.start last.span.stop env s = .ok (⟨_, _, hle⟩, s) := by
    unfold spanBetween Span.between
    rw [dif_pos hle]
    rfl
  refine ⟨⟨kind, ⟨_, _, hle⟩, first :: nodes⟩, ?_, rfl, rfl⟩
  unfold Parse.node
  rw [hlast]
  exact bind_run.2 ⟨_, s, hspan, rfl⟩

/-- The inside of the parentheses makes an arithmetic command. -/
theorem primaryStatement_command (hgroups : Groups env.source cs)
    (hopens : DoubleParen.opensArithmetic cs) (hinner : inner.Framed env)
    (hdepth : 0 < env.options.maxDepth)
    (hbody : arithmeticBody inner .arithmeticCommand 0 env ((arithmeticAt 1).state 2 1) =
      .ok (nodes, s)) (hclean : s.IsClean) (hpending : s.pending = [])
    (hnext : ∃ tok comments, next env.source s.pos .command {} = .ok (tok, comments) ∧
      tok.isEof) :
    ∃ test s', primaryStatement inner env (({} : Setting).state 0 1) = .ok (some test, s') ∧
      test.kind = .testCommand ∧ test.children = commandLeaf :: nodes ∧ AtEnd env s' := by
  have hpeek : peekStatement env (({} : Setting).deeper.state 0 1) =
      .ok (commandToken, ({} : Setting).deeper.state 0 1) :=
    peekWith_state (c := ({} : Setting).deeper) (comes_commandToken hgroups hopens) 1
  have hframed := (arithmeticBody_frames hinner .arithmeticCommand 0).framed hbody rfl
  have hmodes : s.modes = [.arithmetic, .command] := hframed.modes_eq (by simp [Setting.state])
  have hparts : inMode .arithmetic (withFlags {} (arithmeticBody inner .arithmeticCommand 0)) env
      (({} : Setting).deeper.state 2 1) =
        .ok (nodes, { s with modes := [.command], flags := {} }) := by
    refine inMode_run.2 ⟨_, withFlags_run.2 ⟨s, hbody, rfl⟩, ?_⟩
    rw [hmodes]
    rfl
  have hopener : commandLeaf.span.start = 0 := rfl
  obtain ⟨test, hnode, hkind, hchildren⟩ :=
    exists_node env { s with modes := [.command], flags := {} } .testCommand hopener nodes
  have hcommand : arithmeticCommand inner env (({} : Setting).deeper.state 0 1) =
      .ok (test, { s with modes := [.command], flags := {} }) :=
    bind_run.2 ⟨commandToken, _, hpeek, bind_run.2 ⟨commandLeaf, _, rfl,
      bind_run.2 ⟨nodes, _, hparts, hnode⟩⟩⟩
  have hprimary : primaryBody inner env (({} : Setting).deeper.state 0 1) =
      .ok (some test, { s with modes := [.command], flags := {} }) :=
    bind_run.2 ⟨commandToken, _, hpeek, bind_run.2 ⟨test, _, hcommand, rfl⟩⟩
  refine ⟨test, { s with modes := [.command], flags := {}, depth := s.depth - 1 }, ?_, hkind,
    hchildren, ⟨hclean.1, hclean.2⟩, rfl, hframed.inBacktick_eq, hpending, hnext⟩
  exact bind_run.2 ⟨true, _, enter_state (c := {}) hdepth 0 1,
    bind_run.2 ⟨some test, _, hprimary, rfl⟩⟩

/-- Where the command with the expansion is the whole script, so is the arithmetic command. -/
theorem script_command {inner outer : Env} {root : Node} (hgroups : Groups inner.source cs)
    (hecho : Echoes outer.source cs) (hoptions : outer.options = inner.options)
    (hcancelled : outer.cancelled = inner.cancelled) (hline : '\n' ∉ outer.source.text.toList)
    (hguess : DoubleParen.startsLikeCommand cs = false)
    (hscript : script outer {} = .ok (root, s')) (h : IsScript outer root s') (hclean : s'.IsClean)
    (hchildren : root.children = [echoed]) (hkind : echoed.kind = .command)
    (hargument : echoed.children.tail = [expansion])
    (hexpansion : expansion.kind = .arithmeticExpansion) :
    ∃ root' final test, script inner {} = .ok (root', final) ∧ final.IsClean ∧
      root'.children = [test] ∧ test.kind = .testCommand ∧
      test.children.head? = some commandLeaf ∧
      expansion.children.tail = moved 6 test.children.tail := by
  obtain ⟨houter, hlimited, parts, s, hexp⟩ :=
    script_echo_clean hecho hscript hclean hchildren hkind hargument hexpansion
  have hbalanced := h.balanced hclean.running
  have htiles := h.tiles
  rw [hchildren, hclean.diagnostics_eq] at hbalanced
  rw [hchildren, tiles_cons, tiles_nil, hexp.stop_eq] at htiles
  -- behind the expansion there is nothing to read and nothing to wait for
  have hpending := hexp.pending_eq hecho hkind hexpansion hbalanced
  obtain ⟨tok, comments, hnext, heof⟩ := next_of_skips htiles.2.2 (hexp.opensComment hecho) hline
  -- the inside is read without the name, and then without the level of the argument
  obtain ⟨nodes, s₁, hbody, hclean₁, hparts, hpos, hpending₁⟩ :=
    arithmeticBody_of_echo hgroups hecho hoptions hcancelled hexp
  obtain ⟨s₂, hbody₂, hclean₂, hpos₂, hpending₂⟩ := arithmeticBody_shallower hbody hclean₁
  have hnone : s₂.pending = [] := by
    rw [hpending, eq_comm] at hpending₁
    rw [hpending₂, List.map_eq_nil_iff.1 hpending₁]
    rfl
  have hopens : DoubleParen.opensArithmetic cs := by
    simp [DoubleParen.opensArithmetic, DoubleParen.closesWithGap_eq_false hexp.opens, hguess]
  have hnext₂ := exists_eof_of_behind (hgroups.behind hecho) (hpos₂ ▸ hpos ▸ hnext) heof
  have hdepth : 0 < inner.options.maxDepth := Nat.lt_of_succ_lt (hoptions ▸ hexp.depth_lt)
  obtain ⟨test, s₃, hprimary, htest, hinside, hend⟩ := primaryStatement_command hgroups hopens
    (nested_framed inner _) hdepth hbody₂ hclean₂ hnone hnext₂
  have hstarts : StartsStatement inner.source 0 { topLevel := true } :=
    ⟨_, comes_commandToken hgroups hopens, rfl, nofun, rfl⟩
  obtain ⟨root', final, hrun, hroot, hfinal⟩ :=
    script_of_statement (hcancelled ▸ houter) (hoptions ▸ hlimited) hstarts hprimary hend
  refine ⟨root', final, test, hrun, hfinal, hroot, htest, by rw [hinside]; rfl, ?_⟩
  rw [hexp.parts_eq, hinside, List.tail_cons, List.tail_cons, hparts]

end Grammar

/-! ### Main results -/

open Parse Grammar

/-- An arithmetic command reads what an arithmetic expansion reads, unless the text behind its
opener starts like a command: where `echo` with an expansion as its argument is read without a
report, so is the command by itself, and between the delimiters they have the same nodes. -/
theorem parse_arithmeticCommand {options : Options} {token : Option Bool} {tree : Tree} {e : String}
    {echoed expansion : Node} (hline : '\n' ∉ e.toList)
    (h : parse (.ofString ("echo $((" ++ e ++ "))")) options token = .ok tree)
    (herrors : tree.errors = []) (hchildren : tree.root.withoutComments.children = [echoed])
    (hkind : echoed.kind = .command) (hargument : echoed.children.tail = [expansion])
    (hexpansion : expansion.kind = .arithmeticExpansion)
    (hguess : DoubleParen.startsLikeCommand (e ++ "))").toList = false) :
    ∃ tree' test, parse (.ofString ("((" ++ e ++ "))")) options token = .ok tree' ∧
      tree'.errors = [] ∧ tree'.root.withoutComments.children = [test] ∧
      test.kind = .testCommand ∧
      test.children.head? = some (.leaf (.token "((") (.ofWidth 0 2)) ∧
      expansion.children.tail = moved 6 test.children.tail := by
  let outer : Env := ⟨.ofString ("echo $((" ++ e ++ "))"), options, token.getD false⟩
  let inner : Env := ⟨.ofString ("((" ++ e ++ "))"), options, token.getD false⟩
  have hecho : Echoes outer.source (e ++ "))").toList := by
    simp [Echoes, outer, Source.ofString]
  have hgroups : Groups inner.source (e ++ "))").toList := by
    simp [Groups, inner, Source.ofString]
  have hline' : '\n' ∉ outer.source.text.toList := by
    rw [hecho]
    simp [hline]
  obtain ⟨bare, final, hscript, hparse⟩ := isParse_of_parse h
  have hclean : final.IsClean := by
    have hnone : final.diagnostics = [] := by
      rw [← hparse.diagnostics_eq]
      exact List.map_eq_nil_iff.1 herrors
    exact ⟨hnone, hparse.sound.running_of_clean hnone⟩
  have hbare : ∀ {env bare final}, IsScript env bare final →
      Node.withoutCommentsAll bare.children = bare.children := fun h =>
    Node.All.withoutCommentsAll_eq _ (h.genuine.imp fun _ hnode => hnode.ne_comment)
  rw [hparse.withoutComments_children, hbare hparse.toIsScript] at hchildren
  obtain ⟨bare', final', test, hscript', hclean', hroot, htest, hopener, hinside⟩ :=
    script_command hgroups hecho rfl rfl hline' hguess hscript hparse.toIsScript hclean hchildren
      hkind hargument hexpansion
  have hparse' := parse_eq (.ofString ("((" ++ e ++ "))")) options token
  rw [hscript'] at hparse'
  obtain ⟨_, _, hscript'', his⟩ := isParse_of_parse hparse'
  cases hscript'.symm.trans hscript''
  refine ⟨_, test, hparse', ?_, ?_, htest, hopener, hinside⟩
  . simp [Tree.errors, hclean'.diagnostics_eq]
  . rw [his.withoutComments_children, hbare his.toIsScript, hroot]

/-- An expansion behind `echo` with an operation on a name and a number, with so many blanks on either
side of the operator. -/
def operationExpansion (op : String) (blanks : Nat) : Node :=
  let operation : Node := ⟨.binaryArithmeticExpression, .ofWidth 8 (3 + 2 * blanks),
    [.leaf .word (.ofWidth 8 1), .leaf (.token op) (.ofWidth (9 + blanks) 1),
      .leaf .number (.ofWidth (10 + 2 * blanks) 1)]⟩
  ⟨.arithmeticExpansion, .ofWidth 5 (8 + 2 * blanks),
    [openerLeaf, operation, .leaf (.token "))") (.ofWidth (11 + 2 * blanks) 2)]⟩

def echoedOperation (op : String) (blanks : Nat) : Node :=
  ⟨.command, .ofWidth 0 (13 + 2 * blanks), [echoName, operationExpansion op blanks]⟩

theorem parse_arithmeticCommand_sum :
    ∃ tree test, parse (.ofString ("((" ++ "x+1" ++ "))")) = .ok tree ∧ tree.errors = [] ∧
      tree.root.withoutComments.children = [test] ∧ test.kind = .testCommand ∧
      moved 6 test.children.tail = (operationExpansion "+" 0).children.tail := by
  have htree : (parse (.ofString ("echo $((" ++ "x+1" ++ "))"))).toOption.map
      (fun tree => (tree.errors, tree.root.withoutComments.children)) =
        some ([], [echoedOperation "+" 0]) := by
    decide +kernel
  obtain ⟨tree, htree, hfound⟩ := exists_of_map htree
  obtain ⟨herrors, hchildren⟩ := Prod.mk.inj hfound
  obtain ⟨tree', test, htree', herrors', hchildren', htest, _, hinside⟩ :=
    parse_arithmeticCommand (by decide) htree herrors hchildren rfl rfl rfl (by decide)
  exact ⟨tree', test, htree', herrors', hchildren', htest, hinside.symm⟩

/-- Behind a name and a blank a sign is taken for the start of an argument. -/
theorem parse_arithmeticCommand_difference :
    ∃ tree tree' echoed expansion, parse (.ofString ("echo $((" ++ "x - 1" ++ "))")) = .ok tree ∧
      tree.errors = [] ∧ tree.root.withoutComments.children = [echoed] ∧
      echoed.kind = .command ∧ echoed.children.tail = [expansion] ∧
      expansion.kind = .arithmeticExpansion ∧
      parse (.ofString ("((" ++ "x - 1" ++ "))")) = .ok tree' ∧
      tree'.root.withoutComments.children.map (·.kind) = [.subshell] := by
  have htree : (parse (.ofString ("echo $((" ++ "x - 1" ++ "))"))).toOption.map
      (fun tree => (tree.errors, tree.root.withoutComments.children)) =
        some ([], [echoedOperation "-" 1]) := by
    decide +kernel
  have htree' : (parse (.ofString ("((" ++ "x - 1" ++ "))"))).toOption.map
      (·.root.withoutComments.children.map (·.kind)) = some [.subshell] := by
    decide +kernel
  obtain ⟨tree, htree, hfound⟩ := exists_of_map htree
  obtain ⟨herrors, hchildren⟩ := Prod.mk.inj hfound
  obtain ⟨tree', htree', hkinds⟩ := exists_of_map htree'
  exact ⟨tree, tree', _, _, htree, herrors, hchildren, rfl, rfl, rfl, htree', hkinds⟩

end ShellTree
