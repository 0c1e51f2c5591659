import ShellTree.Proofs.Clean
import ShellTree.Proofs.Line
import ShellTree.Proofs.Written.ArithmeticTree

/-!
This module contains what is known of an expression from the command `echo $(( ... ))`. The command
is read forwards up to its argument, whatever that is, and backwards from its tree: where the tree
shows an arithmetic expansion and nothing is reported, the expression was read up to its closing
parentheses.
-/

namespace ShellTree
namespace Grammar

open Parse Lexer
open Phrase (Written tokenAt following)

variable {env : Env} {c : Setting} {s' : State} {inner : Nested} {cs : List Char}

/-- The source is `echo` with what a `$((` opens before the characters. -/
def Echoes (src : Source) (cs : List Char) : Prop := src.text.toList = "echo $((".toList ++ cs

def echoToken : Token := tokenAt 0 .word CommandName.echo.text false

def echoLeaf : Node := .leaf .word (.ofWidth 0 4)

def echoName : Node := ⟨.commandName, .ofWidth 0 4, [echoLeaf]⟩

section

variable (h : Echoes env.source cs)

include h

theorem written_echo :
    Written env.source 0 [.leaf .word CommandName.echo.text false, .token "$(("] cs := by
  rw [Written, Source.tail?_eq, h]
  rfl

theorem written_dollar : Written env.source 4 [.token "$("] ('(' :: cs) :=
  (written_echo h).tail

theorem comes_echo {a s : Bool} :
    Comes env.source 0 .command { assignment := a, statementStart := s } echoToken :=
  comes_word (written_echo h) CommandName.echo.isPlainWord
    (parted_following (by decide) rfl).endsWord

theorem isBareWord_echo : isBareWord env.source echoToken = true :=
  isBareWord_of_written (written_echo h) (parted_following (by decide) rfl).endsWord

theorem comes_dollar : ∃ tok, Comes env.source 4 .command {} tok ∧ tok.adjacent = false ∧
    (tok.kind = .operator "$(" ∨ DoubleParen.opensSubshell cs = false ∧
      tok = tokenAt 4 (.operator "$((") "$((" false) := by
  cases hshows : DoubleParen.opensSubshell cs with
  | false =>
    exact ⟨_, comes_doubleParen (a := false) (s := false) (written_echo h).tail hshows, rfl,
      .inr ⟨rfl, rfl⟩⟩
  | true =>
    refine ⟨tokenAt 4 (.operator "$(") "$(" false, ?_, rfl, .inl rfl⟩
    apply comes_of_solid (written_dollar h) (by decide) rfl
    refine (tokenOf_of_isSolid _ _ _ (by decide)).trans ?_
    change Lexer.command _ ('$' :: '(' :: '(' :: cs) = _
    simp [Lexer.command, closer?_eq_none, Lexeme.quoteOrDollar?, hshows]

end

section

variable (h : Echoes env.source cs) (hmode : c.mode = .command) (n : Nat)

include h hmode

theorem peekWith_echo (a s : Bool) :
    peekWith { assignment := a, statementStart := s } env (c.state 0 n) =
      .ok (echoToken, c.state 0 n) := by
  apply peekWith_state
  rw [hmode]
  exact comes_echo h

theorem exists_dollar : ∃ tok, peekPlain env (c.state 4 n) = .ok (tok, c.state 4 n) ∧
    tok.adjacent = false ∧ (tok.kind = .operator "$(" ∨ DoubleParen.opensSubshell cs = false ∧
      tok = tokenAt 4 (.operator "$((") "$((" false) := by
  obtain ⟨tok, hcomes, htok⟩ := comes_dollar h
  rw [← hmode] at hcomes
  exact ⟨tok, peekWith_state (a := false) (s := false) hcomes n, htok⟩

theorem plainFunction?_echo : plainFunction? inner env (c.state 0 n) = .ok (none, c.state 0 n) := by
  obtain ⟨tok, hpeek, _, hkind⟩ := exists_dollar h hmode n
  have hnot : tok.isOperator "(" = false := by
    obtain hkind | ⟨_, rfl⟩ := hkind
    . simp [Token.isOperator, hkind]
    . rfl
  have hhead : functionHead? env (c.state 0 n) = .ok (none, c.state 4 n) := by
    unfold functionHead?
    refine bind_run.2 ⟨echoToken, _, peekWith_echo h hmode n true true, ?_⟩
    refine bind_run.2 ⟨echoLeaf, c.state 4 n, rfl, bind_run.2 ⟨tok, _, hpeek, ?_⟩⟩
    rw [hnot, if_neg Bool.false_ne_true]
    rfl
  unfold plainFunction?
  refine bind_run.2 ⟨none, c.state 0 n, bind_run.2 ⟨_, _, rfl, ?_⟩, rfl⟩
  exact bind_run.2 ⟨none, _, hhead, rfl⟩

theorem fragment_echo (hdepth : c.depth < env.options.maxDepth) :
    fragment inner env (c.state 0 n) = .ok (some echoLeaf, c.state 4 n) := by
  have hliteral : echoToken.isLiteralStart = true := rfl
  unfold fragment
  refine bind_run.2 ⟨echoToken, _, peekWith_echo h hmode n false false, ?_⟩
  rw [hliteral, if_pos rfl]
  exact bind_run.2 ⟨true, _, enter_state hdepth 0 n,
    bind_run.2 ⟨some echoLeaf, c.deeper.state 4 n, rfl, rfl⟩⟩

theorem literal_echo (hdepth : c.depth < env.options.maxDepth) :
    literal inner env (c.state 0 n) = .ok (some echoLeaf, c.state 4 n) := by
  obtain ⟨tok, hpeek, hglued, _⟩ := exists_dollar h hmode n
  have hloop : repeatStep (literalStep inner) [echoLeaf] (fun _ => remaining) env (c.state 4 n) =
      .ok ([echoLeaf], c.state 4 n) := by
    apply repeatStep_run
    refine bind_run.2 ⟨tok, _, hpeek, ?_⟩
    rw [hglued, Bool.false_and, if_neg Bool.false_ne_true]
    rfl
  unfold literal
  refine bind_run.2 ⟨_, _, fragment_echo h hmode n hdepth, bind_run.2 ⟨_, _, hloop, rfl⟩⟩

theorem commandHead_echo :
    repeatStep (commandHeadStep inner) [] (fun _ => remaining) env (c.state 0 n) =
      .ok ([], c.state 0 n) := by
  apply repeatStep_run
  exact bind_run.2 ⟨echoToken, _, peekWith_echo h hmode n true false, rfl⟩

theorem command_echo (hdepth : c.depth < env.options.maxDepth) :
    command inner env (c.state 0 n) = (do
      node .command (← repeatStep (argumentStep inner) [echoName])) env (c.state 4 n) := by
  have hpeek : peek env (c.state 0 n) = .ok (echoToken, c.state 0 n) :=
    peekWith_echo h hmode n false false
  have hname : node .commandName [echoLeaf] env (c.state 4 n) = .ok (echoName, c.state 4 n) := rfl
  unfold command
  rw [bind_eq_of_run (commandHead_echo h hmode n), bind_eq_of_run hpeek,
    bind_eq_of_run (literal_echo h hmode n hdepth)]
  dsimp only
  rw [bind_eq_of_run hname]
  rfl

theorem primaryBody_echo :
    primaryBody inner env (c.state 0 n) = (do
      return some (← command inner)) env (c.state 0 n) := by
  have hpeek : peekStatement env (c.state 0 n) = .ok (echoToken, c.state 0 n) :=
    peekWith_echo h hmode n true true
  have hsource : source env (c.state 0 n) = .ok (env.source, c.state 0 n) := rfl
  unfold primaryBody
  rw [bind_eq_of_run hpeek, show echoToken.kind = .word from rfl]
  dsimp only
  rw [bind_eq_of_run hsource, isBareWord_echo h, if_pos rfl,
    show echoToken.text = CommandName.echo.text from rfl, wordStatement_name,
    bind_eq_of_run (plainFunction?_echo h hmode n)]

end

/-! ### Backwards from the tree -/

variable {n : Nat} {expansion : Node}

theorem parenthesizedSubstitution_returns_kind (kind : NodeKind) (construct : Construct) :
    Returns (parenthesizedSubstitution inner kind construct) (·.kind = kind) := by
  unfold parenthesizedSubstitution
  iterate 3 apply returns_bind; intro
  exact kind_returns

theorem argument_echo (h : Echoes env.source cs) (hmode : c.mode = .command)
    (hinner : inner.Framed env)
    (hrun : repeatStep (argumentStep inner) [echoName] (fun _ => remaining) env (c.state 4 n) =
      .ok ([echoName, expansion], s'))
    (hclean : s'.IsClean) (hkind : expansion.kind = .arithmeticExpansion) :
    DoubleParen.opensSubshell cs = false ∧ ∃ s₁,
      arithmeticExpansion inner env (c.deeper.state 4 n) = .ok (expansion, s₁) ∧ s₁.IsClean := by
  obtain ⟨tok, hpeek, _, htok⟩ := exists_dollar h hmode n
  have hliteral : tok.isLiteralStart = true := by
    obtain htok | ⟨_, rfl⟩ := htok
    . simp [Token.isLiteralStart, htok, Operator.fragmentOpeners]
    . rfl
  obtain ⟨_, result, s₁, hstep, hclean₁, hparts, hends⟩ :=
    repeatStep_collects hrun hclean (argumentStep_frames hinner) argumentStep_extends
  unfold argumentStep at hstep
  obtain ⟨_, _, hpeek', hstep⟩ := bind_run.1 hstep
  cases hpeek.symm.trans hpeek'
  rw [hliteral, if_pos rfl] at hstep
  obtain ⟨argument, s₂, hargument, hstep⟩ := bind_run.1 hstep
  cases argument with
  | none =>
    cases hstep
    simpa using hends _ rfl
  | some argument =>
    cases hstep
    obtain ⟨_, heq⟩ := hparts
    cases heq
    obtain ⟨_, s₃, hfragment, hclean₃, hfirst⟩ := literal_clean hinner hargument hclean₁
    rw [hfirst (by simp [hkind])] at hfragment
    obtain ⟨_, _, s₄, s₅, hpeek', hpart, rfl⟩ := fragment_clean hfragment hclean₃
    cases hpeek.symm.trans hpeek'
    obtain htok | ⟨hopens, rfl⟩ := htok
    . unfold fragmentOf at hpart
      rw [htok] at hpart
      have hkind' := parenthesizedSubstitution_returns_kind _ _ _ _ _ _ hpart
      simp [hkind] at hkind'
    . exact ⟨hopens, s₅, hpart, hclean₃.1, hclean₃.2⟩

/-- The opener of the expansion. -/
def openerLeaf : Node := .leaf (.token "$((") (.ofWidth 5 3)

theorem arithmeticExpansion_echo (h : Echoes env.source cs) (hmode : c.mode = .command)
    (hopens : DoubleParen.opensSubshell cs = false)
    (hrun : arithmeticExpansion inner env (c.state 4 n) = .ok (expansion, s'))
    (hclean : s'.IsClean) :
    ∃ parts s₁, arithmeticBody inner .arithmeticExpansion 5 env ((c.inside .arithmetic).state 8 n) =
        .ok (parts, s₁) ∧ s₁.IsClean ∧ expansion.children = openerLeaf :: parts ∧
      expansion.span.stop = s₁.pos := by
  have hpeek : peek env (c.state 4 n) = .ok (tokenAt 4 (.operator "$((") "$((" false,
      c.state 4 n) := by
    apply peekWith_state (a := false) (s := false)
    rw [hmode]
    exact comes_doubleParen (written_echo h).tail hopens
  unfold arithmeticExpansion at hrun
  rw [bind_eq_of_run hpeek] at hrun
  obtain ⟨_, _, hleaf, hrun⟩ := bind_run.1 hrun
  cases hleaf
  obtain ⟨parts, s₁, hparts, hrun⟩ := bind_run.1 hrun
  obtain ⟨rfl, _, hchildren, hstop⟩ := node_ensures _ _ _ _ hrun
  obtain ⟨s₂, hflags, rfl⟩ := inMode_run.1 hparts
  obtain ⟨s₃, hbody, rfl⟩ := withFlags_run.1 hflags
  have hclean₃ : s₃.IsClean := ⟨hclean.1, hclean.2⟩
  obtain ⟨_, close, hlast, hpos⟩ := arithmeticBody_clean hbody hclean₃
  refine ⟨parts, s₃, hbody, hclean₃, hchildren, ?_⟩
  rw [hstop close ?_, hpos]
  rw [List.getLast?_cons, Option.mem_def.1 hlast]
  rfl

/-- The name alone takes a level. -/
theorem depth_lt_of_command_echo {echoed : Node} (h : Echoes env.source cs)
    (hinner : inner.Framed env) (hclean : s'.IsClean) (hmode : c.mode = .command)
    (hrun : command inner env (c.state 0 n) = .ok (echoed, s')) :
    c.depth < env.options.maxDepth := by
  unfold command at hrun
  obtain ⟨_, s₀, hhead, hrun⟩ := bind_run.1 hrun
  cases (commandHead_echo h hmode n).symm.trans hhead
  obtain ⟨_, _, hpeek, hrun⟩ := bind_run.1 hrun
  cases (peekWith_echo h hmode n false false).symm.trans hpeek
  obtain ⟨name, s₁, hliteral, hrun⟩ := bind_run.1 hrun
  cases name with
  | none =>
    obtain ⟨_, _, hreport, hrun⟩ := bind_run.1 hrun
    obtain ⟨rfl, _⟩ := node_ensures _ _ _ _ hrun
    exact absurd hclean (not_isClean_of_report hreport)
  | some name =>
    obtain ⟨extra, hname⟩ := exists_shallow env s₁.depth [name]
    have hframes : Frames env s₁.depth extra (do
        let name ← Parse.node .commandName [name]
        let parts ← repeatStep (argumentStep inner) ([] ++ [name])
        Parse.node .command parts) := by
      apply (node_frames rfl hname).bind
      intro name hname
      apply (loop_frames (by simpa using hname) fun _ => argumentStep_frames hinner).bind
      intro parts hparts
      exact node_frames rfl hparts
    obtain ⟨_, _, hfragment, hclean₂, _⟩ :=
      literal_clean hinner hliteral ((hframes _ _ _ hrun rfl).1.isClean hclean)
    exact (fragment_clean hfragment hclean₂).1

/-- How the command was read that has an arithmetic expansion as its argument. -/
structure EchoesExpansion (env : Env) (inner : Nested) (c : Setting) (n : Nat) (cs : List Char)
    (echoed expansion : Node) (parts : List Node) (s : State) : Prop where
  children_eq : echoed.children = [echoName, expansion]
  parts_eq : expansion.children = openerLeaf :: parts
  depth_lt : c.depth < env.options.maxDepth
  opens : DoubleParen.opensSubshell cs = false
  body : arithmeticBody inner .arithmeticExpansion 5 env
    ((c.deeper.inside .arithmetic).state 8 n) = .ok (parts, s)
  clean : s.IsClean
  stop_eq : echoed.span.stop = s.pos

section

variable {echoed : Node} (h : Echoes env.source cs) (hinner : inner.Framed env)
variable (hclean : s'.IsClean) (hargument : echoed.children.tail = [expansion])
variable (hexpansion : expansion.kind = .arithmeticExpansion)

include h hinner hclean hargument hexpansion

theorem command_echo_clean (hmode : c.mode = .command)
    (hrun : command inner env (c.state 0 n) = .ok (echoed, s')) :
    ∃ parts s, EchoesExpansion env inner c n cs echoed expansion parts s := by
  have hdepth := depth_lt_of_command_echo h hinner hclean hmode hrun
  rw [command_echo h hmode n hdepth] at hrun
  obtain ⟨parts, s₁, hloop, hnode⟩ := bind_run.1 hrun
  obtain ⟨rfl, _, rfl, hstop⟩ := node_ensures _ _ _ _ hnode
  obtain ⟨_, _, _, hstep, _, hparts, _⟩ :=
    repeatStep_collects hloop hclean (argumentStep_frames hinner) argumentStep_extends
  obtain ⟨_, heq⟩ := (argumentStep_extends [echoName] _ _ _ _ hstep).trans hparts
  have hchildren : echoed.children = [echoName, expansion] := by
    rw [← heq] at hargument ⊢
    rw [← hargument]
    rfl
  rw [hchildren] at hloop hstop
  obtain ⟨hopens, s₂, hrun, hclean₂⟩ := argument_echo h hmode hinner hloop hclean hexpansion
  obtain ⟨inside, s₃, hbody, hclean₃, hinside, hpos⟩ :=
    arithmeticExpansion_echo (c := c.deeper) h hmode hopens hrun hclean₂
  exact ⟨inside, s₃, hchildren, hinside, hdepth, hopens, hbody, hclean₃,
    (hstop expansion rfl).trans hpos⟩

theorem statement_echo_clean {tier : Tier} (hmode : c.mode = .command)
    (hrun : statement inner tier env (c.state 0 n) = .ok (some echoed, s'))
    (hkind : echoed.kind = .command) :
    ∃ parts s, EchoesExpansion env inner c.deeper n cs echoed expansion parts s := by
  obtain ⟨s₁, hprimary, hclean₁⟩ := statement_clean hinner hrun hclean (by rw [hkind]; rfl)
  obtain ⟨_, s₂, hbody, rfl⟩ := nest_run_of_running hprimary hclean₁.running
  have hbody : primaryBody inner env (c.deeper.state 0 n) = .ok (some echoed, s₂) := hbody
  rw [primaryBody_echo (c := c.deeper) h hmode n] at hbody
  obtain ⟨_, _, hcommand, hbody⟩ := bind_run.1 hbody
  cases hbody
  have hclean₂ : s₂.IsClean := ⟨hclean₁.1, hclean₁.2⟩
  exact command_echo_clean (c := c.deeper) h hinner hclean₂ hargument hexpansion hmode hcommand

end

theorem primaryStatement_echo_ne_none (h : Echoes env.source cs) (hmode : c.mode = .command) :
    primaryStatement inner env (c.state 0 n) ≠ .ok (none, s') := by
  intro hrun
  unfold primaryStatement nest at hrun
  obtain ⟨entered, s₁, henter, hrun⟩ := bind_run.1 hrun
  cases entered with
  | true =>
    obtain ⟨_, rfl⟩ := enter_run henter
    obtain ⟨result, s₂, hbody, hrun⟩ := bind_run.1 hrun
    obtain ⟨_, _, _, hrun⟩ := bind_run.1 hrun
    cases hrun
    have hbody : primaryBody inner env (c.deeper.state 0 n) = .ok (none, s₂) := hbody
    rw [primaryBody_echo (c := c.deeper) h hmode n] at hbody
    obtain ⟨_, _, _, hbody⟩ := bind_run.1 hbody
    cases hbody
  | false =>
    obtain ⟨_, _, _, hrun⟩ := bind_run.1 hrun
    cases hrun

theorem statement_echo_ne_none {tier : Tier} (h : Echoes env.source cs)
    (hmode : c.mode = .command) : statement inner tier env (c.state 0 n) ≠ .ok (none, s') := by
  intro hrun
  unfold statement at hrun
  obtain ⟨result, s₁, hprimary, hrun⟩ := bind_run.1 hrun
  cases result with
  | none => exact primaryStatement_echo_ne_none h hmode hprimary
  | some left =>
    obtain ⟨_, _, _, hrun⟩ := bind_run.1 hrun
    cases hrun

/-- A list that is nothing but the command was read as one. -/
theorem statements_echo_clean {ctx : ListContext} {echoed : Node} (h : Echoes env.source cs)
    (hinner : inner.Framed env) (hrun : statements inner ctx env {} = .ok ([echoed], s'))
    (hclean : s'.IsClean) (hkind : echoed.kind = .command)
    (hargument : echoed.children.tail = [expansion])
    (hexpansion : expansion.kind = .arithmeticExpansion) :
    env.cancelled = false ∧ (∀ limit ∈ env.options.maxStatements, 0 < limit) ∧
      ∃ parts s, EchoesExpansion env inner ({} : Setting).deeper 1 cs echoed expansion parts s := by
  obtain ⟨_, result, s₁, hstep, hclean₁, hparts, hends⟩ :=
    repeatStep_collects hrun hclean (listStep_frames hinner ctx) (listStep_extends ctx)
  unfold listStep at hstep
  obtain ⟨proceeds, s₂, htick, hstep⟩ := bind_run.1 hstep
  cases proceeds with
  | false =>
    cases hstep
    simpa using hends [] rfl
  | true =>
    obtain ⟨rfl, hcancelled, hlimited⟩ := run_of_tick htick
    obtain ⟨_, _, hpeek, hstep⟩ := bind_run.1 hstep
    cases (peekWith_echo (c := {}) h rfl 1 true true).symm.trans hpeek
    obtain ⟨_, _, hsource, hstep⟩ := bind_run.1 hstep
    cases hsource
    rw [show endsList env.source ctx echoToken = false from endsList_name ctx .echo] at hstep
    obtain ⟨s₃, hstatement, hclean₃⟩ := listItemStep_clean hinner
      (fun _ => statement_echo_ne_none (c := {}) h rfl) hstep hclean₁ hparts
    exact ⟨hcancelled, hlimited,
      statement_echo_clean (c := {}) h hinner hclean₃ hargument hexpansion rfl hstatement hkind⟩

theorem script_echo_clean {root echoed : Node} (h : Echoes env.source cs)
    (hrun : script env {} = .ok (root, s')) (hclean : s'.IsClean)
    (hchildren : root.children = [echoed]) (hkind : echoed.kind = .command)
    (hargument : echoed.children.tail = [expansion])
    (hexpansion : expansion.kind = .arithmeticExpansion) :
    env.cancelled = false ∧ (∀ limit ∈ env.options.maxStatements, 0 < limit) ∧
      ∃ parts s, EchoesExpansion env (nested (env.source.size + 1)) ({} : Setting).deeper 1 cs
        echoed expansion parts s := by
  obtain ⟨nodes, rest, s₁, s₂, heq, hnodes, hreported, hrest⟩ := script_run hrun
  obtain ⟨rfl, hnone, _⟩ := unread_run hrest
  rw [hnone hclean.running, List.append_nil, hchildren] at heq
  subst heq
  have hclean₁ := reportPending_frames.isClean hreported hclean
  exact statements_echo_clean h (nested_framed env _) hnodes hclean₁ hkind hargument hexpansion

end Grammar
end ShellTree
