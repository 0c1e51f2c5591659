import ShellTree.Parse.Token
import ShellTree.Proofs.Written.Lexer
import ShellTree.Proofs.Written.Runs

/-!
This module contains the runs of a parse over the tokens of written phrases: what is seen of a
token, and the leaf that it becomes.
-/

namespace ShellTree
namespace Parse

open Lexer
open Phrase (Written tokenAt)

variable {env : Env} {c : Setting} {p place : Nat} {flags : Flags} {tok : Token}
variable {kind : NodeKind} {text : String} {glued : Bool} {ps : List Phrase} {rest : List Char}
variable {before : List Heredoc.Request}

/-! ### What comes next -/

theorem Setting.mode_state (c : Setting) (p n : Nat) : (c.state p n).mode = c.mode := by
  obtain ⟨mode, outer, depth⟩ := c
  cases mode <;> rfl

theorem peekWith_state {a s : Bool}
    (h : Comes env.source p c.mode { assignment := a, statementStart := s } tok) (n : Nat) :
    peekWith { assignment := a, statementStart := s } env (c.state p n) =
      .ok (tok, c.state p n) := by
  refine bind_run.2 ⟨c.state p n, _, rfl, ?_⟩
  rw [show (c.state p n).halted = false from rfl, if_neg Bool.false_ne_true]
  refine bind_run.2 ⟨env.source, _, rfl, bind_run.2 ⟨(tok, []), c.state p n, ?_, rfl⟩⟩
  rw [Setting.mode_state]
  change (liftM (next env.source p c.mode { assignment := a, statementStart := s }) : Parse _)
    _ _ = _
  rw [h]
  rfl

theorem runs_peekWith {a s : Bool}
    (h : Comes env.source p c.mode { assignment := a, statementStart := s } tok) :
    Runs env c p (peekWith { assignment := a, statementStart := s }) tok p :=
  .of_eq (peekWith_state h)

theorem runs_peek (h : Comes env.source p c.mode {} tok) : Runs env c p peek tok p :=
  .of_eq fun n => peekWith_state h n

theorem runs_peekPlain (h : Comes env.source p c.mode {} tok) : Runs env c p peekPlain tok p :=
  runs_peekWith h

theorem runs_peekStatement
    (h : Comes env.source p c.mode { assignment := true, statementStart := true } tok) :
    Runs env c p peekStatement tok p := runs_peekWith h

theorem runs_peekAssignment (h : Comes env.source p c.mode { assignment := true } tok) :
    Runs env c p peekAssignment tok p := runs_peekWith h

/-! ### Leaves and nodes -/

theorem tokenAt_stop (tokenKind : TokenKind) :
    (tokenAt place tokenKind text glued).span.stop =
      (Phrase.leaf kind text glued).stop place := by
  rw [Phrase.stop, Phrase.spelling, byteLength_append, ← Nat.add_assoc]
  rfl

theorem tokenAt_adjacent {tokenKind : TokenKind} (hplace : place ≠ 0) :
    (tokenAt place tokenKind text false).adjacent = false := by
  simp [tokenAt, Phrase.gap, hplace]

theorem leads_leafAt {tokenKind : TokenKind} :
    Leads env c p before (leafAt kind (tokenAt place tokenKind text glued).span)
      ((Phrase.leaf kind text glued).nodeAt place)
      ((Phrase.leaf kind text glued).stop place) before := by
  rw [Phrase.nodeAt_leaf, ← tokenAt_stop tokenKind]
  exact (leads_setPosition _).bind (Leads.pure _)

theorem leads_tokenLeaf (kind : NodeKind) {tokenKind : TokenKind} (hkind : kindOf tokenKind = kind)
    (herror : tokenKind ≠ .error) :
    Leads env c p before (tokenLeaf (tokenAt place tokenKind text glued))
      ((Phrase.leaf kind text glued).nodeAt place)
      ((Phrase.leaf kind text glued).stop place) before := by
  unfold tokenLeaf
  have hkind' : (tokenAt place tokenKind text glued).kind = tokenKind := rfl
  rw [hkind', hkind, if_neg herror]
  exact leads_leafAt

theorem leads_keywordLeaf {tokenKind : TokenKind} (htext : text ∈ Keyword.all) :
    Leads env c p before (keywordLeaf (tokenAt place tokenKind text glued))
      ((Phrase.leaf (.token text) text glued).nodeAt place)
      ((Phrase.leaf (.token text) text glued).stop place) before := by
  have hkeyword : Keyword.keyword? text = some text := by simp [Keyword.keyword?, htext]
  have hkind : ((Keyword.keyword? (tokenAt place tokenKind text glued).text).map
      NodeKind.token).getD .word = .token text := by
    rw [show (tokenAt place tokenKind text glued).text = text from rfl, hkeyword]
    rfl
  unfold keywordLeaf
  rw [hkind]
  exact leads_leafAt

/-- A node around phrases is the phrase around them. -/
theorem leads_node (hps : ps ≠ []) {nodes : List Node} (hnodes : nodes = Phrase.nodesAt place ps) :
    Leads env c p before (node kind nodes) ((Phrase.node kind ps).nodeAt place) p before := by
  subst hnodes
  obtain ⟨last, hlast, hstop⟩ := Phrase.getLast?_nodesAt place hps
  obtain ⟨first, ps, rfl⟩ := List.exists_cons_of_ne_nil hps
  have hle : first.start place ≤ Phrase.stopAll (first.stop place) ps :=
    Nat.le_trans (Phrase.start_le_stop place first) (Phrase.le_stopAll _ ps)
  have hle' : (first.nodeAt place).span.start ≤ last.span.stop := by
    rw [Phrase.nodeAt_span, Phrase.span_start, hstop, Phrase.stopAll_cons]
    exact hle
  unfold node
  rw [hlast, Phrase.nodesAt_cons, List.head?_cons, Phrase.nodeAt_node, Phrase.nodesAt_cons]
  refine (leads_spanBetween hle').bind ?_
  have hspan : (⟨(first.nodeAt place).span.start, last.span.stop, hle'⟩ : Span) =
      (Phrase.node kind (first :: ps)).span place := by
    rw [Phrase.span_node]
    apply Span.eq_of_stop_eq
    . simp
    . rw [hstop, Phrase.stopAll_cons]
      exact (Nat.add_sub_cancel' hle).symm
  rw [hspan]
  exact Leads.pure _

end Parse

end ShellTree
