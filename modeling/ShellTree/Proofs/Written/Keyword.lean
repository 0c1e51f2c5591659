import ShellTree.Proofs.Written.StatementList

/-!
This module contains the keywords and operators of written constructs: how they are read where a
construct insists on them, and which of them end the lists of statements in it.
-/

namespace ShellTree
namespace Grammar

open Parse Lexer
open Phrase (Written tokenAt following)

variable {env : Env} {c : Setting} {place : Nat} {inner : Nested} {tok : Token} {text : String}
variable {kind : NodeKind} {glued : Bool} {ps : List Phrase} {rest : List Char} {ctx : ListContext}
variable {construct : Construct} {start : Nat}

/-! ### Keywords -/

theorem isPlainWord_keyword (htext : text ∈ Keyword.all) (hne : text ≠ "!") :
    IsPlainWord text.toList := by
  have hall : ∀ text ∈ Keyword.all, text ≠ "!" → text.toList ≠ [] ∧
      (∀ c ∈ text.toList, isPlain c) ∧
      ((∀ c ∈ text.toList, isNameChar c) ∨ ∀ c ∈ text.toList, isNameStart c = false) := by decide
  obtain ⟨hnil, hplain, htarget⟩ := hall text htext hne
  exact ⟨hnil, hplain, htarget⟩

theorem isSpaced_keyword (htext : text ∈ Keyword.all) : (Phrase.token text).IsSpaced := by
  have hnil : ∀ text ∈ Keyword.all, text.toList ≠ [] := by decide
  exact .leaf (hnil text htext)

theorem lt_stop_keyword (htext : text ∈ Keyword.all) : place < (Phrase.token text).stop place :=
  (isSpaced_keyword htext).lt_stop place

theorem stop_keyword_ne_zero (htext : text ∈ Keyword.all) :
    (Phrase.token text).stop place ≠ 0 := (isSpaced_keyword htext).stop_ne_zero

theorem comes_keyword {a s : Bool} (htext : text ∈ Keyword.all) (hne : text ≠ "!")
    (h : Written env.source place (.token text :: ps) rest)
    (hends : EndsWord (following ((Phrase.token text).stop place) ps rest)) :
    Comes env.source place .command { assignment := a, statementStart := s }
      (tokenAt place .word text false) :=
  comes_word h (isPlainWord_keyword htext hne) hends

theorem isKeyword_of_written (keyword : String)
    (h : Written env.source place (.leaf kind text glued :: ps) rest)
    (hends : EndsWord (following ((Phrase.leaf kind text glued).stop place) ps rest)) :
    isKeyword env.source (tokenAt place .word text glued) keyword = (text == keyword) := by
  unfold isKeyword
  rw [isBareWord_of_written h hends, Bool.true_and]
  rfl

theorem runs_expectKeyword (hmode : c.mode = .command) (htext : text ∈ Keyword.all)
    (hne : text ≠ "!") (h : Written env.source place (.token text :: ps) rest)
    (hends : EndsWord (following ((Phrase.token text).stop place) ps rest)) :
    Runs env c place (expectKeyword text construct start) [(Phrase.token text).nodeAt place]
      ((Phrase.token text).stop place) := by
  have hcomes := comes_keyword (a := true) (s := true) htext hne h hends
  rw [← hmode] at hcomes
  unfold expectKeyword
  refine (runs_peekStatement hcomes).bind (leads_source.bind ?_)
  rw [isKeyword_of_written text h hends, if_pos (beq_self_eq_true text)]
  exact (leads_keywordLeaf htext).map _

/-- A statement that a keyword opens. -/
theorem runs_keywordStatement {compound : Parse Node} {found : Node} {q : Nat}
    (hcompound : compoundOf? inner text = some compound) (htext : text ∈ Keyword.all)
    (hne : text ≠ "!") (hmode : c.mode = .command) (hdepth : c.depth < env.options.maxDepth)
    (h : Written env.source place (.token text :: ps) rest)
    (hends : EndsWord (following ((Phrase.token text).stop place) ps rest))
    (hruns : Runs env c.deeper place compound found q) :
    Runs env c place (primaryStatement inner) (some found) q := by
  have hcomes := comes_keyword (a := true) (s := true) htext hne h hends
  have hmode' : c.deeper.mode = .command := hmode
  rw [← hmode'] at hcomes
  apply runs_nest hdepth
  unfold primaryBody
  refine (runs_peekStatement hcomes).bind ?_
  refine leads_source.bind ?_
  rw [isBareWord_of_written h hends, if_pos rfl]
  unfold wordStatement
  rw [show (tokenAt place .word text false).text = text from rfl, hcompound]
  exact hruns.map some

/-! ### Operators -/

theorem runs_expectOperator
    (h : Comes env.source place c.mode {} (tokenAt place (.operator text) text glued)) :
    Runs env c place (expectOperator text construct start)
      [(Phrase.leaf (.token text) text glued).nodeAt place]
      ((Phrase.leaf (.token text) text glued).stop place) := by
  unfold expectOperator
  refine (runs_peek h).bind ?_
  rw [if_pos (by simp [Token.isOperator, tokenAt])]
  exact (leads_tokenLeaf _ rfl (by simp)).map _

theorem runs_acceptOperator
    (h : Comes env.source place c.mode {} (tokenAt place (.operator text) text glued)) :
    Runs env c place (acceptOperator text)
      [(Phrase.leaf (.token text) text glued).nodeAt place]
      ((Phrase.leaf (.token text) text glued).stop place) := by
  unfold acceptOperator
  refine (runs_peek h).bind ?_
  rw [if_pos (by simp [Token.isOperator, tokenAt])]
  exact (leads_tokenLeaf _ rfl (by simp)).map _

theorem runs_acceptOperator_none (h : Comes env.source place c.mode {} tok)
    (hne : tok.isOperator text = false) :
    Runs env c place (acceptOperator text) [] place := by
  unfold acceptOperator
  refine (runs_peek h).bind ?_
  rw [hne, if_neg Bool.false_ne_true]
  exact Leads.pure _

/-! ### Ends of lists -/

/-- What comes next closes a list of statements. -/
def ClosesList (src : Source) (ctx : ListContext) (place : Nat) : Prop :=
  ∃ tok, Comes src place .command { assignment := true, statementStart := true } tok ∧
    tok.isEof = false ∧ tok.kind ≠ .newline ∧ endsList src ctx tok

/-- What comes next closes a list of statements and is parted from it. -/
structure EndsList (src : Source) (ctx : ListContext) (place : Nat) (ps : List Phrase)
    (rest : List Char) : Prop where
  parted : Parted (following place ps rest)
  next : ClosesList src ctx place

theorem endsList_keyword (htext : text ∈ Keyword.closing) (hplace : place ≠ 0)
    (h : Written env.source place (.token text :: ps) rest)
    (hends : EndsWord (following ((Phrase.token text).stop place) ps rest)) :
    EndsList env.source ctx place (.token text :: ps) rest := by
  have hall : ∀ text ∈ Keyword.closing, text ∈ Keyword.all ∧ text ≠ "!" := by decide
  refine ⟨parted_following hplace rfl, _, comes_keyword (hall text htext).1 (hall text htext).2 h
    hends, rfl, nofun, ?_⟩
  change (isBareWord env.source (tokenAt place .word text false) &&
    Keyword.closing.contains text) = true
  rw [isBareWord_of_written h hends]
  simpa using htext

theorem endsList_operator (htext : text = ")" ∨ ctx.inCaseItem ∧ text = ";;") (hplace : place ≠ 0)
    (h : Written env.source place (.token text :: ps) rest)
    (hafter : EndsOperator (following ((Phrase.token text).stop place) ps rest)) :
    EndsList env.source ctx place (.token text :: ps) rest := by
  have hop : text ∈ separators := by
    rcases htext with rfl | ⟨_, rfl⟩
    all_goals decide
  refine ⟨parted_following hplace rfl, _, comes_separator hop h hafter, rfl, nofun, ?_⟩
  rcases htext with rfl | ⟨hitem, rfl⟩
  . rfl
  . simp [endsList, tokenAt, hitem, Operator.caseTerminators]

theorem EndsList.node {src : Source} {parts : List Phrase}
    (h : EndsList src ctx place (parts ++ ps) rest) :
    EndsList src ctx place (.node kind parts :: ps) rest :=
  ⟨by rw [Phrase.following_node]; exact h.parted, h.next⟩

theorem runs_listStep_closed (henv : env.Unlimited) (hmode : c.mode = .command)
    (htop : ctx.topLevel = false) (h : ClosesList env.source ctx place) (nodes : List Node) :
    Runs env c place (listStep inner ctx nodes) (.done nodes) place := by
  obtain ⟨tok, hcomes, heof, hnewline, hlist⟩ := h
  rw [← hmode] at hcomes
  unfold listStep
  refine (runs_tick henv).bind ?_
  rw [if_pos rfl]
  refine (runs_peekStatement hcomes).bind ?_
  rw [heof, if_neg Bool.false_ne_true, if_neg hnewline]
  refine leads_source.bind ?_
  rw [hlist, if_pos rfl, htop, if_neg Bool.false_ne_true]
  exact Leads.pure _

end Grammar

end ShellTree
