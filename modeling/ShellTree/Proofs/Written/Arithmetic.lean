import ShellTree.Proofs.Written.ArithmeticLexer
import ShellTree.Proofs.Written.Keyword

/-!
This module contains what it takes to read phrases as operands and expressions of arithmetic. An
expression of a row is read by climbing from its first operand, up to an operator of a looser row.
-/

namespace ShellTree

namespace Phrase

variable {place : Nat} {p : Phrase} {ps : List Phrase} {kind : NodeKind} {text : String}
variable {glued : Bool}

/-- Nothing in the phrase quotes, and its parentheses are closed in it. -/
def IsBalanced (p : Phrase) : Prop := ∀ place, DoubleParen.Balanced (p.spelling place)

theorem balanced_gap : DoubleParen.Balanced (gap glued place) := by
  apply DoubleParen.Balanced.of_quiet
  cases gap_eq glued place with
  | inl hnone => simp [hnone]
  | inr hspace =>
    rw [hspace]
    decide

theorem IsBalanced.leaf (hquiet : ∀ c ∈ text.toList, DoubleParen.isQuiet c) :
    IsBalanced (.leaf kind text glued) := by
  intro place
  rw [spelling]
  exact balanced_gap.append (.of_quiet hquiet)

theorem balanced_spellingAll (hps : ∀ p ∈ ps, p.IsBalanced) (place : Nat) :
    DoubleParen.Balanced (spellingAll place ps) := by
  induction ps generalizing place with
  | nil =>
    rw [spellingAll_nil]
    exact .nil
  | cons p ps ih =>
    have hrest := ih (fun q hq => hps q (List.mem_cons_of_mem p hq)) (p.stop place)
    rw [spellingAll_cons]
    exact (hps p List.mem_cons_self place).append hrest

theorem IsBalanced.parentheses (hp : p.IsBalanced) :
    IsBalanced (.node kind [.token "(", p, .token ")"]) := by
  intro place
  have hgap : ∀ place, DoubleParen.Balanced (gap false place) := fun _ => balanced_gap
  have hinside := (hp ((token "(").stop place)).append
    (hgap (p.stop ((token "(").stop place)))
  have hbalanced := (hgap place).append hinside.parentheses
  simpa [spellingAll_cons, token, spelling] using hbalanced

/-- What phrases of arithmetic have in common. -/
structure IsExact (p : Phrase) : Prop extends p.IsSpaced where
  balanced : p.IsBalanced

theorem IsExact.leaf (hne : text.toList ≠ [])
    (hquiet : ∀ c ∈ text.toList, DoubleParen.isQuiet c) : IsExact (.leaf kind text false) :=
  ⟨.leaf hne, .leaf hquiet⟩

theorem IsExact.node (hp : p.IsExact) (hps : ∀ q ∈ ps, q.IsBalanced) :
    IsExact (.node kind (p :: ps)) where
  toIsSpaced := hp.toIsSpaced.node ps
  balanced place := by
    rw [spelling_node]
    apply balanced_spellingAll
    intro q hq
    cases hq with
    | head => exact hp.balanced
    | tail _ hq => exact hps q hq

end Phrase

namespace Grammar

open Parse Lexer
open Phrase (Written tokenAt following nodesAt stopAll)

variable {env : Env} {c : Setting} {level start place row bound : Nat} {tok : Token}
variable {text : String} {p : Phrase} {ps : List Phrase} {rest : List Char}

/-! ### Rows -/

/-- The loosest row that the left operand of a row's operators may have. -/
def leftRow (row : Nat) : Nat :=
  match Operator.arithmeticRows[row]? with
  | some ⟨_, .right⟩ => row + 1
  | _ => row

theorem le_leftRow (row : Nat) : row ≤ leftRow row := by
  unfold leftRow
  split <;> omega

theorem le_rightRow (row : Nat) : row ≤ rightRow row := by
  unfold rightRow
  split <;> omega

theorem rightRow_le (row : Nat) : rightRow row ≤ row + 1 := by
  unfold rightRow
  split <;> omega

theorem rightRow_mono {row row' : Nat} (hle : row ≤ row') : rightRow row ≤ rightRow row' := by
  cases Nat.eq_or_lt_of_le hle with
  | inl heq => rw [heq]
  | inr hlt => exact Nat.le_trans (rightRow_le row) (Nat.le_trans hlt (le_rightRow row'))

/-- An operator does not go on with the right operands in its left operand. -/
theorem lt_rightRow_leftRow (row : Nat) : row < rightRow (leftRow row) := by
  unfold leftRow
  split
  . exact le_rightRow (row + 1)
  . next hleft =>
    unfold rightRow
    split
    . next hright => exact absurd hright (hleft _)
    . exact Nat.lt_succ_self row

/-- The row that an operator asks for does not depend on the rows that are looked for. -/
theorem infixRow?_eq_filter (tok : Token) (minRow : Nat) :
    infixRow? tok minRow = (infixRow? tok 0).filter fun found => minRow ≤ found.1 := by
  unfold infixRow?
  cases tok.kind with
  | operator op =>
    generalize hrow : (if op = "?" then some Operator.conditionalRow
      else (Operator.row? Operator.arithmeticRows op).map Prod.fst) = row
    cases row with
    | none => simp [hrow]
    | some row => simp [hrow, Option.filter]
  | _ => rfl

theorem infixRow?_eq_none_of_le {minRow : Nat} (h : infixRow? tok bound = none)
    (hle : bound ≤ minRow) : infixRow? tok minRow = none := by
  rw [infixRow?_eq_filter, Option.filter_eq_none_iff] at h ⊢
  intro found hfound
  have hnot := h found hfound
  simp only [decide_eq_true_eq] at hnot ⊢
  omega

theorem infixRow?_of_isInRow {minRow : Nat} (hop : Operator.isInRow Operator.arithmeticRows row text)
    (hkind : tok.kind = .operator text) :
    infixRow? tok minRow = if minRow ≤ row then some (row, text) else none := by
  obtain ⟨hne, hrow⟩ := Operator.forall_isInRow (fun row op => op ≠ "?" ∧
    (Operator.row? Operator.arithmeticRows op).map Prod.fst = some row) (by decide) hop
  unfold infixRow?
  simp only [hkind, if_neg hne, hrow]

theorem infixRow?_question {minRow : Nat} (hkind : tok.kind = .operator "?") :
    infixRow? tok minRow =
      if minRow ≤ Operator.conditionalRow then some (Operator.conditionalRow, "?") else none := by
  unfold infixRow?
  rw [hkind]
  rfl

/-! ### What is read -/

/-- What comes next goes on with no expression of the row or a tighter one. -/
structure EndsExpression (src : Source) (row place : Nat) (ps : List Phrase) (rest : List Char) :
    Prop where
  parted : Parted (following place ps rest)
  next : ∃ tok, Comes src place .arithmetic {} tok ∧ tok.adjacent = false ∧
    infixRow? tok row = none

theorem EndsExpression.mono {src : Source} (h : EndsExpression src bound place ps rest)
    (hle : bound ≤ row) : EndsExpression src row place ps rest := by
  obtain ⟨hparted, tok, hcomes, hadjacent, hnone⟩ := h
  exact ⟨hparted, tok, hcomes, hadjacent, infixRow?_eq_none_of_le hnone hle⟩

theorem endsExpression_operator (row : Nat) (hop : text ∈ Operator.arithmetic) (hplace : place ≠ 0)
    (h : Written env.source place (.token text :: ps) rest)
    (hafter : Parted (following ((Phrase.token text).stop place) ps rest))
    (hrow : infixRow? (tokenAt place (.operator text) text false) row = none) :
    EndsExpression env.source row place (.token text :: ps) rest :=
  ⟨parted_following hplace rfl, _, comes_infix h hop hafter, tokenAt_adjacent hplace, hrow⟩

/-- The phrase is read as an operand without operators wherever it is written. -/
structure IsArithmeticPrimary (env : Env) (p : Phrase) : Prop extends p.IsExact where
  starts : ∀ {place ps rest}, Written env.source place (p :: ps) rest →
    EndsOperand (following (p.stop place) ps rest) →
    ∃ tok, Comes env.source place .arithmetic {} tok ∧
      tok.isOneOf Operator.arithmeticPrefixes = false ∧ tok.isOperator ")" = false
  runs : ∀ {c level place ps rest}, Enough env c level place → c.mode = .arithmetic →
    Written env.source place (p :: ps) rest → EndsOperand (following (p.stop place) ps rest) →
    Runs env c.deeper place (arithmeticPrimary (nested level)) (some (p.nodeAt place))
      (p.stop place)

/-- The phrase is read as an operand wherever it is written. -/
structure IsArithmeticOperand (env : Env) (p : Phrase) : Prop extends p.IsExact where
  starts : ∀ {place ps rest}, Written env.source place (p :: ps) rest →
    Parted (following (p.stop place) ps rest) →
    ∃ tok, Comes env.source place .arithmetic {} tok ∧ tok.isOperator ")" = false
  runs : ∀ {c level place row ps rest}, Enough env c level place → c.mode = .arithmetic →
    Written env.source place (p :: ps) rest →
    EndsExpression env.source row (p.stop place) ps rest →
    Runs env c.deeper place (arithmeticOperand (nested level)) (some (p.nodeAt place))
      (p.stop place)

/-- The phrase is read as an expression of the row wherever it is written. What looks for operators
of a looser row goes on from its first operand to all of it. -/
structure IsArithmetic (env : Env) (row : Nat) (p : Phrase) : Prop extends p.IsExact where
  starts : ∀ {place ps rest}, Written env.source place (p :: ps) rest →
    Parted (following (p.stop place) ps rest) →
    ∃ tok, Comes env.source place .arithmetic {} tok ∧ tok.isOperator ")" = false
  climbs : ∀ {c level place ps rest}, Enough env c level place → c.mode = .arithmetic →
    Written env.source place (p :: ps) rest →
    EndsExpression env.source (rightRow row) (p.stop place) ps rest →
    ∃ first q, Runs env c.deeper place (arithmeticOperand (nested level)) (some first) q ∧
      ∀ minRow ≤ row, Rounds env c.deeper (arithmeticStep (nested level) minRow) q first
        (p.stop place) (p.nodeAt place)

theorem IsArithmetic.runs (hp : IsArithmetic env row p) (hroom : Enough env c level place)
    (hmode : c.mode = .arithmetic) (h : Written env.source place (p :: ps) rest)
    (hends : EndsExpression env.source row (p.stop place) ps rest) :
    Runs env c place (arithmetic (nested level) row) (some (p.nodeAt place)) (p.stop place) := by
  have hlt : place < env.source.size := Nat.lt_of_lt_of_le (hp.lt_stop place) h.tail.le_size
  obtain ⟨first, q, hfirst, hrounds⟩ := hp.climbs hroom hmode h (hends.mono (le_rightRow row))
  obtain ⟨_, tok, hcomes, _, hnone⟩ := hends
  have hmode' : c.deeper.mode = .arithmetic := hmode
  rw [← hmode'] at hcomes
  have hdone : Runs env c.deeper (p.stop place)
      (arithmeticStep (nested level) row (p.nodeAt place)) (.done (p.nodeAt place))
      (p.stop place) := by
    unfold arithmeticStep
    refine (runs_peek hcomes).bind ?_
    rw [hnone]
    exact Leads.pure _
  apply runs_nest (hroom.depth_lt hlt)
  unfold arithmeticClimb
  refine hfirst.bind ?_
  exact ((hrounds row (Nat.le_refl row)).repeatStep hdone h.tail.le_size).map some

theorem runs_operandAfter {operand : Parse (Option Node)} {found : Node} {q : Nat} (op : String)
    (h : Runs env c place operand (some found) q) :
    Runs env c place (operandAfter op operand) [found] q := h.bind (Leads.pure _)

/-- An expression inside a construct, which has taken something of the text before it. -/
theorem IsArithmetic.runs_inside (hp : IsArithmetic env row p) (hroom : Enough env c level start)
    (hlt : start < place) (hmode : c.mode = .arithmetic)
    (h : Written env.source place (p :: ps) rest)
    (hends : EndsExpression env.source row (p.stop place) ps rest) (op : String) :
    Runs env c.deeper place (operandAfter op ((nested level).arithmetic row)) [p.nodeAt place]
      (p.stop place) := by
  obtain ⟨inside, rfl, hinside⟩ := hroom.exists_level hlt h.le_size
  have hmode' : c.deeper.mode = .arithmetic := hmode
  exact runs_operandAfter op (hp.runs hinside hmode' h hends)

/-! ### Operands -/

section

variable {kind : NodeKind}

theorem isQuiet_of_isNameChar {c : Char} (hc : isNameChar c) : DoubleParen.isQuiet c := by
  simp (disch := decide) [DoubleParen.isQuiet, ne_of_class hc]

theorem isExact_operandWord (hword : IsOperandWord text.toList) :
    (Phrase.leaf kind text false).IsExact := by
  obtain ⟨first, cs, heq, hchars⟩ := hword.exists_cons
  exact .leaf (by simp [heq]) fun d hd => isQuiet_of_isNameChar (hchars d hd)

theorem isExact_operator (hop : text ∈ Operator.arithmetic) (hopen : text ≠ "(")
    (hclose : text ≠ ")") : (Phrase.token text).IsExact := by
  have hall : ∀ op ∈ Operator.arithmetic, op ≠ "(" → op ≠ ")" →
      op.toList ≠ [] ∧ ∀ c ∈ op.toList, DoubleParen.isQuiet c := by decide
  obtain ⟨hne, hquiet⟩ := hall text hop hopen hclose
  exact .leaf hne hquiet

theorem IsArithmeticPrimary.of_word (hword : IsOperandWord text.toList)
    (hleaf : ∀ {c level place ps rest}, Written env.source place (.leaf kind text false :: ps) rest →
      EndsOperand (following ((Phrase.leaf kind text false).stop place) ps rest) →
      Runs env c place (arithmeticWord (nested level) (tokenAt place .word text false))
        ((Phrase.leaf kind text false).nodeAt place)
        ((Phrase.leaf kind text false).stop place)) :
    IsArithmeticPrimary env (.leaf kind text false) where
  toIsExact := isExact_operandWord hword
  starts h hends := ⟨_, comes_operand h hword hends, rfl, rfl⟩
  runs {c _ place _ _} _ hmode h hends := by
    have hcomes : Comes env.source place c.deeper.mode {} (tokenAt place .word text false) := by
      rw [show c.deeper.mode = .arithmetic from hmode]
      exact comes_operand h hword hends
    unfold arithmeticPrimary
    exact (runs_peek hcomes).bind ((hleaf h hends).map some)

theorem IsArithmeticPrimary.name (hname : isName text.toList) :
    IsArithmeticPrimary env (.leaf .word text false) := by
  have hdigit : text.toList.head?.any Char.isDigit = false := by
    cases hchars : text.toList with
    | nil => rfl
    | cons first cs =>
      rw [hchars, isName, Bool.and_eq_true] at hname
      rw [List.head?_cons, Option.any_some, ← Bool.not_eq_true]
      intro hfirst
      rw [isNameStart_of_isDigit hfirst] at hname
      cases hname.1
  refine .of_word (.name hname) fun {_ _ place ps rest} h hends => ?_
  have htail : env.source.tail? (tokenAt place .word text false).span.stop = some
      (following ((Phrase.leaf .word text false).stop place) ps rest) := by
    rw [tokenAt_stop]
    exact h.tail
  have hbracket : (following ((Phrase.leaf .word text false).stop place) ps rest).head? ≠ some '[' :=
    fun hhead => absurd (hends '[' hhead) (by decide)
  unfold arithmeticWord
  rw [show (tokenAt place .word text false).text = text from rfl, hdigit,
    if_neg Bool.false_ne_true]
  refine (leads_charactersAt htail).bind ?_
  rw [if_neg (by simpa using hbracket)]
  exact leads_leafAt

theorem IsArithmeticPrimary.number (hne : text.toList ≠ [])
    (hdigits : ∀ c ∈ text.toList, c.isDigit) :
    IsArithmeticPrimary env (.leaf .number text false) := by
  have hdigit : text.toList.head?.any Char.isDigit := by
    obtain ⟨first, cs, hchars⟩ := List.exists_cons_of_ne_nil hne
    simp [hchars, hdigits first (by simp [hchars])]
  refine .of_word (.digits hne hdigits) fun _ _ => ?_
  unfold arithmeticWord
  rw [show ∀ place, (tokenAt place .word text false).text = text from fun _ => rfl, hdigit,
    if_pos rfl]
  exact leads_leafAt

theorem IsArithmeticPrimary.group (hp : IsArithmetic env 0 p) :
    IsArithmeticPrimary env
      (.node .parenthesizedArithmeticExpression [.token "(", p, .token ")"]) := by
  have hopener : (Phrase.token "(").IsSpaced := .leaf (by decide)
  have hcomes {place ps rest} (h : Written env.source place
      (.node .parenthesizedArithmeticExpression [.token "(", p, .token ")"] :: ps) rest) :
      Comes env.source place .arithmetic {} (tokenAt place (.operator "(") "(" false) :=
    comes_infix h.parts (by decide)
      (parted_following hopener.stop_ne_zero hp.spaced)
  refine ⟨⟨hopener.node _, hp.balanced.parentheses⟩, fun h _ => ⟨_, hcomes h, rfl, rfl⟩,
    fun {c level place ps rest} hroom hmode h hends => ?_⟩
  have hopen := hcomes h
  have hinside : Written env.source ((Phrase.token "(").stop place) (p :: .token ")" :: ps) rest :=
    h.parts.tail
  simp only [Phrase.stop_node, Phrase.stopAll_cons, Phrase.stopAll_nil] at hends ⊢
  have hclose := comes_closing hinside.tail hends
  have hpEnds : EndsExpression env.source 0 (p.stop ((Phrase.token "(").stop place))
      (.token ")" :: ps) rest :=
    ⟨parted_following hp.stop_ne_zero rfl, _, hclose, tokenAt_adjacent hp.stop_ne_zero, rfl⟩
  have hmode' : c.deeper.mode = .arithmetic := hmode
  rw [← hmode'] at hopen hclose
  unfold arithmeticPrimary
  refine (runs_peek hopen).bind ?_
  refine Leads.map ?_ some
  unfold parenthesizedArithmetic
  refine (leads_tokenLeaf (.token "(") rfl (by simp)).bind ?_
  refine (hp.runs_inside hroom (hopener.lt_stop place) hmode hinside hpEnds "(").bind ?_
  refine (runs_expectOperator hclose).bind ?_
  exact leads_node (by simp) (by simp [Phrase.token])

theorem IsArithmeticOperand.primary (hp : IsArithmeticPrimary env p) :
    IsArithmeticOperand env p where
  toIsExact := hp.toIsExact
  starts h hparted := by
    obtain ⟨tok, hcomes, _, hclose⟩ := hp.starts h hparted.endsOperand
    exact ⟨tok, hcomes, hclose⟩
  runs {c _ _ _ _ _} hroom hmode h hends := by
    obtain ⟨first, hfirst, hnot, _⟩ := hp.starts h hends.parted.endsOperand
    have hprimary := hp.runs hroom hmode h hends.parted.endsOperand
    obtain ⟨_, tok, hnext, hadjacent, _⟩ := hends
    have hmode' : c.deeper.mode = .arithmetic := hmode
    rw [← hmode'] at hfirst hnext
    unfold arithmeticOperand
    refine (runs_peek hfirst).bind ?_
    rw [hnot, if_neg Bool.false_ne_true]
    unfold arithmeticPostfix
    refine hprimary.bind ((runs_peek hnext).bind ?_)
    rw [hadjacent, Bool.false_and, if_neg Bool.false_ne_true]
    exact Leads.pure _

theorem IsArithmeticOperand.postfixed (hp : IsArithmeticPrimary env p)
    (hop : text ∈ Operator.arithmeticPostfixes) :
    IsArithmeticOperand env
      (.node .postfixArithmeticExpression [p, .leaf (.token text) text true]) := by
  have hall : ∀ op ∈ Operator.arithmeticPostfixes, op ∈ Operator.arithmetic ∧ op.toList ≠ [] ∧
      ∀ c ∈ op.toList, DoubleParen.isQuiet c ∧ c ∈ [' ', '+', '-', ')'] := by decide
  obtain ⟨hoperator, hne, hchars⟩ := hall text hop
  have hquiet : ∀ c ∈ text.toList, DoubleParen.isQuiet c := fun d hd => (hchars d hd).1
  have hends {place ps rest} :
      EndsOperand (following place (.leaf (.token text) text true :: ps) rest) := by
    obtain ⟨first, cs, heq⟩ := List.exists_cons_of_ne_nil hne
    have hfirst := (hchars first (by simp [heq])).2
    rw [Phrase.following_cons, Phrase.spelling, heq]
    intro d hd
    cases hd
    exact hfirst
  refine ⟨.node hp.toIsExact (by simpa using .leaf hquiet), fun h hparted => ?_,
    fun {c level place _ ps rest} hroom hmode h hends' => ?_⟩
  . obtain ⟨tok, hcomes, _, hclose⟩ := hp.starts h.parts hends
    exact ⟨tok, hcomes, hclose⟩
  . obtain ⟨first, hfirst, hnot, _⟩ := hp.starts h.parts hends
    have hprimary := hp.runs hroom hmode h.parts hends
    simp only [Phrase.stop_node, Phrase.stopAll_cons, Phrase.stopAll_nil] at hends' ⊢
    have hnext := comes_infix h.parts.tail hoperator hends'.parted
    have hmode' : c.deeper.mode = .arithmetic := hmode
    rw [← hmode'] at hfirst hnext
    unfold arithmeticOperand
    refine (runs_peek hfirst).bind ?_
    rw [hnot, if_neg Bool.false_ne_true]
    unfold arithmeticPostfix
    refine hprimary.bind ((runs_peek hnext).bind ?_)
    rw [if_pos (by simpa [tokenAt, Phrase.gap, Token.isOneOf] using hop)]
    refine (leads_tokenLeaf (.token text) rfl (by simp)).bind ?_
    exact (leads_node (by simp) (by simp)).map some

theorem IsArithmeticOperand.prefixed (hop : text ∈ Operator.arithmeticPrefixes)
    (hp : IsArithmeticOperand env p) :
    IsArithmeticOperand env (.node .unaryArithmeticExpression [.token text, p]) := by
  have hall : ∀ op ∈ Operator.arithmeticPrefixes, op ∈ Operator.arithmetic ∧ op ≠ "(" ∧
      op ≠ ")" := by decide
  obtain ⟨hoperator, hopen, hclose⟩ := hall text hop
  have hexact := isExact_operator hoperator hopen hclose
  have hcomes {place ps rest} (h : Written env.source place
      (.node .unaryArithmeticExpression [.token text, p] :: ps) rest) :
      Comes env.source place .arithmetic {} (tokenAt place (.operator text) text false) :=
    comes_infix h.parts hoperator (parted_following hexact.stop_ne_zero hp.spaced)
  refine ⟨.node hexact (by simpa using hp.balanced), fun h _ => ⟨_, hcomes h, ?_⟩,
    fun {c level place _ ps rest} hroom hmode h hends => ?_⟩
  . simp [Token.isOperator, tokenAt, hclose]
  . have hfirst := hcomes h
    have hinside : Written env.source ((Phrase.token text).stop place) (p :: ps) rest := h.parts.tail
    simp only [Phrase.stop_node, Phrase.stopAll_cons, Phrase.stopAll_nil] at hends ⊢
    have hmode' : c.deeper.mode = .arithmetic := hmode
    rw [← hmode'] at hfirst
    obtain ⟨inside, rfl, hroom'⟩ := hroom.exists_level (hexact.lt_stop place) hinside.le_size
    have hlt : (Phrase.token text).stop place < env.source.size :=
      Nat.lt_of_lt_of_le (hp.lt_stop _) hinside.tail.le_size
    have hoperand := runs_nest (hroom'.depth_lt hlt) (hp.runs hroom' hmode' hinside hends)
    unfold arithmeticOperand
    refine (runs_peek hfirst).bind ?_
    rw [if_pos (by simpa [tokenAt, Token.isOneOf] using hop)]
    refine Leads.map ?_ some
    unfold arithmeticUnary
    refine (leads_tokenLeaf (.token text) rfl (by simp)).bind ?_
    refine (runs_operandAfter _ hoperand).bind ?_
    exact leads_node (by simp) (by simp [Phrase.token])

end

/-! ### Expressions -/

theorem IsArithmetic.operand (row : Nat) (hp : IsArithmeticOperand env p) :
    IsArithmetic env row p where
  toIsExact := hp.toIsExact
  starts := hp.starts
  climbs hroom hmode h hends :=
    ⟨_, _, hp.runs hroom hmode h hends, fun _ _ => .refl _ _⟩

theorem IsArithmetic.binary {outer : Nat} {left right : Phrase}
    (hop : Operator.isInRow Operator.arithmeticRows row text) (hrow : outer ≤ row)
    (hleft : IsArithmetic env (leftRow row) left)
    (hright : IsArithmetic env (rightRow row) right) :
    IsArithmetic env outer (.node .binaryArithmeticExpression [left, .token text, right]) := by
  obtain ⟨hoperator, hopen, hclose, hne⟩ := Operator.forall_isInRow
    (fun row op => op ∈ Operator.arithmetic ∧ op ≠ "(" ∧ op ≠ ")" ∧ row ≠ Operator.conditionalRow)
    (by decide) hop
  have hexact := isExact_operator hoperator hopen hclose
  have hparted {place ps rest} :
      Parted (following ((Phrase.token text).stop place) (right :: ps) rest) :=
    parted_following hexact.stop_ne_zero hright.spaced
  refine ⟨.node hleft.toIsExact (by simpa using ⟨hexact.balanced, hright.balanced⟩),
    fun h _ => hleft.starts h.parts (parted_following hleft.stop_ne_zero rfl),
    fun {c level place ps rest} hroom hmode h hends => ?_⟩
  have hwritten : Written env.source place (left :: .token text :: right :: ps) rest := h.parts
  simp only [Phrase.stop_node, Phrase.stopAll_cons, Phrase.stopAll_nil] at hends ⊢
  -- The operator is looser than all right operands in the left one, which therefore end before it.
  have hleftEnds : EndsExpression env.source (rightRow (leftRow row)) (left.stop place)
      (.token text :: right :: ps) rest := by
    apply endsExpression_operator _ hoperator hleft.stop_ne_zero hwritten.tail hparted
    rw [infixRow?_of_isInRow hop rfl, if_neg (Nat.not_le.2 (lt_rightRow_leftRow row))]
  obtain ⟨first, q, hfirst, hrounds⟩ := hleft.climbs hroom hmode hwritten hleftEnds
  have hcomes := comes_infix hwritten.tail hoperator hparted
  have hlt : place < (Phrase.token text).stop (left.stop place) :=
    Nat.lt_trans (hleft.lt_stop place) (hexact.lt_stop _)
  have hmode' : c.deeper.mode = .arithmetic := hmode
  rw [← hmode'] at hcomes
  refine ⟨first, q, hfirst, fun minRow hmin => ?_⟩
  have hle : minRow ≤ row := Nat.le_trans hmin hrow
  -- The rounds of the left operand come first, and one more takes the operator.
  refine (hrounds minRow (Nat.le_trans hle (le_leftRow row))).trans (.single ?_ ?_)
  . unfold arithmeticStep
    refine (runs_peek hcomes).bind ?_
    rw [infixRow?_of_isInRow hop rfl, if_pos hle]
    dsimp only
    rw [if_neg hne]
    refine (leads_tokenLeaf (.token text) rfl (by simp)).bind ?_
    refine (hright.runs_inside hroom hlt hmode hwritten.tail.tail
      (hends.mono (rightRow_mono hrow)) text).bind ?_
    exact (leads_node (by simp) (by simp [Phrase.token])).map _
  . exact Nat.lt_trans (hexact.lt_stop _) (hright.lt_stop _)

theorem IsArithmetic.conditional {outer : Nat} {condition whenTrue whenFalse : Phrase}
    (hrow : outer ≤ Operator.conditionalRow)
    (hcondition : IsArithmetic env (Operator.conditionalRow + 1) condition)
    (htrue : IsArithmetic env 0 whenTrue)
    (hfalse : IsArithmetic env Operator.conditionalRow whenFalse) :
    IsArithmetic env outer (.node .ternaryArithmeticExpression
      [condition, .token "?", whenTrue, .token ":", whenFalse]) := by
  have hquestion : (Phrase.token "?").IsExact :=
    isExact_operator (by decide) (by decide) (by decide)
  have hcolon : (Phrase.token ":").IsExact :=
    isExact_operator (by decide) (by decide) (by decide)
  refine ⟨.node hcondition.toIsExact ?_,
    fun h _ => hcondition.starts h.parts (parted_following hcondition.stop_ne_zero rfl),
    fun {c level place ps rest} hroom hmode h hends => ?_⟩
  . simpa using ⟨hquestion.balanced, htrue.balanced, hcolon.balanced, hfalse.balanced⟩
  . have hwritten : Written env.source place
        (condition :: .token "?" :: whenTrue :: .token ":" :: whenFalse :: ps) rest := h.parts
    have hmiddle := hwritten.tail.tail
    simp only [Phrase.stop_node, Phrase.stopAll_cons, Phrase.stopAll_nil] at hends ⊢
    have hquestionParted {place ps} :
        Parted (following ((Phrase.token "?").stop place) (whenTrue :: ps) rest) :=
      parted_following hquestion.stop_ne_zero htrue.spaced
    have hcolonParted {place ps} :
        Parted (following ((Phrase.token ":").stop place) (whenFalse :: ps) rest) :=
      parted_following hcolon.stop_ne_zero hfalse.spaced
    -- Neither `?` nor `:` goes on with the operand before it.
    have hconditionEnds := endsExpression_operator
      (rightRow (Operator.conditionalRow + 1)) (by decide)
      hcondition.stop_ne_zero hwritten.tail hquestionParted rfl
    have htrueEnds := endsExpression_operator 0 (by decide) htrue.stop_ne_zero
      hmiddle.tail hcolonParted rfl
    obtain ⟨first, q, hfirst, hrounds⟩ := hcondition.climbs hroom hmode hwritten hconditionEnds
    have hopen := comes_infix hwritten.tail (by decide) hquestionParted
    have hclose := comes_infix hmiddle.tail (by decide) hcolonParted
    have hlt : place < (Phrase.token "?").stop (condition.stop place) :=
      Nat.lt_trans (hcondition.lt_stop place) (hquestion.lt_stop _)
    have hlt' : (Phrase.token "?").stop (condition.stop place) <
        (Phrase.token ":").stop (whenTrue.stop ((Phrase.token "?").stop (condition.stop place))) :=
      Nat.lt_trans (htrue.lt_stop _) (hcolon.lt_stop _)
    have hmode' : c.deeper.mode = .arithmetic := hmode
    rw [← hmode'] at hopen hclose
    refine ⟨first, q, hfirst, fun minRow hmin => ?_⟩
    have hle : minRow ≤ Operator.conditionalRow := Nat.le_trans hmin hrow
    refine (hrounds minRow (Nat.le_succ_of_le hle)).trans (.single ?_ ?_)
    . unfold arithmeticStep
      refine (runs_peek hopen).bind ?_
      rw [infixRow?_question rfl, if_pos hle]
      dsimp only
      rw [if_pos rfl]
      refine Leads.map ?_ _
      unfold Grammar.conditional
      refine (leads_tokenLeaf (.token "?") rfl (by simp)).bind ?_
      refine (htrue.runs_inside hroom hlt hmode hmiddle htrueEnds "?").bind ?_
      refine (runs_peek hclose).bind ?_
      rw [if_pos (by simp [Token.isOperator, tokenAt])]
      refine (leads_tokenLeaf (.token ":") rfl (by simp)).bind ?_
      refine (hfalse.runs_inside hroom (Nat.lt_trans hlt hlt') hmode hmiddle.tail.tail
        (hends.mono (rightRow_mono hrow)) ":").bind ?_
      exact leads_node (by simp) (by simp [Phrase.token])
    . exact Nat.lt_trans (hquestion.lt_stop _) (Nat.lt_trans hlt' (hfalse.lt_stop _))

end Grammar

end ShellTree
