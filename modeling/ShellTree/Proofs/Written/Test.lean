import ShellTree.Proofs.Written.Keyword
import ShellTree.Proofs.Written.TestLexer

/-!
This module contains what it takes to read phrases as operands and expressions of a test. The rows of
the table of operators are read one inside the other, from the loosest to the tightest.
-/

namespace ShellTree

def Phrase.test (b : Brackets) (expression : Phrase) : Phrase :=
  .node .testCommand [.token b.opener, expression, .token b.closer]

namespace Grammar

open Parse Lexer
open Phrase (Written tokenAt following nodesAt stopAll)

variable {env : Env} {b : Brackets} {c : Setting} {level start place : Nat} {tok : Token}
variable {text : String} {row : Operator.Row} {rows : List Operator.Row}
variable {p : Phrase} {ps : List Phrase} {rest : List Char} {inner : Nested}

/-! ### Rows -/

theorem rowOperator?_of_operator (hkind : tok.kind = .operator text) :
    rowOperator? row tok = if row.operators.contains text then some text else none := by
  unfold rowOperator?
  rw [hkind]

theorem rowOperator?_of_letters (hkind : tok.kind = .testOperator) :
    rowOperator? row tok = if row.operators.contains tok.text then some tok.text else none := by
  unfold rowOperator?
  rw [hkind]

/-- No operator stands in two rows. -/
theorem notMem_tighter (hrows : row :: rows <:+ Operator.testRows) (hop : text ∈ row.operators) :
    ∀ tighter ∈ rows, text ∉ tighter.operators := by
  have hdisjoint : Operator.testRows.Pairwise fun row row' =>
      ∀ op ∈ row.operators, op ∉ row'.operators := by decide
  intro tighter htighter
  exact (List.pairwise_cons.1 (hdisjoint.sublist hrows.sublist)).1 tighter htighter text hop

/-! ### What is read -/

/-- What comes next goes on with no test of the rows. -/
structure EndsTest (src : Source) (b : Brackets) (rows : List Operator.Row) (place : Nat)
    (ps : List Phrase) (rest : List Char) : Prop where
  parted : Parted (following place ps rest)
  next : ∃ tok, Comes src place b.mode {} tok ∧ tok.adjacent = false ∧
    ∀ row ∈ rows, rowOperator? row tok = none

theorem EndsTest.tighter {src : Source} (h : EndsTest src b (row :: rows) place ps rest) :
    EndsTest src b rows place ps rest := by
  obtain ⟨hparted, tok, hcomes, hadjacent, hnone⟩ := h
  exact ⟨hparted, tok, hcomes, hadjacent, fun row hrow => hnone row (List.mem_cons_of_mem _ hrow)⟩

/-- The phrase is read as an operand without operators wherever it is written. -/
structure IsTestPrimary (env : Env) (b : Brackets) (p : Phrase) : Prop extends p.IsSpaced where
  starts : ∀ {place ps rest}, Written env.source place (p :: ps) rest →
    Parted (following (p.stop place) ps rest) →
    ∃ tok, Comes env.source place b.mode {} tok ∧ tok.isOperator "!" = false ∧
      tok.kind ≠ .testOperator ∧ endsTestOperand tok = false ∧ tok.isOperator b.closer = false
  runs : ∀ {c level place rows ps rest}, Enough env c level place → c.mode = b.mode →
    Written env.source place (p :: ps) rest →
    EndsTest env.source b rows (p.stop place) ps rest →
    Runs env c.deeper place (testPrimary (nested level)) (some (p.nodeAt place)) (p.stop place)

/-- The phrase is read as an operand wherever it is written. -/
structure IsTestOperand (env : Env) (b : Brackets) (p : Phrase) : Prop extends p.IsSpaced where
  starts : ∀ {place ps rest}, Written env.source place (p :: ps) rest →
    Parted (following (p.stop place) ps rest) →
    ∃ tok, Comes env.source place b.mode {} tok ∧ tok.isOperator b.closer = false
  runs : ∀ {c level place rows ps rest}, Enough env c level place → c.mode = b.mode →
    Written env.source place (p :: ps) rest →
    EndsTest env.source b rows (p.stop place) ps rest →
    Runs env c place (testOperand (nested level)) (some (p.nodeAt place)) (p.stop place)

/-- The phrase is read as a test of the rows wherever it is written. -/
structure IsTest (env : Env) (b : Brackets) (rows : List Operator.Row) (p : Phrase) : Prop
    extends p.IsSpaced where
  starts : ∀ {place ps rest}, Written env.source place (p :: ps) rest →
    Parted (following (p.stop place) ps rest) →
    ∃ tok, Comes env.source place b.mode {} tok ∧ tok.isOperator b.closer = false
  runs : ∀ {c level place ps rest}, Enough env c level place → c.mode = b.mode →
    Written env.source place (p :: ps) rest →
    EndsTest env.source b rows (p.stop place) ps rest →
    Runs env c place (testRows (nested level) rows) (some (p.nodeAt place)) (p.stop place)

/-- The phrase is operands of the rows with operators of the row between them. What looks for these
operators goes on from the first operand to all of it. -/
structure IsChain (env : Env) (b : Brackets) (row : Operator.Row) (rows : List Operator.Row)
    (p : Phrase) : Prop extends p.IsSpaced where
  starts : ∀ {place ps rest}, Written env.source place (p :: ps) rest →
    Parted (following (p.stop place) ps rest) →
    ∃ tok, Comes env.source place b.mode {} tok ∧ tok.isOperator b.closer = false
  climbs : ∀ {c level place ps rest}, Enough env c level place → c.mode = b.mode →
    Written env.source place (p :: ps) rest →
    EndsTest env.source b rows (p.stop place) ps rest →
    ∃ first q, Runs env c place (testRows (nested level) rows) (some first) q ∧
      Rounds env c (testStep (nested level) row (testRows (nested level) rows)) q first
        (p.stop place) (p.nodeAt place)

/-! ### Chains -/

theorem IsTest.operand (hp : IsTestOperand env b p) : IsTest env b [] p :=
  ⟨hp.toIsSpaced, hp.starts, hp.runs⟩

theorem IsTest.chain (row : Operator.Row) (hp : IsTest env b rows p) : IsChain env b row rows p where
  toIsSpaced := hp.toIsSpaced
  starts := hp.starts
  climbs hroom hmode h hends := ⟨_, _, hp.runs hroom hmode h hends, .refl _ _⟩

/-- A row is read from its first operand on, up to what is no operator of it. -/
theorem runs_testRows_cons {first last : Node} {q stop : Nat}
    (hfirst : Runs env c place (testRows inner rows) (some first) q)
    (hrounds : Rounds env c (testStep inner row (testRows inner rows)) q first stop last)
    (hle : stop ≤ env.source.size) (hcomes : Comes env.source stop c.mode {} tok)
    (hnone : rowOperator? row tok = none) :
    Runs env c place (testRows inner (row :: rows)) (some last) stop := by
  rw [testRows]
  refine hfirst.bind (Leads.map ?_ some)
  apply hrounds.repeatStep _ hle
  unfold testStep
  refine (runs_peek hcomes).bind ?_
  rw [hnone]
  exact Leads.pure _

/-- Rows without operators leave what the tighter rows read. -/
theorem runs_testRows_append (looser : List Operator.Row) {found : Node} {q : Nat}
    (h : Runs env c place (testRows inner rows) (some found) q) (hle : q ≤ env.source.size)
    (hcomes : Comes env.source q c.mode {} tok)
    (hnone : ∀ row ∈ looser, rowOperator? row tok = none) :
    Runs env c place (testRows inner (looser ++ rows)) (some found) q := by
  induction looser with
  | nil => exact h
  | cons row looser ih =>
    obtain ⟨hrow, hlooser⟩ := List.forall_mem_cons.1 hnone
    exact runs_testRows_cons (ih hlooser) (.refl _ _) hle hcomes hrow

theorem IsChain.isTest (hp : IsChain env b row rows p) : IsTest env b (row :: rows) p where
  toIsSpaced := hp.toIsSpaced
  starts := hp.starts
  runs {_ _ place _ _} hroom hmode h hends := by
    obtain ⟨first, q, hfirst, hrounds⟩ := hp.climbs hroom hmode h hends.tighter
    obtain ⟨_, tok, hcomes, _, hnone⟩ := hends
    rw [← hmode] at hcomes
    exact runs_testRows_cons hfirst hrounds h.tail.le_size hcomes (hnone row List.mem_cons_self)

/-- A binary operator is one of its own row only. -/
theorem comes_binary (hrows : row :: rows <:+ Operator.testRows) (hop : text ∈ row.operators)
    (hne : text ≠ "=~") (h : Written env.source place (.token text :: ps) rest)
    (hafter : Parted (following ((Phrase.token text).stop place) ps rest)) :
    ∃ kind, Comes env.source place b.mode {} (tokenAt place kind text false) ∧
      rowOperator? row (tokenAt place kind text false) = some text ∧
      ∀ tighter ∈ rows, rowOperator? tighter (tokenAt place kind text false) = none := by
  have hall : ∀ row ∈ Operator.testRows, ∀ op ∈ row.operators, op ≠ "=~" →
      op ∈ Operator.test ∨ isLetterOption op := by decide
  have hrow : row ∈ Operator.testRows := hrows.subset List.mem_cons_self
  have hother := notMem_tighter hrows hop
  cases hall row hrow text hop hne with
  | inl hsign =>
    refine ⟨_, comes_testOperator h hsign hafter, ?_, fun tighter htighter => ?_⟩
    . rw [rowOperator?_of_operator rfl, if_pos (by simpa using hop)]
    . rw [rowOperator?_of_operator rfl, if_neg (by simpa using hother tighter htighter)]
  | inr hletters =>
    refine ⟨_, comes_letterOption h hletters hafter, ?_, fun tighter htighter => ?_⟩
    . rw [rowOperator?_of_letters rfl, if_pos (by simpa [tokenAt] using hop)]
      rfl
    . rw [rowOperator?_of_letters rfl, if_neg (by simpa [tokenAt] using hother tighter htighter)]

theorem isSpaced_binary (hrow : row ∈ Operator.testRows) (hop : text ∈ row.operators) :
    (Phrase.token text).IsSpaced := by
  have hall : ∀ row ∈ Operator.testRows, ∀ op ∈ row.operators, op.toList ≠ [] := by decide
  exact .leaf (hall row hrow text hop)

theorem runs_testOperandAfter {operand : Parse (Option Node)} {found : Node} {q : Nat} (op : String)
    (h : Runs env c place operand (some found) q) :
    Runs env c place (testOperandAfter op operand) [found] q := h.bind (Leads.pure _)

theorem IsChain.binary {left right : Phrase} (hrows : row :: rows <:+ Operator.testRows)
    (hop : text ∈ row.operators) (hne : text ≠ "=~") (hleft : IsChain env b row rows left)
    (hright : IsTest env b rows right) :
    IsChain env b row rows (.node .binaryExpression [left, .token text, right]) := by
  have hspaced := isSpaced_binary (hrows.subset List.mem_cons_self) hop
  refine ⟨hleft.toIsSpaced.node _,
    fun h _ => hleft.starts h.parts (parted_following hleft.stop_ne_zero rfl),
    fun {c level place ps rest} hroom hmode h hends => ?_⟩
  have hwritten : Written env.source place (left :: .token text :: right :: ps) rest := h.parts
  simp only [Phrase.stop_node, Phrase.stopAll_cons, Phrase.stopAll_nil] at hends ⊢
  obtain ⟨kind, hcomes, hrow, htighter⟩ := comes_binary hrows hop hne hwritten.tail
    (parted_following hspaced.stop_ne_zero hright.spaced)
  -- No tighter row has the operator, so that the operands on its left end before it.
  have hleftEnds : EndsTest env.source b rows (left.stop place) (.token text :: right :: ps) rest :=
    ⟨parted_following hleft.stop_ne_zero rfl, _, hcomes, tokenAt_adjacent hleft.stop_ne_zero,
      htighter⟩
  obtain ⟨first, q, hfirst, hrounds⟩ := hleft.climbs hroom hmode hwritten hleftEnds
  have hle : place ≤ (Phrase.token text).stop (left.stop place) :=
    Nat.le_trans (Phrase.le_stop place left) (Phrase.le_stop _ _)
  rw [← hmode] at hcomes
  refine ⟨first, q, hfirst, hrounds.trans (.single ?_ ?_)⟩
  . unfold testStep
    refine (runs_peek hcomes).bind ?_
    rw [hrow]
    dsimp only
    rw [if_neg hne]
    refine leads_leafAt.bind ?_
    refine (runs_testOperandAfter text
      (hright.runs (hroom.mono hle) hmode hwritten.tail.tail hends)).bind ?_
    exact (leads_node (by simp) (by simp [Phrase.token])).map _
  . exact Nat.lt_trans (hspaced.lt_stop _) (hright.lt_stop _)

/-! ### Operands -/

theorem runs_testWord (w : Word) (hmode : c.mode = b.mode)
    (hdepth : c.depth < env.options.maxDepth)
    (h : Written env.source place (w.phrase :: ps) rest)
    (hends : EndsTest env.source b rows (w.phrase.stop place) ps rest) :
    Runs env c place (testPrimary inner) (some (w.phrase.nodeAt place)) (w.phrase.stop place) := by
  obtain ⟨hparted, tok, hnext, hadjacent, _⟩ := hends
  have hword := comes_testWord (b := b) h w.ne_nil w.isLower hparted.endsWord
  have hle := h.tail.le_size
  rw [← hmode] at hword hnext
  unfold testPrimary
  refine (runs_peek hword).bind ?_
  change Runs _ _ _ (literal inner) _ _
  exact runs_literal_of_fragment (runs_wordFragment hword w.isNumber_eq_false hdepth) hle hnext
    (by rw [hadjacent, Bool.false_and])

theorem IsTestPrimary.word (hmax : env.source.size < env.options.maxDepth) (w : Word) :
    IsTestPrimary env b w.phrase where
  toIsSpaced := .leaf w.ne_nil
  starts h hparted :=
    ⟨_, comes_testWord h w.ne_nil w.isLower hparted.endsWord, rfl, nofun, rfl, rfl⟩
  runs {c _ place _ _ _} hroom hmode h hends := by
    have hlt := w.lt_stop place
    have hle : w.phrase.stop place ≤ env.source.size := h.tail.le_size
    have hdepth : c.deeper.depth < env.options.maxDepth := by
      have hplace := hroom.depth_le
      change c.depth + 1 < _
      omega
    exact runs_testWord w hmode hdepth h hends

theorem IsTestPrimary.group (hp : IsTest env b Operator.testRows p) :
    IsTestPrimary env b (.node .parenthesizedExpression [.token "(", p, .token ")"]) := by
  have hopener : (Phrase.token "(").IsSpaced := .leaf (by decide)
  have hcomes {place ps rest} (h : Written env.source place
      (.node .parenthesizedExpression [.token "(", p, .token ")"] :: ps) rest) :
      Comes env.source place b.mode {} (tokenAt place (.operator "(") "(" false) :=
    comes_testOperator h.parts (by decide) (parted_following hopener.stop_ne_zero hp.spaced)
  refine ⟨hopener.node _, fun h _ => ⟨_, hcomes h, rfl, nofun, rfl, by cases b <;> rfl⟩,
    fun {c level place _ ps rest} hroom hmode h hends => ?_⟩
  have hopen := hcomes h
  have hinside : Written env.source ((Phrase.token "(").stop place) (p :: .token ")" :: ps) rest :=
    h.parts.tail
  simp only [Phrase.stop_node, Phrase.stopAll_cons, Phrase.stopAll_nil] at hends ⊢
  have hclose := comes_testOperator (b := b) hinside.tail (by decide) hends.parted
  have hnone : ∀ row ∈ Operator.testRows, row.operators.contains ")" = false := by decide
  have hpEnds : EndsTest env.source b Operator.testRows (p.stop ((Phrase.token "(").stop place))
      (.token ")" :: ps) rest :=
    ⟨parted_following hp.stop_ne_zero rfl, _, hclose, tokenAt_adjacent hp.stop_ne_zero,
      fun row hrow => by rw [rowOperator?_of_operator rfl, hnone row hrow]; rfl⟩
  obtain ⟨inside, rfl, hroom'⟩ := hroom.exists_level (hopener.lt_stop place) hinside.le_size
  have hmode' : c.deeper.mode = b.mode := hmode
  rw [← hmode'] at hopen hclose
  unfold testPrimary
  refine (runs_peek hopen).bind ?_
  refine Leads.map ?_ some
  unfold parenthesizedTest
  refine (leads_tokenLeaf (.token "(") rfl (by simp)).bind ?_
  refine (runs_testOperandAfter "(" (hp.runs hroom' hmode' hinside hpEnds)).bind ?_
  refine (runs_expectOperator hclose).bind ?_
  exact leads_node (by simp) (by simp [Phrase.token])

theorem runs_testOperand {found : Node} {q : Nat} (hdepth : c.depth < env.options.maxDepth)
    (hcomes : Comes env.source place c.mode {} tok) (hnot : tok.isOperator "!" = false)
    (hkind : tok.kind ≠ .testOperator)
    (hprimary : Runs env c.deeper place (testPrimary inner) (some found) q) :
    Runs env c place (testOperand inner) (some found) q := by
  have hmode : c.deeper.mode = c.mode := rfl
  rw [← hmode] at hcomes
  apply runs_nest hdepth
  unfold testOperandBody
  refine (runs_peek hcomes).bind ?_
  rw [hnot, if_neg Bool.false_ne_true, if_neg hkind]
  exact hprimary

theorem IsTestOperand.primary (hp : IsTestPrimary env b p) : IsTestOperand env b p where
  toIsSpaced := hp.toIsSpaced
  starts h hparted := by
    obtain ⟨tok, hcomes, _, _, _, hclose⟩ := hp.starts h hparted
    exact ⟨tok, hcomes, hclose⟩
  runs {c _ place _ _ _} hroom hmode h hends := by
    obtain ⟨tok, hcomes, hnot, hkind, _, _⟩ := hp.starts h hends.parted
    have hlt : place < env.source.size := Nat.lt_of_lt_of_le (hp.lt_stop place) h.tail.le_size
    rw [← hmode] at hcomes
    exact runs_testOperand (hroom.depth_lt hlt) hcomes hnot hkind (hp.runs hroom hmode h hends)

theorem IsTestOperand.negation (hp : IsTestOperand env b p) :
    IsTestOperand env b (.node .unaryExpression [.token "!", p]) := by
  have hspaced : (Phrase.token "!").IsSpaced := .leaf (by decide)
  have hcomes {place ps rest} (h : Written env.source place
      (.node .unaryExpression [.token "!", p] :: ps) rest) :
      Comes env.source place b.mode {} (tokenAt place (.operator "!") "!" false) :=
    comes_testOperator h.parts (by decide) (parted_following hspaced.stop_ne_zero hp.spaced)
  refine ⟨hspaced.node _, fun h _ => ⟨_, hcomes h, by cases b <;> rfl⟩,
    fun {c level place _ ps rest} hroom hmode h hends => ?_⟩
  have hopen := hcomes h
  have hinside : Written env.source ((Phrase.token "!").stop place) (p :: ps) rest := h.parts.tail
  simp only [Phrase.stop_node, Phrase.stopAll_cons, Phrase.stopAll_nil] at hends ⊢
  have hlt : place < env.source.size := Nat.lt_of_lt_of_le (hspaced.lt_stop place) hinside.le_size
  obtain ⟨inside, rfl, hroom'⟩ := hroom.exists_level (hspaced.lt_stop place) hinside.le_size
  have hmode' : c.deeper.mode = b.mode := hmode
  have hoperand := hp.runs hroom' hmode' hinside hends
  rw [← hmode'] at hopen
  apply runs_nest (hroom.depth_lt hlt)
  unfold testOperandBody
  refine (runs_peek hopen).bind ?_
  rw [if_pos (by simp [Token.isOperator, tokenAt])]
  refine Leads.map ?_ some
  unfold testUnary
  refine (leads_tokenLeaf (.token "!") rfl (by simp)).bind ?_
  refine (runs_testOperandAfter _ hoperand).bind ?_
  exact leads_node (by simp) (by simp [Phrase.token])

/-- What comes after the option is an operand, so that the option is no word. -/
theorem runs_isOptionWord_false {q : Nat} {behind : Token}
    (h : Comes env.source tok.span.stop c.mode {} behind)
    (hends : endsTestOperand behind = false) : Runs env c q (isOptionWord tok) false q := by
  have hbehind : Runs env c q (do setPosition tok.span.stop; peek) behind tok.span.stop :=
    (leads_setPosition _).bind (runs_peek h)
  unfold isOptionWord
  refine (runs_lookAhead hbehind).bind ?_
  rw [hends]
  exact Leads.pure false

theorem IsTestOperand.option (hop : isLetterOption text) (hp : IsTestPrimary env b p) :
    IsTestOperand env b (.node .unaryExpression [.leaf .testOperator text false, p]) := by
  have hspaced : (Phrase.leaf .testOperator text false).IsSpaced := by
    obtain ⟨letters, heq, _⟩ := exists_letters hop
    exact .leaf (by simp [heq])
  have hcomes {place ps rest} (h : Written env.source place
      (.node .unaryExpression [.leaf .testOperator text false, p] :: ps) rest) :
      Comes env.source place b.mode {} (tokenAt place .testOperator text false) :=
    comes_letterOption h.parts hop (parted_following hspaced.stop_ne_zero hp.spaced)
  refine ⟨hspaced.node _, fun h _ => ⟨_, hcomes h, rfl⟩,
    fun {c level place _ ps rest} hroom hmode h hends => ?_⟩
  have hopen := hcomes h
  have hinside : Written env.source ((Phrase.leaf .testOperator text false).stop place) (p :: ps)
      rest := h.parts.tail
  simp only [Phrase.stop_node, Phrase.stopAll_cons, Phrase.stopAll_nil] at hends ⊢
  -- Letters behind a dash are an operator of either kind, which the token behind them tells.
  obtain ⟨behind, hnext, _, _, hoperand, _⟩ := hp.starts hinside hends.parted
  have hlt : place < env.source.size := Nat.lt_of_lt_of_le (hspaced.lt_stop place) hinside.le_size
  have hprimary := hp.runs (hroom.mono (Phrase.le_stop place (.leaf .testOperator text false))) hmode
    hinside hends
  have hmode' : c.deeper.mode = b.mode := hmode
  rw [← hmode', ← tokenAt_stop .testOperator] at hnext
  rw [← hmode'] at hopen
  apply runs_nest (hroom.depth_lt hlt)
  unfold testOperandBody
  refine (runs_peek hopen).bind ?_
  rw [if_neg (by simp [Token.isOperator, tokenAt]),
    if_pos (show (tokenAt place .testOperator text false).kind = .testOperator from rfl)]
  refine (runs_isOptionWord_false hnext hoperand).bind ?_
  rw [if_neg Bool.false_ne_true]
  refine Leads.map ?_ some
  unfold testUnary
  refine (leads_tokenLeaf .testOperator rfl (by simp)).bind ?_
  refine (runs_testOperandAfter _ hprimary).bind ?_
  exact leads_node (by simp) (by simp)

/-! ### Commands -/

theorem rowOperator?_closer :
    ∀ row ∈ Operator.testRows, rowOperator? row (tokenAt place (.operator b.closer) text false) =
      none := by
  have hnone : ∀ row ∈ Operator.testRows, row.operators.contains b.closer = false := by
    cases b <;> decide
  intro row hrow
  rw [rowOperator?_of_operator rfl, hnone row hrow, if_neg Bool.false_ne_true]

theorem runs_testContent {construct : Construct} {found : Node} {q : Nat}
    (hfirst : Comes env.source place c.mode {} tok) (hnot : tok.isOperator b.closer = false)
    (htest : Runs env c place (test inner) (some found) q) :
    Runs env c place (testContent inner b.closer construct) [found] q := by
  unfold testContent
  refine (runs_peek hfirst).bind ?_
  rw [hnot, if_neg Bool.false_ne_true]
  exact htest.bind (Leads.pure _)

theorem runs_testClose {construct : Construct} {origin : Nat} (hmode : c.mode = b.mode)
    (h : Written env.source place (.token b.closer :: ps) rest)
    (hafter : Parted (following ((Phrase.token b.closer).stop place) ps rest)) :
    Runs env c place (testClose inner b.closer construct origin)
      [(Phrase.token b.closer).nodeAt place] ((Phrase.token b.closer).stop place) := by
  have hcloser := comes_testCloser h hafter
  rw [← hmode] at hcloser
  have hdone : Runs env c place
      (repeatStep (testJunkStep inner b.closer construct origin) ([], []))
      ([], [(Phrase.token b.closer).nodeAt place]) ((Phrase.token b.closer).stop place) := by
    apply (Rounds.refl _ _).repeatStep _ h.le_size
    unfold testJunkStep
    refine (runs_peek hcloser).bind ?_
    rw [if_pos (by simp [Token.isOperator, tokenAt])]
    exact (leads_tokenLeaf (.token b.closer) rfl (by simp)).map _
  unfold testClose
  exact hdone.bind ((Leads.pure []).map _)

/-- A test is read as its expression is, wherever the opening bracket comes next. -/
theorem runs_testCommand_of_test (hspaced : p.isGlued = false) (hmode : c.mode = .command)
    (h : Written env.source place (Phrase.test b p :: ps) rest)
    (hafter : Parted (following ((Phrase.test b p).stop place) ps rest))
    (hfirst : Comes env.source ((Phrase.token b.opener).stop place) b.mode {} tok)
    (hnot : tok.isOperator b.closer = false)
    (htest : Runs env (c.inside b.mode) ((Phrase.token b.opener).stop place) (test inner)
      (some (p.nodeAt ((Phrase.token b.opener).stop place)))
      (p.stop ((Phrase.token b.opener).stop place))) :
    Runs env c place (testCommand inner) ((Phrase.test b p).nodeAt place)
      ((Phrase.test b p).stop place) := by
  have hkeyword : b.opener ∈ Keyword.all ∧ b.opener ≠ "!" := by cases b <;> decide
  have hopen := isSpaced_keyword hkeyword.1
  have hparts : Written env.source ((Phrase.token b.opener).stop place)
      (p :: .token b.closer :: ps) rest := h.parts.tail
  have hopener := comes_keyword (a := true) (s := true) hkeyword.1 hkeyword.2 h.parts
    (parted_following hopen.stop_ne_zero hspaced).endsWord
  rw [← hmode] at hopener
  simp only [Phrase.test, Phrase.stop_node, Phrase.stopAll_cons, Phrase.stopAll_nil] at hafter ⊢
  have hcontent (construct : Construct) (origin : Nat) : Runs env c
      ((Phrase.token b.opener).stop place)
      (inMode b.mode <| withFlags {} do
        let content ← testContent inner b.closer construct
        let close ← testClose inner b.closer construct origin
        return content ++ close)
      (nodesAt ((Phrase.token b.opener).stop place) [p, .token b.closer])
      ((Phrase.token b.closer).stop (p.stop ((Phrase.token b.opener).stop place))) := by
    rw [Phrase.nodesAt_cons, Phrase.nodesAt_cons, Phrase.nodesAt_nil]
    exact ((runs_testContent hfirst hnot htest).bind
      ((runs_testClose rfl hparts.tail hafter).map _)).withFlags.inMode
  unfold testCommand
  refine (runs_peekStatement hopener).bind ?_
  cases b with
  | single =>
    refine (leads_keywordLeaf hkeyword.1).bind ((hcontent .bracketTest _).bind ?_)
    exact leads_node (by simp) (by simp [Phrase.token])
  | double =>
    refine (leads_keywordLeaf hkeyword.1).bind ((hcontent .doubleBracketTest _).bind ?_)
    exact leads_node (by simp) (by simp [Phrase.token])

theorem runs_testCommand (hp : IsTest env b Operator.testRows p) (hroom : Enough env c level place)
    (hmode : c.mode = .command) (h : Written env.source place (Phrase.test b p :: ps) rest)
    (hafter : Parted (following ((Phrase.test b p).stop place) ps rest)) :
    Runs env c.deeper place (testCommand (nested level)) ((Phrase.test b p).nodeAt place)
      ((Phrase.test b p).stop place) := by
  have hopen : (Phrase.token b.opener).IsSpaced := by cases b <;> exact .leaf (by decide)
  have hparts : Written env.source ((Phrase.token b.opener).stop place)
      (p :: .token b.closer :: ps) rest := h.parts.tail
  have hparted : Parted (following (p.stop ((Phrase.token b.opener).stop place))
      (.token b.closer :: ps) rest) := parted_following hp.stop_ne_zero rfl
  have hbehind : Parted (following ((Phrase.token b.closer).stop
      (p.stop ((Phrase.token b.opener).stop place))) ps rest) := by
    simpa only [Phrase.test, Phrase.stop_node, Phrase.stopAll_cons, Phrase.stopAll_nil] using hafter
  have hends : EndsTest env.source b Operator.testRows
      (p.stop ((Phrase.token b.opener).stop place)) (.token b.closer :: ps) rest :=
    ⟨hparted, _, comes_testCloser hparts.tail hbehind, tokenAt_adjacent hp.stop_ne_zero,
      rowOperator?_closer⟩
  obtain ⟨first, hfirst, hnot⟩ := hp.starts hparts hparted
  have hroom' := (hroom.nesting (hopen.lt_stop place)).inside b.mode
  exact runs_testCommand_of_test hp.spaced hmode h hafter hfirst hnot
    (hp.runs hroom' rfl hparts hends)

end Grammar

end ShellTree
