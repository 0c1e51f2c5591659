import ShellTree.Proofs.Written.Arithmetic

/-!
This module contains trees of arithmetic expressions whose operands respect the table of operators.
They are read as they are written.
-/

namespace ShellTree

namespace Phrase

variable {place : Nat} {ps : List Phrase} {rest : List Char}

def arithmeticExpansion (expression : Phrase) : Phrase :=
  .node .arithmeticExpansion [.token "$((", expression, .token "))"]

/-- In arithmetic the closing parentheses are two tokens. -/
theorem Written.closeParens {src : Source} (h : Written src place (.token "))" :: ps) rest) :
    Written src place (.token ")" :: .leaf (.token ")") ")" true :: ps) rest := by
  have hspelling : (token "))").spelling place = (token ")").spelling place ++
      (leaf (.token ")") ")" true).spelling ((token ")").stop place) := by
    simp [token, spelling, gap]
  have hstop : (token "))").stop place =
      (leaf (.token ")") ")" true).stop ((token ")").stop place) := by
    rw [stop, hspelling, byteLength_append, ← Nat.add_assoc]
    rfl
  unfold Written at h ⊢
  rw [h, following_cons, following_cons, following_cons, hspelling, hstop, List.append_assoc]

end Phrase

namespace Grammar

open Parse Lexer
open Phrase (Written tokenAt following)

variable {env : Env} {c : Setting} {level place : Nat} {tok : Token} {p : Phrase}
variable {ps : List Phrase} {rest : List Char}

/-! ### Expansions -/

theorem runs_atArithmeticClose_false (h : Comes env.source place c.mode {} tok)
    (hclose : tok.isOperator ")" = false) : Runs env c place atArithmeticClose false place := by
  unfold atArithmeticClose
  refine (runs_peek h).bind ?_
  rw [hclose, if_neg Bool.false_ne_true]
  exact Leads.pure _

theorem comes_closeParens (h : Written env.source place (.token "))" :: ps) rest) :
    Comes env.source place .arithmetic {} (tokenAt place (.operator ")") ")" false) := by
  apply comes_closing h.closeParens
  rintro d ⟨⟩
  decide

theorem runs_atArithmeticClose (hmode : c.mode = .arithmetic)
    (h : Written env.source place (.token "))" :: ps) rest) :
    Runs env c place atArithmeticClose true place := by
  have hclose := comes_closeParens h
  have htail : env.source.tail? (tokenAt place (.operator ")") ")" false).span.stop =
      some (following ((Phrase.token ")").stop place) (.leaf (.token ")") ")" true :: ps) rest) := by
    rw [tokenAt_stop]
    exact h.closeParens.tail
  rw [← hmode] at hclose
  unfold atArithmeticClose
  refine (runs_peek hclose).bind ?_
  rw [if_pos (by simp [Token.isOperator, tokenAt])]
  exact (leads_charactersAt htail).map _

theorem runs_arithmeticClose (construct : Construct) (origin : Nat) (hmode : c.mode = .arithmetic)
    (h : Written env.source place (.token "))" :: ps) rest) :
    Runs env c place (arithmeticClose construct origin) [(Phrase.token "))").nodeAt place]
      ((Phrase.token "))").stop place) := by
  have hclose := comes_closeParens h
  rw [← hmode] at hclose
  have hdone : Runs env c place (repeatStep (arithmeticJunkStep construct origin) ([], false))
      ([], true) place := by
    apply (Rounds.refl _ _).repeatStep _ h.le_size
    unfold arithmeticJunkStep
    exact (runs_atArithmeticClose hmode h).bind (Leads.pure _)
  unfold arithmeticClose
  refine hdone.bind ((Leads.pure []).bind ?_)
  rw [if_pos rfl]
  refine (runs_peek hclose).bind ?_
  have hspan : Span.ofWidth (tokenAt place (.operator ")") ")" false).span.start 2 =
      (tokenAt place (.operator "))") "))" false).span := rfl
  rw [hspan]
  exact leads_leafAt.map _

theorem comes_arithmeticExpansion {a s : Bool} (hp : p.IsExact)
    (h : Written env.source place (.arithmeticExpansion p :: ps) rest) :
    Comes env.source place .command { assignment := a, statementStart := s }
      (tokenAt place (.operator "$((") "$((" false) := by
  apply comes_doubleParen h.parts
  -- The lookahead walks over the expression and the space behind it, up to the parentheses.
  have hchars : following ((Phrase.token "$((").stop place) (p :: .token "))" :: ps) rest =
      (p.spelling ((Phrase.token "$((").stop place) ++
        Phrase.gap false (p.stop ((Phrase.token "$((").stop place))) ++ ')' :: ')' ::
        following ((Phrase.token "))").stop (p.stop ((Phrase.token "$((").stop place))) ps rest := by
    simp [Phrase.following_cons, Phrase.spelling, Phrase.token]
  change DoubleParen.opensSubshell (following _ (p :: .token "))" :: ps) rest) = false
  rw [← Phrase.token, hchars]
  exact ((hp.balanced _).append Phrase.balanced_gap).opensSubshell_eq_false _

theorem runs_arithmeticBody {start : Nat} (construct : Construct) (origin : Nat)
    (hp : IsArithmetic env 0 p) (hroom : Enough env c level start) (hlt : start < place)
    (hmode : c.mode = .arithmetic) (h : Written env.source place (p :: .token "))" :: ps) rest) :
    Runs env c.deeper place (arithmeticBody (nested level) construct origin)
      (Phrase.nodesAt place [p, .token "))"]) (Phrase.stopAll place [p, .token "))"]) := by
  have hparted : Parted (following (p.stop place) (.token "))" :: ps) rest) :=
    parted_following hp.stop_ne_zero rfl
  obtain ⟨first, hfirst, hnot⟩ := hp.starts h hparted
  have hends : EndsExpression env.source 0 (p.stop place) (.token "))" :: ps) rest :=
    ⟨hparted, _, comes_closeParens h.tail, tokenAt_adjacent hp.stop_ne_zero, rfl⟩
  obtain ⟨inside, rfl, hinside⟩ := hroom.exists_level hlt h.le_size
  have hmode' : c.deeper.mode = .arithmetic := hmode
  have hexpression : Runs env c.deeper place (requiredExpression (nested (inside + 1)))
      [p.nodeAt place] (p.stop place) := (hp.runs hinside hmode' h hends).bind (Leads.pure _)
  rw [← hmode'] at hfirst
  simp only [Phrase.stopAll_cons, Phrase.stopAll_nil, Phrase.nodesAt_cons, Phrase.nodesAt_nil]
  unfold arithmeticBody
  refine (runs_atArithmeticClose_false hfirst hnot).bind (hexpression.bind ?_)
  exact (runs_arithmeticClose _ _ hmode' h.tail).map _

theorem runs_arithmeticExpansion (hp : IsArithmetic env 0 p) (hroom : Enough env c level place)
    (hmode : c.mode = .command)
    (h : Written env.source place (.arithmeticExpansion p :: ps) rest) :
    Runs env c.deeper place (arithmeticExpansion (nested level))
      ((Phrase.arithmeticExpansion p).nodeAt place) ((Phrase.arithmeticExpansion p).stop place) := by
  have hopen := comes_arithmeticExpansion (a := false) (s := false) hp.toIsExact h
  have hlt : place < (Phrase.token "$((").stop place := Phrase.lt_stop_leaf (by decide)
  have hbody : Runs env (c.deeper.inside .arithmetic) _ _ _ _ :=
    runs_arithmeticBody .arithmeticExpansion (tokenAt place (.operator "$((") "$((" false).span.start
      hp (hroom.inside .arithmetic) hlt rfl h.parts.tail
  have hmode' : c.deeper.mode = .command := hmode
  rw [← hmode'] at hopen
  rw [Phrase.arithmeticExpansion, Phrase.stop_node, Phrase.stopAll_cons]
  unfold arithmeticExpansion
  refine (runs_peek hopen).bind ?_
  refine (leads_tokenLeaf (.token "$((") rfl (by simp)).bind ?_
  refine hbody.withFlags.inMode.bind ?_
  exact leads_node (by simp) (by simp [Phrase.token])

theorem fragmentOf_arithmeticExpansion (inner : Nested) :
    fragmentOf inner (tokenAt place (.operator "$((") "$((" false) = arithmeticExpansion inner := rfl

/-- A command with an arithmetic expansion as its argument is a script by itself. -/
theorem parse_of_arithmetic {text : String} {options : Options} {name : CommandName}
    (hp : IsArithmetic ⟨.ofString text, options, false⟩ 0 p)
    (hstatements : options.maxStatements ≠ some 0)
    (hdepth : (Source.ofString text).size ≤ options.maxDepth)
    (h : Written (.ofString text) 0 [.namedCommand name [.arithmeticExpansion p]] []) :
    parse (.ofString text) options =
      .ok (Phrase.script text [.namedCommand name [.arithmeticExpansion p]]) := by
  let env : Env := ⟨.ofString text, options, false⟩
  have hargument : Written env.source (name.phrase.stop 0) [.arithmeticExpansion p] [] :=
    h.parts.parts.tail
  have hopen := comes_arithmeticExpansion (a := false) (s := false) hp.toIsExact hargument
  have hspaced : (Phrase.token "$((").IsSpaced := .leaf (by decide)
  have hname := name.lt_stop 0
  have hroom : Enough env ({} : Setting).deeper ((Source.ofString text).size + 1)
      (name.phrase.stop 0) := ⟨Nat.lt_add_left _ (Nat.lt_succ_self _), hname, hdepth⟩
  have hshort : 1 < options.maxDepth := by
    have hlt := hspaced.lt_stop (name.phrase.stop 0)
    have hle : _ ≤ (Source.ofString text).size := hargument.parts.tail.le_size
    omega
  refine parse_of_argument hstatements hshort h (hspaced.node _) hopen
    (tokenAt_adjacent (name.stop_ne_zero 0)) rfl ?_
  rw [fragmentOf_arithmeticExpansion]
  exact runs_arithmeticExpansion hp hroom rfl hargument

end Grammar

/-! ### Trees -/

/-- A binary operator and its row of the table. -/
structure ArithmeticOperator where
  text : String
  row : Nat
  isInRow : Operator.isInRow Operator.arithmeticRows row text := by decide

mutual

/-- An expression of the row or a tighter one. -/
inductive Arithmetic : Nat → Type where
  | operand {row : Nat} (operand : ArithmeticOperand) : Arithmetic row
  | binary {row : Nat} (operator : ArithmeticOperator)
    (left : Arithmetic (Grammar.leftRow operator.row))
    (right : Arithmetic (Grammar.rightRow operator.row))
    (row_le : row ≤ operator.row := by decide) : Arithmetic row
  | conditional {row : Nat} (condition : Arithmetic (Operator.conditionalRow + 1))
    (whenTrue : Arithmetic 0) (whenFalse : Arithmetic Operator.conditionalRow)
    (row_le : row ≤ Operator.conditionalRow := by decide) : Arithmetic row

inductive ArithmeticOperand where
  | primary (operand : ArithmeticPrimary)
  | prefixed (operator : String) (operand : ArithmeticOperand)
    (mem : operator ∈ Operator.arithmeticPrefixes := by decide)
  | postfixed (operand : ArithmeticPrimary) (operator : String)
    (mem : operator ∈ Operator.arithmeticPostfixes := by decide)

inductive ArithmeticPrimary where
  | name (text : String) (isName : isName text.toList := by decide)
  | number (text : String) (ne_nil : text.toList ≠ [] := by decide)
    (isDigit : ∀ c ∈ text.toList, c.isDigit := by decide)
  | group (expression : Arithmetic 0)

end

mutual

def Arithmetic.phrase {row : Nat} : Arithmetic row → Phrase
  | .operand operand => operand.phrase
  | .binary operator left right _ =>
    .node .binaryArithmeticExpression [left.phrase, .token operator.text, right.phrase]
  | .conditional condition whenTrue whenFalse _ =>
    .node .ternaryArithmeticExpression
      [condition.phrase, .token "?", whenTrue.phrase, .token ":", whenFalse.phrase]

def ArithmeticOperand.phrase : ArithmeticOperand → Phrase
  | .primary operand => operand.phrase
  | .prefixed operator operand _ =>
    .node .unaryArithmeticExpression [.token operator, operand.phrase]
  -- Behind a space the operator would be no postfix.
  | .postfixed operand operator _ =>
    .node .postfixArithmeticExpression [operand.phrase, .leaf (.token operator) operator true]

def ArithmeticPrimary.phrase : ArithmeticPrimary → Phrase
  | .name text _ => .word text
  | .number text _ _ => .leaf .number text false
  | .group expression =>
    .node .parenthesizedArithmeticExpression [.token "(", expression.phrase, .token ")"]

end

def CommandName.echo : CommandName := { text := "echo" }

/-- A command with an arithmetic expansion as its argument. -/
def Arithmetic.echo (expression : Arithmetic 0) : Phrase :=
  .namedCommand .echo [.arithmeticExpansion expression.phrase]

def Arithmetic.text (expression : Arithmetic 0) : String := Phrase.text [expression.echo] []

namespace Grammar

open Parse

variable {env : Env}

mutual

theorem isArithmetic_tree {row : Nat} : (expression : Arithmetic row) →
    IsArithmetic env row expression.phrase
  | .operand operand => .operand row (isArithmeticOperand_tree operand)
  | .binary operator left right row_le =>
    .binary operator.isInRow row_le (isArithmetic_tree left) (isArithmetic_tree right)
  | .conditional condition whenTrue whenFalse row_le =>
    .conditional row_le (isArithmetic_tree condition) (isArithmetic_tree whenTrue)
      (isArithmetic_tree whenFalse)

theorem isArithmeticOperand_tree : (operand : ArithmeticOperand) →
    IsArithmeticOperand env operand.phrase
  | .primary operand => .primary (isArithmeticPrimary_tree operand)
  | .prefixed _ operand mem => .prefixed mem (isArithmeticOperand_tree operand)
  | .postfixed operand _ mem => .postfixed (isArithmeticPrimary_tree operand) mem

theorem isArithmeticPrimary_tree : (operand : ArithmeticPrimary) →
    IsArithmeticPrimary env operand.phrase
  | .name _ isName => .name isName
  | .number _ ne_nil isDigit => .number ne_nil isDigit
  | .group expression => .group (isArithmetic_tree expression)

end

end Grammar

theorem parse_arithmetic (expression : Arithmetic 0) (options : Options)
    (hstatements : options.maxStatements ≠ some 0)
    (hdepth : expression.text.utf8ByteSize ≤ options.maxDepth) :
    parse (.ofString expression.text) options =
      .ok (Phrase.script expression.text [expression.echo]) := by
  have h : Phrase.Written (.ofString expression.text) 0 [expression.echo] [] :=
    Phrase.written_text [expression.echo] []
  exact Grammar.parse_of_arithmetic (Grammar.isArithmetic_tree expression) hstatements hdepth h

theorem parse_arithmetic_conditional :
    parse (.ofString "echo $(( x = a ? ( b , - 1 )++ : 2 ** c ** d - e ))") { maxDepth := 60 } =
      .ok (Phrase.script "echo $(( x = a ? ( b , - 1 )++ : 2 ** c ** d - e ))"
        [.node .command
          [.node .commandName [.word "echo"],
           .node .arithmeticExpansion
            [.token "$((",
             .node .binaryArithmeticExpression
              [.word "x",
               .token "=",
               .node .ternaryArithmeticExpression
                [.word "a",
                 .token "?",
                 .node .postfixArithmeticExpression
                  [.node .parenthesizedArithmeticExpression
                    [.token "(",
                     .node .binaryArithmeticExpression
                      [.word "b",
                       .token ",",
                       .node .unaryArithmeticExpression [.token "-", .leaf .number "1" false]],
                     .token ")"],
                   .leaf (.token "++") "++" true],
                 .token ":",
                 .node .binaryArithmeticExpression
                  [.node .binaryArithmeticExpression
                    [.leaf .number "2" false,
                     .token "**",
                     .node .binaryArithmeticExpression [.word "c", .token "**", .word "d"]],
                   .token "-",
                   .word "e"]]],
             .token "))"]]]) := by
  let name (text : String) (h : isName text.toList) : ArithmeticOperand := .primary (.name text h)
  let grouped : Arithmetic 0 := .binary ⟨",", 0, by decide⟩ (.operand (name "b" (by decide)))
    (.operand (.prefixed "-" (.primary (.number "1"))))
  let power : Arithmetic 11 := .binary ⟨"**", 13, by decide⟩ (.operand (.primary (.number "2")))
    (.binary ⟨"**", 13, by decide⟩ (.operand (name "c" (by decide)))
      (.operand (name "d" (by decide))))
  let choice : Arithmetic 1 := .conditional (.operand (name "a" (by decide)))
    (.operand (.postfixed (.group grouped) "++"))
    (.binary ⟨"-", 11, by decide⟩ power (.operand (name "e" (by decide))))
  let expression : Arithmetic 0 :=
    .binary ⟨"=", 1, by decide⟩ (.operand (name "x" (by decide))) choice
  have htext : "echo $(( x = a ? ( b , - 1 )++ : 2 ** c ** d - e ))" = expression.text := by
    decide +kernel
  rw [htext]
  exact parse_arithmetic expression { maxDepth := 60 } (by decide) (by rw [← htext]; decide)

end ShellTree
