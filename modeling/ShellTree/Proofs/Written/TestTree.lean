import ShellTree.Proofs.Behind.Moves
import ShellTree.Proofs.Written.Test

/-!
This module contains trees of tests whose operands respect the table of operators. They are read as
they are written, in both forms of brackets.
-/

namespace ShellTree

/-!
### Phrases further on

What is written at two places other than the start of the text is the same up to a move.
-/

namespace Phrase

variable {place : Nat} {p : Phrase} {ps : List Phrase}

theorem gap_add {glued : Bool} (hplace : place ≠ 0) (width : Nat) :
    gap glued (place + width) = gap glued place := by
  simp [gap, hplace]

mutual

theorem spelling_add {place : Nat} (hplace : place ≠ 0) (width : Nat) :
    (p : Phrase) → p.spelling (place + width) = p.spelling place
  | leaf _ _ _ => by rw [spelling, spelling, gap_add hplace]
  | node _ parts => by
    rw [spelling_node, spelling_node]
    exact spellingAll_add hplace width parts

theorem spellingAll_add {place : Nat} (hplace : place ≠ 0) (width : Nat) :
    (ps : List Phrase) → spellingAll (place + width) ps = spellingAll place ps
  | [] => by rw [spellingAll_nil, spellingAll_nil]
  | p :: ps => by
    have hstop : p.stop (place + width) = p.stop place + width := by
      rw [stop, stop, spelling_add hplace width p, Nat.add_right_comm]
    have hne : p.stop place ≠ 0 :=
      Nat.ne_of_gt (Nat.lt_of_lt_of_le (Nat.pos_of_ne_zero hplace) (le_stop place p))
    rw [spellingAll_cons, spellingAll_cons, spelling_add hplace width p, hstop,
      spellingAll_add hne width ps]

end

theorem stop_add (hplace : place ≠ 0) (width : Nat) (p : Phrase) :
    p.stop (place + width) = p.stop place + width := by
  rw [stop, stop, spelling_add hplace, Nat.add_right_comm]

theorem span_add (hplace : place ≠ 0) (width : Nat) (p : Phrase) :
    p.span (place + width) = moved width (p.span place) := by
  apply Span.eq_of_stop_eq
  . rw [span_start, moved_start, span_start, start, start, gap_add hplace, Nat.add_right_comm]
  . rw [span_stop, moved_stop, span_stop, stop_add hplace]

mutual

/-- A phrase that is written further on is the same node, moved. -/
theorem nodeAt_add {place : Nat} (hplace : place ≠ 0) (width : Nat) :
    (p : Phrase) → p.nodeAt (place + width) = moved width (p.nodeAt place)
  | leaf kind text glued => by
    rw [nodeAt, nodeAt, span_add hplace]
    rfl
  | node kind parts => by
    rw [nodeAt_node, nodeAt_node, span_add hplace, nodesAt_add hplace width parts]
    rfl

theorem nodesAt_add {place : Nat} (hplace : place ≠ 0) (width : Nat) :
    (ps : List Phrase) → nodesAt (place + width) ps = Node.moveAll width (nodesAt place ps)
  | [] => by
    rw [nodesAt_nil, nodesAt_nil]
    rfl
  | p :: ps => by
    have hne : p.stop place ≠ 0 :=
      Nat.ne_of_gt (Nat.lt_of_lt_of_le (Nat.pos_of_ne_zero hplace) (le_stop place p))
    rw [nodesAt_cons, nodesAt_cons, nodeAt_add hplace width p, stop_add hplace,
      nodesAt_add hne width ps]
    rfl

end

end Phrase

/-! ### Trees -/

mutual

/-- A test of the rows. An operator of the first row has more of its row on its left only. -/
inductive Test : List Operator.Row → Type where
  | operand (operand : TestOperand) : Test []
  | tighter {row : Operator.Row} {rows : List Operator.Row} (test : Test rows) : Test (row :: rows)
  | binary {row : Operator.Row} {rows : List Operator.Row} (left : Test (row :: rows))
    (operator : String) (right : Test rows) (mem : operator ∈ row.operators := by decide)
    (ne : operator ≠ "=~" := by decide) : Test (row :: rows)

inductive TestOperand where
  | primary (operand : TestPrimary)
  | negation (operand : TestOperand)
  | option (operator : String) (operand : TestPrimary)
    (isLetterOption : isLetterOption operator := by decide)

inductive TestPrimary where
  | word (w : Word)
  | group (test : Test Operator.testRows)

end

mutual

def Test.phrase {rows : List Operator.Row} : Test rows → Phrase
  | .operand operand => operand.phrase
  | .tighter test => test.phrase
  | .binary left operator right _ _ =>
    .node .binaryExpression [left.phrase, .token operator, right.phrase]

def TestOperand.phrase : TestOperand → Phrase
  | .primary operand => operand.phrase
  | .negation operand => .node .unaryExpression [.token "!", operand.phrase]
  | .option operator operand _ =>
    .node .unaryExpression [.leaf .testOperator operator false, operand.phrase]

def TestPrimary.phrase : TestPrimary → Phrase
  | .word w => w.phrase
  | .group test => .node .parenthesizedExpression [.token "(", test.phrase, .token ")"]

end

def Test.text (test : Test Operator.testRows) (b : Brackets) : String :=
  Phrase.text [.test b test.phrase] []

/-- The tree of a script that is the test. -/
def Test.tree (test : Test Operator.testRows) (b : Brackets) : Tree :=
  Phrase.script (test.text b) [.test b test.phrase]

/-- The expression of the test that a script begins with. -/
def Tree.testExpression? (tree : Tree) : Option Node := do
  let command ← tree.root.children.head?
  command.children[1]?

theorem Test.testExpression?_tree (test : Test Operator.testRows) (b : Brackets) :
    (test.tree b).testExpression? =
      some (test.phrase.nodeAt ((Phrase.token b.opener).stop 0)) := by
  simp [tree, Phrase.script, Tree.testExpression?, Phrase.test, Phrase.nodeAt_node]

namespace Grammar

open Parse Lexer

variable {env : Env} {b : Brackets} {rows : List Operator.Row} {p : Phrase}

/-- The phrase is read as an operand where there are no rows, and as a chain of the first row where
there are. -/
def ReadsTest (env : Env) (b : Brackets) : List Operator.Row → Phrase → Prop
  | [], p => IsTestOperand env b p
  | row :: rows, p => IsChain env b row rows p

theorem ReadsTest.isTest (h : ReadsTest env b rows p) : IsTest env b rows p := by
  cases rows with
  | nil => exact .operand h
  | cons row rows => exact IsChain.isTest h

mutual

theorem readsTest_tree {rows : List Operator.Row} (hmax : env.source.size < env.options.maxDepth)
    (hrows : rows <:+ Operator.testRows) : (test : Test rows) → ReadsTest env b rows test.phrase
  | .operand operand => isTestOperand_tree hmax operand
  | .tighter test =>
    (readsTest_tree hmax ((List.suffix_cons _ _).trans hrows) test).isTest.chain _
  | .binary left _ right mem ne =>
    .binary hrows mem ne (readsTest_tree hmax hrows left)
      (readsTest_tree hmax ((List.suffix_cons _ _).trans hrows) right).isTest

theorem isTestOperand_tree (hmax : env.source.size < env.options.maxDepth) :
    (operand : TestOperand) → IsTestOperand env b operand.phrase
  | .primary operand => .primary (isTestPrimary_tree hmax operand)
  | .negation operand => .negation (isTestOperand_tree hmax operand)
  | .option _ operand isLetterOption => .option isLetterOption (isTestPrimary_tree hmax operand)

theorem isTestPrimary_tree (hmax : env.source.size < env.options.maxDepth) :
    (operand : TestPrimary) → IsTestPrimary env b operand.phrase
  | .word w => .word hmax w
  | .group test => .group (readsTest_tree hmax (List.suffix_refl _) test).isTest

end

theorem opener_mem (b : Brackets) : b.opener ∈ Keyword.all ∧ b.opener ≠ "!" := by
  cases b <;> decide

theorem endsWord_opener {place : Nat} {ps : List Phrase} {rest : List Char}
    (hspaced : p.isGlued = false) :
    EndsWord (Phrase.following ((Phrase.token b.opener).stop place) (p :: ps) rest) :=
  (parted_following (stop_keyword_ne_zero (opener_mem b).1) hspaced).endsWord

theorem startsStatement_test {ctx : ListContext} (hspaced : p.isGlued = false)
    (h : Phrase.Written env.source 0 [Phrase.test b p] []) :
    StartsStatement env.source 0 ctx := by
  have hopen : b.opener ∉ Keyword.closing := by cases b <;> decide
  refine ⟨_, comes_keyword (opener_mem b).1 (opener_mem b).2 h.parts (endsWord_opener hspaced), rfl,
    nofun, ?_⟩
  simp [endsList, Phrase.tokenAt, hopen]

theorem runs_testStatement {inner : Nested} (hspaced : p.isGlued = false)
    (hdepth : 0 < env.options.maxDepth) (h : Phrase.Written env.source 0 [Phrase.test b p] [])
    (hcommand : Runs env (Setting.deeper {}) 0 (testCommand inner) ((Phrase.test b p).nodeAt 0)
      ((Phrase.test b p).stop 0)) :
    Runs env {} 0 (primaryStatement inner) (some ((Phrase.test b p).nodeAt 0))
      ((Phrase.test b p).stop 0) := by
  have hcompound : compoundOf? inner b.opener = some (testCommand inner) := by
    cases b <;> rfl
  exact runs_keywordStatement hcompound (opener_mem b).1 (opener_mem b).2 rfl hdepth h.parts
    (endsWord_opener hspaced) hcommand

theorem parse_written_test {text : String} {options : Options} (test : Test Operator.testRows)
    (hstatements : options.maxStatements ≠ some 0) (hmax : text.utf8ByteSize < options.maxDepth)
    (h : Phrase.Written (.ofString text) 0 [Phrase.test b test.phrase] []) :
    parse (.ofString text) options = .ok (Phrase.script text [Phrase.test b test.phrase]) := by
  have htest : IsTest ⟨.ofString text, options, false⟩ b Operator.testRows test.phrase :=
    (@readsTest_tree ⟨.ofString text, options, false⟩ b _ hmax (List.suffix_refl _) test).isTest
  have hroom : Enough ⟨.ofString text, options, false⟩ {} ((Source.ofString text).size + 1) 0 :=
    ⟨by dsimp only; omega, Nat.le_refl 0, hmax.le⟩
  exact parse_of_statement hstatements h
    (@startsStatement_test ⟨.ofString text, options, false⟩ b _ _ htest.spaced h)
    (runs_testStatement htest.spaced (Nat.zero_lt_of_lt hmax) h
      (runs_testCommand htest hroom rfl h nofun))

end Grammar

theorem parse_test (test : Test Operator.testRows) (options : Options)
    (hstatements : options.maxStatements ≠ some 0)
    (hdepth : ∀ b, (test.text b).utf8ByteSize < options.maxDepth) :
    (∀ b, parse (.ofString (test.text b)) options = .ok (test.tree b)) ∧
      ∃ expression, (test.tree .single).testExpression? = some expression ∧
        (test.tree .double).testExpression? = some (moved 1 expression) := by
  refine ⟨fun b => ?_, test.phrase.nodeAt ((Phrase.token "[").stop 0), ?_, ?_⟩
  . exact Grammar.parse_written_test test hstatements (hdepth b) (Phrase.written_text _ _)
  . exact test.testExpression?_tree .single
  . -- The wider bracket only moves the place where the expression is written.
    rw [← Phrase.nodeAt_add (by decide)]
    exact test.testExpression?_tree .double

theorem parse_test_negation :
    ∃ expression : Phrase, expression =
        .node .binaryExpression
          [.node .unaryExpression
            [.token "!",
             .node .parenthesizedExpression
              [.token "(",
               .node .binaryExpression
                [.node .unaryExpression [.leaf .testOperator "-a" false, .word "b"],
                 .token "-o",
                 .word "c"],
               .token ")"]],
           .token "&&",
           .node .binaryExpression
            [.node .binaryExpression [.word "d", .token "-ef", .word "e"],
             .token "==",
             .node .unaryExpression
              [.leaf .testOperator "-o" false,
               .node .parenthesizedExpression [.token "(", .word "if", .token ")"]]]] ∧
      parse (.ofString "[ ! ( -a b -o c ) && d -ef e == -o ( if ) ]") { maxDepth := 60 } =
        .ok (Phrase.script "[ ! ( -a b -o c ) && d -ef e == -o ( if ) ]"
          [.test .single expression]) ∧
      parse (.ofString "[[ ! ( -a b -o c ) && d -ef e == -o ( if ) ]]") { maxDepth := 60 } =
        .ok (Phrase.script "[[ ! ( -a b -o c ) && d -ef e == -o ( if ) ]]"
          [.test .double expression]) := by
  let word (text : String) (h : text.toList ≠ [] ∧ ∀ c ∈ text.toList, c.isLower) : TestPrimary :=
    .word ⟨text, h.1, h.2⟩
  let tight (operand : TestOperand) : Test (Operator.testRows.drop 1) :=
    .tighter (.tighter (.tighter (.operand operand)))
  let choice : Test Operator.testRows :=
    .binary (.tighter (tight (.option "-a" (word "b" (by decide))))) "-o"
      (tight (.primary (word "c" (by decide))))
  let files : Test (Operator.testRows.drop 3) :=
    .binary (.tighter (.operand (.primary (word "d" (by decide))))) "-ef"
      (.operand (.primary (word "e" (by decide))))
  let option : TestOperand :=
    .option "-o" (.group (.tighter (tight (.primary (word "if" (by decide))))))
  let comparison : Test (Operator.testRows.drop 2) :=
    .binary (.tighter files) "==" (.tighter (.operand option))
  let test : Test Operator.testRows :=
    .tighter (.binary (tight (.negation (.primary (.group choice)))) "&&" comparison)
  have hsingle : "[ ! ( -a b -o c ) && d -ef e == -o ( if ) ]" = test.text .single := by
    decide +kernel
  have hdouble : "[[ ! ( -a b -o c ) && d -ef e == -o ( if ) ]]" = test.text .double := by
    decide +kernel
  have hparse := (parse_test test { maxDepth := 60 } (by decide)
    (fun | .single => by rw [← hsingle]; decide | .double => by rw [← hdouble]; decide)).1
  refine ⟨test.phrase, rfl, ?_, ?_⟩
  . rw [hsingle]
    exact hparse .single
  . rw [hdouble]
    exact hparse .double

end ShellTree
