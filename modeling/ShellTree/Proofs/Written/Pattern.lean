import ShellTree.Proofs.Program
import ShellTree.Proofs.Written.TestTree

/-!
This module contains patterns of plain characters and bracket expressions, and the parse of the
tests in which they stand behind `=~`. The scanner counts brackets of all kinds alike, also those in
bracket expressions: it takes a pattern up to its end if none is open there.
-/

namespace ShellTree

/-- An ASCII character that stands for itself where nothing is quoted. -/
def isUnquoted (c : Char) : Bool :=
  c.utf8Size == 1 && !isSpace c && c != '\'' && c != '"' && c != '\\'

/-- The characters of bracket expressions. -/
def isMember (c : Char) : Bool := isUnquoted c && c != '$' && c != '\x60' && c != '[' && c != ']'

/-- The characters of patterns outside of bracket expressions. -/
def isPatternChar (c : Char) : Bool :=
  isMember c && c != '(' && c != ')' && c != '\x7b' && c != '\x7d'

inductive IsPattern : List Char → Prop where
  | nil : IsPattern []
  | char {c : Char} {cs : List Char} : isPatternChar c → IsPattern cs → IsPattern (c :: cs)
  | bracket {members cs : List Char} :
    members ≠ [] → (∀ c ∈ members, isMember c) → IsPattern cs →
      IsPattern ('[' :: (members ++ ']' :: cs))

/-- The number of open brackets behind a character. Brackets of one kind close those of another, and
what closes nothing does not count. -/
def bracketStep (depth : Nat) (c : Char) : Nat :=
  if c == '(' || c == '[' || c == '\x7b' then depth + 1
  else if c == ')' || c == ']' || c == '\x7d' then depth - 1
  else depth

/-- The number of open brackets at the end. -/
def bracketDepth (cs : List Char) : Nat := cs.foldl bracketStep 0

theorem isUnquoted_of_isMember {c : Char} (h : isMember c) : isUnquoted c := by
  simp only [isMember, Bool.and_eq_true] at h
  exact h.1.1.1.1

theorem IsPattern.head_ne {cs : List Char} (h : IsPattern cs) : cs.head? ≠ some ']' := by
  cases h with
  | nil => nofun
  | char hc =>
    simp only [isPatternChar, isMember, Bool.and_eq_true, bne_iff_ne] at hc
    simpa using hc.1.1.1.1.2
  | bracket => simp

theorem IsPattern.head_isUnquoted {c : Char} {cs : List Char} (h : IsPattern (c :: cs)) :
    isUnquoted c ∧ c ≠ '$' := by
  cases h with
  | char hc =>
    simp only [isPatternChar, isMember, Bool.and_eq_true, bne_iff_ne] at hc
    exact ⟨hc.1.1.1.1.1.1.1.1, hc.1.1.1.1.1.1.1.2⟩
  | bracket => decide

/-! ### The scanner -/

namespace Lexeme

variable {c : Char} {cs members taken after : List Char} {depth : Nat}

/-- One character is taken, unless it could open the closer of the test. -/
theorem regex_cons (hc : isUnquoted c) (hends : c = ']' → cs.head? ≠ some ']')
    (h : regex false .bare (bracketStep depth c) cs = .ok taken) :
    regex false .bare depth (c :: cs) = .ok (c :: taken) := by
  simp only [isUnquoted, Bool.and_eq_true, beq_iff_eq, Bool.not_eq_true', bne_iff_ne] at hc
  obtain ⟨⟨⟨⟨hsize, hspace⟩, hsingle⟩, hdouble⟩, hbackslash⟩ := hc
  have hclose : atDoubleBracketClose (c :: cs) = false := by
    unfold atDoubleBracketClose
    split
    . next heq =>
      obtain ⟨rfl, rfl⟩ := List.cons.inj heq
      exact absurd rfl (hends rfl)
    . rfl
  have hnext : Quoting.next .bare c = .bare := by simp [Quoting.next, hsingle, hdouble]
  rw [regex.eq_def]
  dsimp only
  rw [if_neg (by simp [endsRegex, hspace, hclose]), if_neg (by simp [hbackslash]),
    if_neg (by simp [hsize])]
  unfold bracketStep at h
  simp only [decide_true, Bool.true_and, hnext]
  split
  . next hopen =>
    rw [if_pos hopen] at h
    rw [h]
    rfl
  . next hopen =>
    rw [if_neg hopen] at h
    split
    . next hclose =>
      rw [if_pos hclose] at h
      rw [h]
      rfl
    . next hclose =>
      rw [if_neg hclose] at h
      rw [h]
      rfl

theorem regex_members (hmembers : ∀ c ∈ members, isMember c)
    (h : regex false .bare (members.foldl bracketStep depth) cs = .ok taken) :
    regex false .bare depth (members ++ cs) = .ok (members ++ taken) := by
  induction members generalizing depth with
  | nil => exact h
  | cons c members ih =>
    obtain ⟨hc, hmembers⟩ := List.forall_mem_cons.1 hmembers
    refine regex_cons (isUnquoted_of_isMember hc) ?_ (ih hmembers h)
    rintro rfl
    simp [isMember] at hc

/-- A pattern is taken as a whole, whatever is open before it and behind it. -/
theorem regex_append (hcs : IsPattern cs) (hafter : after.head? ≠ some ']')
    (h : regex false .bare (cs.foldl bracketStep depth) after = .ok taken) :
    regex false .bare depth (cs ++ after) = .ok (cs ++ taken) := by
  induction hcs generalizing depth with
  | nil => exact h
  | char hc _ ih =>
    simp only [isPatternChar, Bool.and_eq_true] at hc
    refine regex_cons (isUnquoted_of_isMember hc.1.1.1.1) ?_ (ih h)
    rintro rfl
    simp [isMember] at hc
  | @bracket members cs _ hmembers hcs ih =>
    rw [List.foldl_cons, List.foldl_append, List.foldl_cons] at h
    have hnext : (cs ++ after).head? ≠ some ']' := by
      cases cs with
      | nil => exact hafter
      | cons c cs => exact hcs.head_ne
    have hclosed : regex false .bare (members.foldl bracketStep (bracketStep depth '['))
        (']' :: (cs ++ after)) = .ok (']' :: (cs ++ taken)) :=
      regex_cons rfl (fun _ => hnext) (ih h)
    have hopened : regex false .bare depth ('[' :: (members ++ ']' :: (cs ++ after))) =
        .ok ('[' :: (members ++ ']' :: (cs ++ taken))) :=
      regex_cons rfl nofun (regex_members hmembers hclosed)
    simpa using hopened

/-- Where no bracket is open behind a pattern, it ends at a space. -/
theorem regex_pattern (hcs : IsPattern cs) (hdepth : bracketDepth cs = 0)
    (hafter : Lexer.Parted after) : regex false .bare 0 (cs ++ after) = .ok cs := by
  have hhead : after.head? ≠ some ']' := by
    intro hhead
    have hspace := hafter ']' hhead
    contradiction
  have hend : regex false .bare (cs.foldl bracketStep 0) after = .ok [] := by
    rw [show cs.foldl bracketStep 0 = 0 from hdepth, regex.eq_def]
    cases after with
    | nil => rfl
    | cons c after =>
      rw [hafter c rfl]
      rfl
  have hregex := regex_append hcs hhead hend
  rwa [List.append_nil] at hregex

end Lexeme

/-- A pattern that can be written behind `=~`: it opens no comment there, and no bracket is open at
its end. -/
structure IsRegex (r : String) : Prop where
  isPattern : IsPattern r.toList
  ne_nil : r.toList ≠ []
  head_ne : r.toList.head? ≠ some '#'
  closed : bracketDepth r.toList = 0

def Phrase.pattern (w : Word) (r : String) : Phrase :=
  .node .binaryExpression [w.phrase, .token "=~", .leaf .regex r false]

namespace Lexer

open Phrase (Written tokenAt following)

variable {src : Source} {place : Nat} {r : String} {ps : List Phrase} {rest : List Char}

/-- The pattern behind its operator is the next token. -/
theorem nextRegex_written (hr : IsRegex r)
    (h : Written src place (.leaf .regex r false :: ps) rest)
    (hafter : Parted (following ((Phrase.leaf .regex r false).stop place) ps rest)) :
    nextRegex src place false = .ok (some (tokenAt place .regex r false), []) := by
  unfold Written at h
  rw [Phrase.following_cons, Phrase.spelling, List.append_assoc] at h
  generalize following ((Phrase.leaf .regex r false).stop place) ps rest = after at h hafter
  obtain ⟨c, cs, hcons⟩ := List.exists_cons_of_ne_nil hr.ne_nil
  have hpattern := hr.isPattern
  have hhash := hr.head_ne
  rw [hcons] at hpattern hhash
  obtain ⟨hunquoted, hdollar⟩ := hpattern.head_isUnquoted
  simp only [isUnquoted, Bool.and_eq_true, bne_iff_ne, Bool.not_eq_true'] at hunquoted
  obtain ⟨⟨⟨⟨_, hspace⟩, hsingle⟩, hdouble⟩, hbackslash⟩ := hunquoted
  have hskip : (if false then (place, []) else skipTrivia src place .doubleTest {}) =
      (place + byteLength (Phrase.gap false place), []) := by
    apply skip_gap h
    intro fresh offset
    rw [hcons]
    exact skipFrom_solid (by simpa [isSolid, hspace, hbackslash] using hhash) _
  have htail := tail?_append h
  have hhead : ¬ (false = false ∧ ((r.toList ++ after).head?.any
      fun c => c == '\'' || c == '"' || c == '$') = true) := by
    simp [hcons, hsingle, hdouble, hdollar]
  have hwidth : byteLength r.toList ≠ 0 := Nat.ne_of_gt (byteLength_pos hr.ne_nil)
  rw [Lexer.nextRegex_eq hskip htail, if_neg hhead, 
    Lexeme.regex_pattern hr.isPattern hr.closed hafter]
  simp only [Except.map, nonempty?, nextBoundary_eq (Source.Boundary.of_tail? htail), Nat.sub_self,
    Nat.zero_add, if_neg hwidth, String.ofList_toList]
  cases Phrase.gap_eq false place with
  | inl hnone => simp [tokenAt, hnone]
  | inr hspace => simp [tokenAt, hspace, Nat.ne_of_gt (Char.utf8Size_pos ' ')]

end Lexer

namespace Grammar

open Parse Lexer
open Phrase (Written tokenAt following)

variable {env : Env} {c : Setting} {place : Nat} {inner : Nested} {r : String}
variable {ps : List Phrase} {rest : List Char}

theorem runs_regexOperand {tok : Token} {found : Node} {q : Nat}
    (hnext : nextRegex env.source place false = .ok (some tok, []))
    (htoken : Runs env c place (tokenLeaf tok) found q) :
    Runs env c place (regexOperand inner) (some found) q := by
  have hpeek : Runs env c place (peekRegex false) (some tok) place := by
    refine .of_eq fun n => bind_run.2 ⟨_, _, rfl, ?_⟩
    rw [show (c.waiting place n []).halted = false from rfl, if_neg Bool.false_ne_true]
    refine bind_run.2 ⟨env.source, _, rfl, ?_⟩
    rw [show (c.waiting place n []).pos = place from rfl, hnext]
    rfl
  unfold regexOperand
  exact hpeek.bind (htoken.map some)

/-- The row of comparisons joins a pattern with the word before it. -/
theorem runs_patternStep (w : Word) {row : Operator.Row} {tighter : Parse (Option Node)}
    (hrow : row.operators.contains "=~")
    (hoperator : Comes env.source (w.phrase.stop place) c.mode {}
      (tokenAt (w.phrase.stop place) (.operator "=~") "=~" false))
    (hregex : nextRegex env.source ((Phrase.token "=~").stop (w.phrase.stop place)) false =
      .ok (some (tokenAt ((Phrase.token "=~").stop (w.phrase.stop place)) .regex r false), [])) :
    Runs env c (w.phrase.stop place) (testStep inner row tighter (w.phrase.nodeAt place))
      (.yield ((Phrase.pattern w r).nodeAt place)) ((Phrase.pattern w r).stop place) := by
  unfold testStep
  refine (runs_peek hoperator).bind ?_
  rw [rowOperator?_of_operator rfl, if_pos hrow]
  dsimp only
  rw [if_pos rfl]
  refine leads_leafAt.bind ?_
  have hright : Runs env c ((Phrase.token "=~").stop (w.phrase.stop place)) (regexOperand inner)
      (some ((Phrase.leaf .regex r false).nodeAt ((Phrase.token "=~").stop (w.phrase.stop place))))
      ((Phrase.pattern w r).stop place) := by
    simp only [Phrase.pattern, Phrase.stop_node, Phrase.stopAll_cons, Phrase.stopAll_nil]
    exact runs_regexOperand hregex (leads_tokenLeaf .regex rfl (by simp))
  refine (runs_testOperandAfter "=~" hright).bind ?_
  exact (leads_node (by simp) (by simp [Phrase.token])).map _

/-- The test of a word against a pattern, up to the closing brackets. -/
theorem runs_pattern (w : Word) (hr : IsRegex r) (hmode : c.mode = Brackets.double.mode)
    (hdepth : c.depth + 1 < env.options.maxDepth)
    (h : Written env.source place (.pattern w r :: .token "]]" :: ps) rest)
    (hafter : Parted
      (following ((Phrase.token "]]").stop ((Phrase.pattern w r).stop place)) ps rest)) :
    Runs env c place (test inner) (some ((Phrase.pattern w r).nodeAt place))
      ((Phrase.pattern w r).stop place) := by
  have hword : w.phrase.IsSpaced := .leaf w.ne_nil
  have hsign : (Phrase.token "=~").IsSpaced := .leaf (by decide)
  have hregex : (Phrase.leaf .regex r false).IsSpaced := .leaf hr.ne_nil
  have hparts : Written env.source place
      (w.phrase :: .token "=~" :: .leaf .regex r false :: .token "]]" :: ps) rest := h.parts
  have hoperator := comes_testOperator (b := .double) hparts.tail (by decide)
    (parted_following hsign.stop_ne_zero rfl)
  have hcloser := comes_testCloser (b := .double) h.tail hafter
  have hends : EndsTest env.source .double [] (w.phrase.stop place)
      (.token "=~" :: .leaf .regex r false :: .token "]]" :: ps) rest :=
    ⟨parted_following hword.stop_ne_zero rfl, _, hoperator, tokenAt_adjacent hword.stop_ne_zero,
      by simp⟩
  have hstart := comes_testWord (b := .double) hparts w.ne_nil w.isLower hends.parted.endsWord
  have hclose := @rowOperator?_closer .double ((Phrase.pattern w r).stop place) "]]"
  have htighter : ∀ row ∈ Operator.testRows.drop 3, row.operators.contains "=~" = false := by
    decide
  rw [← hmode] at hstart hoperator hcloser
  -- The operator is none of the tightest row, which reads the word alone.
  have hoperand : Runs env c place (testRows inner []) (some (w.phrase.nodeAt place))
      (w.phrase.stop place) :=
    runs_testOperand (Nat.lt_of_succ_lt hdepth) hstart rfl nofun
      (runs_testWord w hmode hdepth hparts hends)
  have hleft := runs_testRows_append (Operator.testRows.drop 3) hoperand hparts.tail.le_size
    hoperator fun row hrow => by rw [rowOperator?_of_operator rfl, htighter row hrow]; rfl
  have hstep : Runs env c (w.phrase.stop place)
      (testStep inner Operator.testRows[2] (testRows inner (Operator.testRows.drop 3 ++ []))
        (w.phrase.nodeAt place))
      (.yield ((Phrase.pattern w r).nodeAt place)) ((Phrase.pattern w r).stop place) :=
    runs_patternStep w (by decide) hoperator
      (nextRegex_written hr hparts.tail.tail (parted_following hregex.stop_ne_zero rfl))
  have hlt : w.phrase.stop place < (Phrase.pattern w r).stop place := by
    simp only [Phrase.pattern, Phrase.stop_node, Phrase.stopAll_cons, Phrase.stopAll_nil]
    exact Nat.lt_trans (hsign.lt_stop _) (hregex.lt_stop _)
  have hrow := runs_testRows_cons hleft (.single hstep hlt) h.tail.le_size hcloser
    (hclose _ (by decide))
  exact runs_testRows_append (Operator.testRows.take 2) hrow h.tail.le_size hcloser
    fun row hrow => hclose row (List.mem_of_mem_take hrow)

theorem parse_of_pattern {text : String} {options : Options} (w : Word) (hr : IsRegex r)
    (hstatements : options.maxStatements ≠ some 0) (hdepth : 2 < options.maxDepth)
    (h : Written (.ofString text) 0 [.test .double (.pattern w r)] []) :
    parse (.ofString text) options =
      .ok (Phrase.script text [.test .double (.pattern w r)]) := by
  have hword : (Phrase.pattern w r).IsSpaced := .node (.leaf w.ne_nil) _
  have hparts : Written (.ofString text) ((Phrase.token "[[").stop 0)
      [.pattern w r, .token "]]"] [] := h.parts.tail
  have hstart := comes_testWord (b := .double) hparts.parts w.ne_nil w.isLower
    (parted_following (Phrase.IsSpaced.leaf w.ne_nil).stop_ne_zero rfl).endsWord
  have hcommand : Runs ⟨.ofString text, options, false⟩ (Setting.deeper {}) 0
      (testCommand (nested ((Source.ofString text).size + 1)))
      ((Phrase.test .double (.pattern w r)).nodeAt 0)
      ((Phrase.test .double (.pattern w r)).stop 0) :=
    runs_testCommand_of_test hword.spaced rfl h nofun hstart rfl
      (runs_pattern w hr rfl hdepth hparts nofun)
  exact parse_of_statement hstatements h
    (@startsStatement_test ⟨.ofString text, options, false⟩ .double _ _ hword.spaced h)
    (runs_testStatement hword.spaced (Nat.zero_lt_of_lt hdepth) h hcommand)

end Grammar

namespace Phrase

/-- The test of a word against a pattern. -/
def matching (r : String) : Phrase := .test .double (.pattern { text := "x" } r)

theorem text_matching (r : String) : text [matching r] [] = "[[ x =~ " ++ r ++ " ]]" := by
  have hopener : (token "[[").stop 0 = 2 := rfl
  have hword : (word "x").stop 2 = 4 := rfl
  have hsign : (token "=~").stop 4 = 7 := rfl
  have hregex : (leaf .regex r false).stop 7 ≠ 0 := by simp [stop_spaced]
  have hspelling : (token "[[").spelling 0 = "[[".toList ∧ (word "x").spelling 2 = " x".toList ∧
      (token "=~").spelling 4 = " =~".toList := ⟨rfl, rfl, rfl⟩
  rw [String.ext_iff]
  simp only [text, following, matching, test, pattern, Word.phrase, Brackets.opener,
    Brackets.closer, spellingAll_cons, spellingAll_nil, spelling_node, stop_node, stopAll_cons,
    stopAll_nil, hopener, hword, hsign, hspelling]
  simp [spelling_spaced, hregex, token]

/-- Where the parts of the test are. -/
theorem nodeAt_matching (r : String) :
    (matching r).nodeAt 0 = ⟨.testCommand, .ofWidth 0 (11 + r.utf8ByteSize),
      [.leaf (.token "[[") (.ofWidth 0 2),
       ⟨.binaryExpression, .ofWidth 3 (5 + r.utf8ByteSize),
        [.leaf .word (.ofWidth 3 1), .leaf (.token "=~") (.ofWidth 5 2),
         .leaf .regex (.ofWidth 8 r.utf8ByteSize)]⟩,
       .leaf (.token "]]") (.ofWidth (9 + r.utf8ByteSize) 2)]⟩ := by
  have hopener : (token "[[").stop 0 = 2 := rfl
  have hword : (word "x").stop 2 = 4 := rfl
  have hsign : (token "=~").stop 4 = 7 := rfl
  have hregex : (leaf .regex r false).stop 7 = 8 + r.utf8ByteSize := by simp [stop_spaced]
  have hne : 8 + r.utf8ByteSize ≠ 0 := by omega
  have hcloser : (token "]]").stop (8 + r.utf8ByteSize) = 11 + r.utf8ByteSize := by
    rw [token, stop_spaced _ _ hne, show "]]".utf8ByteSize = 2 from rfl]
    omega
  have hstarts : (token "[[").start 0 = 0 ∧ (word "x").start 2 = 3 := ⟨rfl, rfl⟩
  have hleaves : (token "[[").nodeAt 0 = .leaf (.token "[[") (.ofWidth 0 2) ∧
      (word "x").nodeAt 2 = .leaf .word (.ofWidth 3 1) ∧
      (token "=~").nodeAt 4 = .leaf (.token "=~") (.ofWidth 5 2) :=
    ⟨nodeAt_leaf _ _ _, nodeAt_leaf _ _ _, nodeAt_leaf _ _ _⟩
  have hwidth : 8 + r.utf8ByteSize - 3 = 5 + r.utf8ByteSize := by omega
  have hclose : 8 + r.utf8ByteSize + 1 = 9 + r.utf8ByteSize := by omega
  simp only [matching, test, pattern, Word.phrase, Brackets.opener, Brackets.closer, nodeAt_node,
    nodesAt_cons, nodesAt_nil, stop_node, stopAll_cons, stopAll_nil, span_node, hopener, hword,
    hsign, hregex, hcloser, hstarts, hleaves, hwidth, Nat.sub_zero]
  rw [token, nodeAt_spaced _ _ hne, nodeAt_spaced _ _ (by decide), hclose]
  rfl

end Phrase

/-- A pattern in which no bracket stays open is the right side of a test, whatever its bracket
expressions have for members. -/
theorem parse_matching (r : String) (hr : IsRegex r) (options : Options)
    (hstatements : options.maxStatements ≠ some 0) (hdepth : 2 < options.maxDepth) :
    let src := Source.ofString ("[[ x =~ " ++ r ++ " ]]")
    parse src options = .ok ⟨src, ⟨.program, ⟨0, src.size, Nat.zero_le _⟩,
        [⟨.testCommand, .ofWidth 0 (11 + r.utf8ByteSize),
          [.leaf (.token "[[") (.ofWidth 0 2),
           ⟨.binaryExpression, .ofWidth 3 (5 + r.utf8ByteSize),
            [.leaf .word (.ofWidth 3 1), .leaf (.token "=~") (.ofWidth 5 2),
             .leaf .regex (.ofWidth 8 r.utf8ByteSize)]⟩,
           .leaf (.token "]]") (.ofWidth (9 + r.utf8ByteSize) 2)]⟩]⟩, []⟩ ∧
      src.textOf? (.ofWidth 8 r.utf8ByteSize) = some r := by
  have h : Phrase.Written (.ofString ("[[ x =~ " ++ r ++ " ]]")) 0 [.matching r] [] := by
    rw [← Phrase.text_matching]
    exact Phrase.written_text [.matching r] []
  constructor
  . rw [Grammar.parse_of_pattern _ hr hstatements hdepth h, ← Phrase.nodeAt_matching]
    rw [Phrase.script, Phrase.nodesAt_cons, Phrase.nodesAt_nil]
    rfl
  . have hregex : Phrase.Written (.ofString ("[[ x =~ " ++ r ++ " ]]")) 7
        [.leaf .regex r false, .token "]]"] [] := h.parts.tail.parts.tail.tail
    unfold Phrase.Written at hregex
    rw [Phrase.following_cons, Phrase.spelling_spaced _ _ (by decide)] at hregex
    rw [Source.tail?_eq_some_iff] at hregex
    obtain ⟨hspace, _⟩ := (Source.spells_append _).1 hregex
    have hspells := ((Source.spells_append [' ']).1 hspace).2
    have hstop : 7 + byteLength (' ' :: r.toList) = 8 + r.utf8ByteSize := by
      rw [byteLength_cons, utf8ByteSize_eq_byteLength, ← Nat.add_assoc]
      rfl
    rw [hstop] at hspells
    exact Source.Spells.textOf?_eq hspells

/-- Members of bracket expressions count as brackets, so that the last parenthesis is taken for what
the last bracket closes. -/
theorem isRegex_members : IsRegex "^[0-9\x7b\x7d]+[)a(]z" where
  isPattern := by
    have heq : "^[0-9\x7b\x7d]+[)a(]z".toList = '^' :: '[' :: ("0-9\x7b\x7d".toList ++
        ']' :: '+' :: '[' :: (")a(".toList ++ [']', 'z'])) := by decide
    rw [heq]
    exact .char (by decide) (.bracket (by decide) (by decide) (.char (by decide)
      (.bracket (by decide) (by decide) (.char (by decide) .nil))))
  ne_nil := by decide
  head_ne := by decide
  closed := by decide

theorem parse_matching_members :
    let r := "^[0-9\x7b\x7d]+[)a(]z"
    let src := Source.ofString ("[[ x =~ " ++ r ++ " ]]")
    IsRegex r ∧
      parse src = .ok ⟨src, ⟨.program, ⟨0, src.size, Nat.zero_le _⟩,
        [⟨.testCommand, .ofWidth 0 26,
          [.leaf (.token "[[") (.ofWidth 0 2),
           ⟨.binaryExpression, .ofWidth 3 20,
            [.leaf .word (.ofWidth 3 1), .leaf (.token "=~") (.ofWidth 5 2),
             .leaf .regex (.ofWidth 8 15)]⟩,
           .leaf (.token "]]") (.ofWidth 24 2)]⟩]⟩, []⟩ ∧
      src.textOf? (.ofWidth 8 15) = some r :=
  ⟨isRegex_members, parse_matching _ isRegex_members {} (by decide) (by decide)⟩

/-- A number sign opens a comment also behind the operator, and a brace in a bracket expression
stays open up to the end of the text, so that neither test is closed. -/
theorem parse_matching_unclosed :
    IsPattern "#a".toList ∧ IsPattern "[\x7b]".toList ∧
      (∃ tree, parse (.ofString "[[ x =~ #a ]]") = .ok tree ∧ tree.errors.length = 2) ∧
      ∃ tree, parse (.ofString "[[ x =~ [\x7b] ]]") = .ok tree ∧ tree.errors.length = 1 := by
  have hcomment : IsPattern ['#', 'a'] := .char (by decide) (.char (by decide) .nil)
  have hbrace : IsPattern ('[' :: (['\x7b'] ++ [']'])) := .bracket (by decide) (by decide) .nil
  exact ⟨hcomment, hbrace, exists_of_map (by decide +kernel), exists_of_map (by decide +kernel)⟩

end ShellTree
