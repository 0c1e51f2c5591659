import ShellTree.Proofs.Written.Lexer

/-!
This module contains the tokens of written tests. Both forms of brackets have the same tokens between
them.
-/

namespace ShellTree

/-- The forms of a test. -/
inductive Brackets where
  | single
  | double
deriving DecidableEq, Repr

namespace Brackets

def mode : Brackets → Mode
  | single => .test
  | double => .doubleTest

def opener : Brackets → String
  | single => "["
  | double => "[["

def closer : Brackets → String
  | single => "]"
  | double => "]]"

end Brackets

/-- A dash and letters. -/
def isLetterOption (text : String) : Bool :=
  match text.toList with
  | '-' :: cs => !cs.isEmpty && cs.all Char.isAlpha
  | _ => false

namespace Lexer

open Phrase (Written tokenAt following)

variable {b : Brackets} {c : Char} {cs w after : List Char}

theorem atTestBoundary_of_parted (h : Parted after) : Lexeme.atTestBoundary after := by
  cases after with
  | nil => rfl
  | cons c after =>
    rw [h c rfl]
    rfl

theorem testCloser?_eq_none (hc : c ≠ ']') : testCloser? b.closer (c :: cs) = none := by
  cases b <;> simp [testCloser?, Brackets.closer, List.isPrefixOf, Ne.symm hc]

theorem testOperator?_eq_none (hc : ∀ op ∈ Operator.test, op.toList.head? ≠ some c) :
    testOperator? (c :: cs) = none := by
  have hne : ∀ op ∈ Operator.test, op.toList ≠ [] := by decide
  unfold testOperator?
  rw [Option.map_eq_none_iff, List.find?_eq_none]
  intro op hop
  have hhead := hc op hop
  obtain ⟨d, ds, heq⟩ := List.exists_cons_of_ne_nil (hne op hop)
  rw [heq, List.head?_cons] at hhead
  have hdiffer : d ≠ c := fun h => hhead (congrArg some h)
  simp [admitsTestOperator, heq, List.isPrefixOf, hdiffer]

theorem test_word (hne : w ≠ []) (hlower : ∀ c ∈ w, c.isLower) (hafter : EndsWord after) :
    test b.closer {} (w ++ after) = (.word, w) := by
  have htaken : Lexeme.word {} (w ++ after) = w := by
    apply word_append rfl _ hafter
    intro c hc
    have hplain : isPlain c := by simp [isPlain, hlower c hc]
    exact ⟨ne_of_class hplain (by decide), ne_of_class hplain (by decide),
      endsBareWord_of_isPlain hplain⟩
  obtain ⟨c, w, rfl⟩ := List.exists_cons_of_ne_nil hne
  have hc : c.isLower := hlower c List.mem_cons_self
  have hoperator : ∀ op ∈ Operator.test, op.toList.head? ≠ some c := by
    have hall : ∀ op ∈ Operator.test, op.toList.head?.all (!Char.isLower ·) := by decide
    intro op hop hhead
    have hnot := hall op hop
    simp [hhead, hc] at hnot
  have hquote := notMem_quotes_of_isPlain (show isPlain c by simp [isPlain, hc])
  have hletter : letterOperator? (c :: (w ++ after)) = none := by
    unfold letterOperator?
    split
    . next heq => exact absurd (List.cons.inj heq).1 (ne_of_class hc (by decide))
    . rfl
  rw [List.cons_append] at htaken ⊢
  have hcloser : closer? {} (c :: (w ++ after)) = none := closer?_eq_none _
  unfold test wordOrError
  simp [testCloser?_eq_none (ne_of_class hc (by decide)), hcloser, quoteOrDollar?_eq_none hquote,
    testOperator?_eq_none hoperator, hletter, htaken]

theorem test_operator {op : String} (hop : op ∈ Operator.test) (hafter : Parted after) :
    test b.closer {} (op.toList ++ after) = (.operator op, op.toList) := by
  have hlongest : ∀ op ∈ Operator.test,
      Operator.test.find? (·.toList.isPrefixOf op.toList) = some op := by decide
  have hall : ∀ op ∈ Operator.test, op.toList ≠ [] ∧ ' ' ∉ op.toList.tail ∧
      ∀ c ∈ op.toList, c ≠ ']' ∧ c ∉ ['\'', '"', '\x60', '$'] := by decide
  obtain ⟨hne, _, hchars⟩ := hall op hop
  have hadmitted : admitsTestOperator (op.toList ++ after) op := by
    simp [admitsTestOperator, isPrefixOf_toList_append, drop_toList_append,
      atTestBoundary_of_parted hafter]
  have hadmits : ∀ o ∈ Operator.test, admitsTestOperator (op.toList ++ after) o →
      o.toList.isPrefixOf (op.toList ++ after) := fun o _ ho => by
    simp only [admitsTestOperator, Bool.and_eq_true] at ho
    exact ho.1
  have hends : ∀ o ∈ Operator.test, ∀ c ∈ after.head?,
      (op.toList ++ [c]).isPrefixOf o.toList = false := by
    intro o ho c hc
    rw [hafter c hc]
    exact isPrefixOf_concat_eq_false hne (hall o ho).2.1
  have hoperator : testOperator? (op.toList ++ after) = some (.operator op, op.toList) := by
    unfold testOperator?
    rw [find?_isPrefixOf_append hadmitted hadmits hends (hlongest op hop), Option.map_some]
  obtain ⟨c, cs, heq⟩ := List.exists_cons_of_ne_nil hne
  obtain ⟨hclose, hquote⟩ := hchars c (by simp [heq])
  rw [heq, List.cons_append] at hoperator ⊢
  have hcloser : closer? {} (c :: (cs ++ after)) = none := closer?_eq_none _
  unfold test
  simp [testCloser?_eq_none hclose, hcloser, quoteOrDollar?_eq_none hquote, hoperator]

theorem exists_letters {text : String} (h : isLetterOption text) :
    ∃ letters, text.toList = '-' :: letters ∧ letters ≠ [] ∧ ∀ c ∈ letters, c.isAlpha := by
  unfold isLetterOption at h
  split at h
  . next letters heq =>
    simp only [Bool.and_eq_true, Bool.not_eq_true', List.isEmpty_eq_false_iff, List.all_eq_true] at h
    exact ⟨letters, heq, h.1, h.2⟩
  . cases h

theorem test_letterOption {text : String} (h : isLetterOption text) (hafter : Parted after) :
    test b.closer {} (text.toList ++ after) = (.testOperator, text.toList) := by
  obtain ⟨letters, heq, hne, hletters⟩ := exists_letters h
  have hsplit : (letters ++ after).takeWhile Char.isAlpha = letters ∧
      (letters ++ after).dropWhile Char.isAlpha = after := by
    rw [List.takeWhile_append_of_pos hletters, List.dropWhile_append_of_pos hletters]
    cases after with
    | nil => simp
    | cons d after =>
      rw [hafter d rfl]
      exact ⟨by rw [List.takeWhile_cons_of_neg (by decide), List.append_nil],
        List.dropWhile_cons_of_neg (by decide)⟩
  have hoperator : ∀ op ∈ Operator.test, op.toList.head? ≠ some '-' := by decide
  rw [heq, List.cons_append]
  have hcloser : closer? {} ('-' :: (letters ++ after)) = none := closer?_eq_none _
  have hquote : Lexeme.quoteOrDollar? ('-' :: (letters ++ after)) = none :=
    quoteOrDollar?_eq_none (by decide)
  have hclose : testCloser? b.closer ('-' :: (letters ++ after)) = none :=
    testCloser?_eq_none (by decide)
  unfold test letterOperator?
  simp [hclose, hcloser, hquote, testOperator?_eq_none hoperator, hsplit, hne,
    atTestBoundary_of_parted hafter]

theorem test_closer (hafter : Parted after) :
    test b.closer {} (b.closer.toList ++ after) = (.operator b.closer, b.closer.toList) := by
  simp [test, testCloser?, isPrefixOf_toList_append, drop_toList_append,
    atTestBoundary_of_parted hafter]

section

variable {src : Source} {place : Nat} {rest : List Char} {ps : List Phrase}
variable {kind : NodeKind} {text : String} {glued : Bool}

/-- A leaf of a test is read as its text is. -/
theorem comes_test (h : Written src place (.leaf kind text glued :: ps) rest)
    (hsolid : text.toList.head?.any isSolid) {tokenKind : TokenKind}
    (htoken : test b.closer {}
        (text.toList ++ following ((Phrase.leaf kind text glued).stop place) ps rest) =
      (tokenKind, text.toList)) :
    Comes src place b.mode {} (tokenAt place tokenKind text glued) := by
  apply comes_of_solid h hsolid rfl
  rw [← htoken, tokenOf_of_isSolid _ _ _ hsolid]
  cases b <;> rfl

theorem comes_testWord (h : Written src place (.leaf kind text glued :: ps) rest)
    (hne : text.toList ≠ []) (hlower : ∀ c ∈ text.toList, c.isLower)
    (hafter : EndsWord (following ((Phrase.leaf kind text glued).stop place) ps rest)) :
    Comes src place b.mode {} (tokenAt place .word text glued) := by
  refine comes_test h ?_ (test_word hne hlower hafter)
  obtain ⟨c, cs, heq⟩ := List.exists_cons_of_ne_nil hne
  have hc : c.isLower := hlower c (by simp [heq])
  simp [heq, isSolid_of_isPlain (show isPlain c by simp [isPlain, hc])]

theorem comes_testOperator (h : Written src place (.leaf kind text glued :: ps) rest)
    (hop : text ∈ Operator.test)
    (hafter : Parted (following ((Phrase.leaf kind text glued).stop place) ps rest)) :
    Comes src place b.mode {} (tokenAt place (.operator text) text glued) := by
  have hsolid : ∀ op ∈ Operator.test, op.toList.head?.any isSolid := by decide
  exact comes_test h (hsolid text hop) (test_operator hop hafter)

theorem comes_letterOption (h : Written src place (.leaf kind text glued :: ps) rest)
    (hop : isLetterOption text)
    (hafter : Parted (following ((Phrase.leaf kind text glued).stop place) ps rest)) :
    Comes src place b.mode {} (tokenAt place .testOperator text glued) := by
  refine comes_test h ?_ (test_letterOption hop hafter)
  obtain ⟨letters, heq, _⟩ := exists_letters hop
  rw [heq]
  rfl

theorem comes_testCloser (h : Written src place (.leaf kind b.closer glued :: ps) rest)
    (hafter : Parted (following ((Phrase.leaf kind b.closer glued).stop place) ps rest)) :
    Comes src place b.mode {} (tokenAt place (.operator b.closer) b.closer glued) := by
  refine comes_test h ?_ (test_closer hafter)
  cases b <;> decide

end

end Lexer

end ShellTree
