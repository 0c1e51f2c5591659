import ShellTree.Proofs.Lexeme
import ShellTree.Proofs.Written.Lexer

/-!
This module contains the tokens of written arithmetic expressions, and the lookahead that tells the
`$((` before an expression from the start of a subshell.
-/

namespace ShellTree

namespace DoubleParen

open Lexeme (Quoting)

variable {verdict : List Char → Option Bool} {depth : Nat} {c : Char} {cs ds : List Char}

/-- Walking through the characters leaves the walk as deep as it was. -/
def Balanced (cs : List Char) : Prop :=
  ∀ verdict depth rest, showsSubshell verdict .bare (depth + 2) (cs ++ rest) =
    showsSubshell verdict .bare (depth + 2) rest

/-- The character is no parenthesis, quote or backslash. -/
def isQuiet (c : Char) : Bool := !(['(', ')', '\'', '"', '\\'].contains c)

theorem showsSubshell_quiet (hc : isQuiet c) :
    showsSubshell verdict .bare (depth + 2) (c :: cs) =
      showsSubshell verdict .bare (depth + 2) cs := by
  simp only [isQuiet, List.contains_eq_mem, List.mem_cons, List.not_mem_nil, or_false,
    Bool.not_eq_true', decide_eq_false_iff_not, not_or] at hc
  obtain ⟨hopen, hclose, hsingle, hdouble, hbackslash⟩ := hc
  rw [showsSubshell.eq_def]
  simp [hopen, hclose, hsingle, hdouble, hbackslash, Quoting.next]

theorem showsSubshell_open :
    showsSubshell verdict .bare (depth + 1) ('(' :: cs) =
      showsSubshell verdict .bare (depth + 2) cs := by
  rw [showsSubshell.eq_def]
  rfl

theorem showsSubshell_close :
    showsSubshell verdict .bare (depth + 3) (')' :: cs) =
      showsSubshell verdict .bare (depth + 2) cs := by
  rw [showsSubshell.eq_def]
  rfl

theorem Balanced.nil : Balanced [] := fun _ _ _ => rfl

theorem Balanced.append (hcs : Balanced cs) (hds : Balanced ds) : Balanced (cs ++ ds) := by
  intro verdict depth rest
  rw [List.append_assoc, hcs, hds]

theorem Balanced.of_quiet (h : ∀ c ∈ cs, isQuiet c) : Balanced cs := by
  intro verdict depth rest
  induction cs with
  | nil => rfl
  | cons c cs ih =>
    rw [List.cons_append, showsSubshell_quiet (h c List.mem_cons_self)]
    exact ih fun d hd => h d (List.mem_cons_of_mem c hd)

theorem Balanced.parentheses (h : Balanced cs) : Balanced ('(' :: (cs ++ [')'])) := by
  intro verdict depth rest
  rw [List.cons_append, List.append_assoc, showsSubshell_open, h, List.singleton_append,
    showsSubshell_close]

/-- What is balanced before `))` is arithmetic. -/
theorem Balanced.opensSubshell_eq_false (h : Balanced cs) (rest : List Char) :
    opensSubshell (cs ++ ')' :: ')' :: rest) = false := by
  unfold opensSubshell
  rw [h _ 0]
  rfl

/-- A walk that is less ready to find a subshell finds none where the other finds none. -/
theorem showsSubshell_mono {verdict verdict' : List Char → Option Bool}
    (hverdict : ∀ rest, verdict rest = some true ∨ verdict' rest = some false) (q : Quoting)
    (depth : Nat) (cs : List Char) (h : showsSubshell verdict q depth cs = false) :
    showsSubshell verdict' q depth cs = false := by
  fun_induction showsSubshell verdict' q depth cs
  case case1 | case2 | case3 => rfl
  all_goals
    rw [showsSubshell.eq_def] at h
    dsimp only at h
  case case4 hescape _ _ ih =>
    rw [if_pos hescape] at h
    exact ih h
  case case5 hopen hescape ih =>
    rw [if_neg hescape, if_pos hopen] at h
    exact ih h
  case case6 depth c cs hopen hclose answer hanswer hescape =>
    rw [if_neg hescape, if_neg hopen, if_pos hclose] at h
    split at hanswer
    . next hdepth =>
      rw [if_pos hdepth] at h
      obtain htrue | hfalse := hverdict cs
      . simp [htrue] at h
      . exact (Option.some.inj (hfalse.symm.trans hanswer)).symm
    . cases hanswer
  case case7 depth c cs hopen hclose hanswer hescape ih =>
    rw [if_neg hescape, if_neg hopen, if_pos hclose] at h
    split at hanswer
    . next hdepth =>
      rw [if_pos hdepth] at h
      obtain htrue | hfalse := hverdict cs
      . simp [htrue] at h
      . simp [hfalse] at hanswer
    . next hdepth =>
      rw [if_neg hdepth] at h
      exact ih h
  case case8 hopen hclose hjoins hescape =>
    rw [if_neg hescape, if_neg hopen, if_neg hclose, if_pos hjoins] at h
    cases h
  case case9 hopen hclose hjoins hescape ih =>
    rw [if_neg hescape, if_neg hopen, if_neg hclose, if_neg hjoins] at h
    exact ih h
  case case10 hescape hquoted ih =>
    rw [if_neg hescape] at h
    split at h
    . exact absurd rfl hquoted
    . exact ih h

/-- Where the parentheses of an expansion close as those of an arithmetic expression, they do so at
the start of a statement as well. -/
theorem closesWithGap_eq_false {cs : List Char} (h : opensSubshell cs = false) :
    closesWithGap cs = false := by
  apply showsSubshell_mono _ _ _ _ h
  intro rest
  by_cases hhead : rest.head? = some ')'
  . exact .inr (by simp [closesWithGap.verdict, hhead])
  . exact .inl (by simp [hhead])

end DoubleParen

namespace Lexer

open Phrase (Written tokenAt following)

variable {c : Char} {cs w after : List Char}

/-- What can follow an operand or a closing parenthesis of arithmetic. -/
def EndsOperand (cs : List Char) : Prop := ∀ c ∈ cs.head?, c ∈ [' ', '+', '-', ')']

theorem Parted.endsOperand (h : Parted cs) : EndsOperand cs := by
  intro c hc
  rw [h c hc]
  decide

/-! ### Operands -/

theorem isNameChar_of_isDigit (hc : c.isDigit) : isNameChar c := by
  simp [isNameChar, Char.isAlphanum, hc]

theorem isNameStart_of_isDigit (hc : c.isDigit) : isNameStart c = false := by
  have hnone : ∀ d ∈ "0123456789".toList, isNameStart d = false := by decide
  exact hnone c (mem_digits_of_isDigit hc)

/-- A name, or digits. -/
inductive IsOperandWord (w : List Char) : Prop where
  | name (h : isName w)
  | digits (hne : w ≠ []) (h : ∀ c ∈ w, c.isDigit)

theorem IsOperandWord.exists_cons (hw : IsOperandWord w) :
    ∃ c cs, w = c :: cs ∧ ∀ d ∈ w, isNameChar d := by
  cases hw with
  | name h =>
    cases w with
    | nil => cases h
    | cons c cs =>
      simp only [isName, Bool.and_eq_true, List.all_eq_true] at h
      refine ⟨c, cs, rfl, fun d hd => ?_⟩
      cases hd with
      | head => exact isNameChar_of_isNameStart h.1
      | tail _ hd => exact h.2 d hd
  | digits hne h =>
    obtain ⟨c, cs, rfl⟩ := List.exists_cons_of_ne_nil hne
    exact ⟨c, cs, rfl, fun d hd => isNameChar_of_isDigit (h d hd)⟩

theorem takeWhile_operand {inClass : Char → Bool} (hcs : ∀ c ∈ cs, inClass c)
    (hclass : ∀ c ∈ [' ', '+', '-', ')'], inClass c = false) (hafter : EndsOperand after) :
    (cs ++ after).takeWhile inClass = cs := by
  rw [List.takeWhile_append_of_pos hcs]
  cases after with
  | nil => simp
  | cons d after =>
    rw [List.takeWhile_cons_of_neg (by simp [hclass d (hafter d rfl)]), List.append_nil]

theorem operand?_word (hw : IsOperandWord w) (hafter : EndsOperand after) :
    operand? (w ++ after) = some (.word, w) := by
  cases hw with
  | name h =>
    cases w with
    | nil => cases h
    | cons c cs =>
      simp only [isName, Bool.and_eq_true, List.all_eq_true] at h
      rw [List.cons_append, operand?, if_pos h.1, takeWhile_operand h.2 (by decide) hafter]
  | digits hne h =>
    obtain ⟨c, cs, rfl⟩ := List.exists_cons_of_ne_nil hne
    have hc := h c List.mem_cons_self
    have hcs : ∀ d ∈ cs, isNumeralChar d := by
      intro d hd
      simp [isNumeralChar, Char.isAlphanum, h d (List.mem_cons_of_mem c hd)]
    rw [List.cons_append, operand?, isNameStart_of_isDigit hc, if_neg Bool.false_ne_true, if_pos hc,
      takeWhile_operand hcs (by decide) hafter]

/-! ### Operators -/

theorem arithmetic_operator {op : String} (hop : op ∈ Operator.arithmetic)
    (hafter : ∀ o ∈ Operator.arithmetic, ∀ c ∈ after.head?,
      (op.toList ++ [c]).isPrefixOf o.toList = false) :
    arithmetic (op.toList ++ after) = (.operator op, op.toList) := by
  have hlongest : ∀ op ∈ Operator.arithmetic,
      Operator.arithmetic.find? (·.toList.isPrefixOf op.toList) = some op := by decide
  have hall : ∀ op ∈ Operator.arithmetic, op.toList ≠ [] ∧ ∀ c ∈ op.toList, isNameStart c = false ∧
      c.isDigit = false ∧ c ∉ ['\'', '"', '\x60', '$'] := by decide
  obtain ⟨hne, hchars⟩ := hall op hop
  obtain ⟨c, cs, heq⟩ := List.exists_cons_of_ne_nil hne
  obtain ⟨hstart, hdigit, hquote⟩ := hchars c (by simp [heq])
  have hfind : arithmeticOperator? (op.toList ++ after) = some (.operator op, op.toList) := by
    unfold arithmeticOperator? Operator.matching?
    rw [find?_isPrefixOf_append (isPrefixOf_toList_append op after) (fun _ _ ho => ho) hafter
      (hlongest op hop), Option.map_some]
  rw [heq, List.cons_append] at hfind ⊢
  unfold arithmetic operand?
  simp [hstart, hdigit, quoteOrDollar?_eq_none hquote, hfind]

section

variable {src : Source} {place : Nat} {rest : List Char} {ps : List Phrase}
variable {kind : NodeKind} {text : String} {glued : Bool}

theorem comes_operand (h : Written src place (.leaf kind text glued :: ps) rest)
    (hword : IsOperandWord text.toList)
    (hafter : EndsOperand (following ((Phrase.leaf kind text glued).stop place) ps rest)) :
    Comes src place .arithmetic {} (tokenAt place .word text glued) := by
  have hsolid : text.toList.head?.any isSolid := by
    obtain ⟨c, cs, heq, hchars⟩ := hword.exists_cons
    have hc : isNameChar c := hchars c (by simp [heq])
    rw [heq]
    simp (disch := decide) [isSolid, isSpace, isBlank, ne_of_class hc]
  apply comes_of_solid h hsolid rfl
  refine (tokenOf_of_isSolid _ _ _ hsolid).trans ?_
  simp [arithmetic, operand?_word hword hafter]

theorem comes_arithmeticOperator (h : Written src place (.leaf kind text glued :: ps) rest)
    (hop : text ∈ Operator.arithmetic)
    (hafter : ∀ o ∈ Operator.arithmetic,
      ∀ c ∈ (following ((Phrase.leaf kind text glued).stop place) ps rest).head?,
        (text.toList ++ [c]).isPrefixOf o.toList = false) :
    Comes src place .arithmetic {} (tokenAt place (.operator text) text glued) := by
  have hsolid : ∀ op ∈ Operator.arithmetic, op.toList.head?.any isSolid := by decide
  apply comes_of_solid h (hsolid text hop) rfl
  exact (tokenOf_of_isSolid _ _ _ (hsolid text hop)).trans (arithmetic_operator hop hafter)

theorem comes_infix (h : Written src place (.leaf kind text glued :: ps) rest)
    (hop : text ∈ Operator.arithmetic)
    (hafter : Parted (following ((Phrase.leaf kind text glued).stop place) ps rest)) :
    Comes src place .arithmetic {} (tokenAt place (.operator text) text glued) := by
  have hparts : ∀ o ∈ Operator.arithmetic, o.toList ≠ [] ∧ ' ' ∉ o.toList.tail := by decide
  apply comes_arithmeticOperator h hop
  intro o ho c hc
  rw [hafter c hc]
  exact isPrefixOf_concat_eq_false (hparts text hop).1 (hparts o ho).2

theorem comes_closing (h : Written src place (.leaf kind ")" glued :: ps) rest)
    (hafter : EndsOperand (following ((Phrase.leaf kind ")" glued).stop place) ps rest)) :
    Comes src place .arithmetic {} (tokenAt place (.operator ")") ")" glued) := by
  have halone : ∀ o ∈ Operator.arithmetic, ∀ c ∈ [' ', '+', '-', ')'],
      (")".toList ++ [c]).isPrefixOf o.toList = false := by decide
  exact comes_arithmeticOperator h (by decide) fun o ho c hc => halone o ho c (hafter c hc)

theorem comes_doubleParen {a s : Bool} (h : Written src place (.leaf kind "$((" glued :: ps) rest)
    (harithmetic : DoubleParen.opensSubshell
      (following ((Phrase.leaf kind "$((" glued).stop place) ps rest) = false) :
    Comes src place .command { assignment := a, statementStart := s }
      (tokenAt place (.operator "$((") "$((" glued) := by
  apply comes_of_solid h (by decide) rfl
  refine (tokenOf_of_isSolid _ _ _ (by decide)).trans ?_
  change command _ ('$' :: '(' :: '(' :: _) = _
  simp [command, closer?_eq_none, Lexeme.quoteOrDollar?, harithmetic]

end

end Lexer

end ShellTree
