import Mathlib.Data.List.Find
import ShellTree.Proofs.Lexeme
import ShellTree.Proofs.Written.Phrase

/-!
This module contains the tokens of written phrases: what the lexer answers where the token of a
phrase stands. A token ends at a space or, if it is a word, at an operator.
-/

namespace ShellTree

/-- What holds of the characters of a list is decided by the list, not by all characters. -/
instance decidableForallMemChar {p : Char → Prop} [DecidablePred p] (cs : List Char) :
    Decidable (∀ c ∈ cs, p c) := List.decidableBAll p cs

/-- The token of a leaf that is written from the place on. -/
def Phrase.tokenAt (place : Nat) (kind : TokenKind) (text : String) (glued : Bool) : Token :=
  ⟨kind, .ofWidth (place + byteLength (gap glued place)) (byteLength text.toList), text,
    (gap glued place).isEmpty⟩

/-- The operator is one of the row of the table. -/
def Operator.isInRow (rows : List Operator.Row) (row : Nat) (op : String) : Bool :=
  rows[row]?.any (·.operators.contains op)

/-- What holds of all operators of a table. -/
theorem Operator.forall_isInRow {rows : List Operator.Row} (holds : Nat → String → Prop)
    (hall : ∀ entry ∈ rows.zipIdx, ∀ op ∈ entry.1.operators, holds entry.2 op) {row : Nat}
    {op : String} (h : isInRow rows row op) : holds row op := by
  unfold isInRow at h
  cases hentry : rows[row]? with
  | none => simp [hentry] at h
  | some entry =>
    rw [hentry, Option.any_some, List.contains_iff_mem] at h
    exact hall (entry, row) (List.mem_zipIdx_iff_getElem?.2 hentry) op h

namespace Lexer

open Phrase (Written)

/-- The character is no trivia wherever it stands. -/
def isSolid (c : Char) : Bool := !isSpace c && c != '\\' && c != '#'

/-- The token comes next, with no comment before it. -/
def Comes (src : Source) (place : Nat) (mode : Mode) (flags : Flags) (tok : Token) : Prop :=
  next src place mode flags = .ok (tok, [])

/-- The characters are at an end or go on with a space. -/
def Parted (cs : List Char) : Prop := ∀ c ∈ cs.head?, c = ' '

/-- The characters are at an end or go on with something that no operator goes on with. -/
def EndsOperator (cs : List Char) : Prop := ∀ c ∈ cs.head?, c = ' ' ∨ c = ')' ∨ c.isLower

/-- The characters are at an end or go on with something that no word has in it. -/
def EndsWord (cs : List Char) : Prop := ∀ c ∈ cs.head?, Trivia.endsWord c

theorem Parted.endsOperator {cs : List Char} (h : Parted cs) : EndsOperator cs :=
  fun c hc => .inl (h c hc)

theorem Parted.endsWord {cs : List Char} (h : Parted cs) : EndsWord cs := by
  intro c hc
  rw [h c hc]
  rfl

/-! ### Before a token -/

section

variable {src : Source} {place : Nat} {mode : Mode} {flags : Flags} {rest : List Char}
variable {ps : List Phrase} {kind : NodeKind} {text : String} {glued : Bool}

theorem skipFrom_solid {rules : Trivia.Rules} {fresh : Bool} {offset : Nat} {c : Char}
    (hc : isSolid c) (cs : List Char) :
    Trivia.skipFrom rules fresh offset (c :: cs) = (offset, []) := by
  simp only [isSolid, isSpace, Bool.and_eq_true, Bool.not_eq_true', Bool.or_eq_false_iff, bne_iff_ne,
    beq_eq_false_iff_ne] at hc
  obtain ⟨⟨⟨hblank, hnewline⟩, hbackslash⟩, hhash⟩ := hc
  rw [Trivia.skipFrom]
  . simp [hblank, hnewline, hhash]
  . simp [hbackslash]
  . simp [hbackslash]

theorem skipFrom_space {rules : Trivia.Rules} {fresh : Bool} {offset : Nat} (cs : List Char) :
    Trivia.skipFrom rules fresh offset (' ' :: cs) = Trivia.skipFrom rules true (offset + 1) cs := by
  rw [Trivia.skipFrom]
  . rfl
  . simp
  . simp

theorem skip_gap {rules : Trivia.Rules} {cs : List Char}
    (h : src.tail? place = some (Phrase.gap glued place ++ cs))
    (hstop : ∀ fresh offset, Trivia.skipFrom rules fresh offset cs = (offset, [])) :
    Trivia.skip src place rules = (place + byteLength (Phrase.gap glued place), []) := by
  unfold Trivia.skip
  rw [h]
  dsimp only
  cases Phrase.gap_eq glued place with
  | inl hnone =>
    rw [hnone]
    exact hstop _ _
  | inr hspace =>
    rw [hspace]
    exact (skipFrom_space _).trans (hstop _ _)

theorem tail?_append {cs ds : List Char} (h : src.tail? place = some (cs ++ ds)) :
    src.tail? (place + byteLength cs) = some ds :=
  Source.tail?_eq_some_iff.2 ((Source.spells_append cs).1 (Source.tail?_eq_some_iff.1 h)).2

/-- A leaf is read as the token that its text begins with there. -/
theorem comes_of_written (h : Written src place (.leaf kind text glued :: ps) rest)
    {tokenKind : TokenKind} {after : List Char}
    (hafter : after = Phrase.following ((Phrase.leaf kind text glued).stop place) ps rest)
    (hstop : ∀ fresh offset, Trivia.skipFrom (triviaRules mode flags) fresh offset
      (text.toList ++ after) = (offset, []))
    (htoken : tokenOf mode flags (text.toList ++ after) = (tokenKind, text.toList)) :
    Comes src place mode flags (Phrase.tokenAt place tokenKind text glued) := by
  unfold Written at h
  rw [Phrase.following_cons, Phrase.spelling, List.append_assoc, ← hafter] at h
  have htail := tail?_append h
  have hskip : skipTrivia src place mode flags =
      (place + byteLength (Phrase.gap glued place), []) := skip_gap h hstop
  unfold Comes next
  rw [hskip]
  dsimp only
  rw [htail]
  dsimp only
  rw [htoken, String.ofList_toList]
  unfold Phrase.tokenAt
  cases Phrase.gap_eq glued place with
  | inl hnone => simp [hnone]
  | inr hspace => simp [hspace, Nat.ne_of_gt (Char.utf8Size_pos ' ')]

theorem comes_of_solid (h : Written src place (.leaf kind text glued :: ps) rest)
    (hsolid : text.toList.head?.any isSolid) {tokenKind : TokenKind} {after : List Char}
    (hafter : after = Phrase.following ((Phrase.leaf kind text glued).stop place) ps rest)
    (htoken : tokenOf mode flags (text.toList ++ after) = (tokenKind, text.toList)) :
    Comes src place mode flags (Phrase.tokenAt place tokenKind text glued) := by
  apply comes_of_written h hafter _ htoken
  intro fresh offset
  cases hchars : text.toList with
  | nil => simp [hchars] at hsolid
  | cons c cs =>
    rw [List.cons_append]
    exact skipFrom_solid (by simpa [hchars] using hsolid) _

theorem comes_end (mode : Mode) (flags : Flags) (h : Written src place [] rest)
    (hrest : rest = [] ∨ rest = [' ']) : ∃ tok, tok.isEof ∧ Comes src place mode flags tok := by
  have hnil : ∀ fresh offset,
      Trivia.skipFrom (triviaRules mode flags) fresh offset [] = (offset, []) := fun _ _ => rfl
  have htail : src.tail? place = some (rest ++ []) := by
    rw [List.append_nil]
    exact h
  have hskip : skipTrivia src place mode flags = (place + byteLength rest, []) := by
    unfold skipTrivia Trivia.skip
    rw [htail]
    cases hrest with
    | inl hnone =>
      rw [hnone]
      exact hnil _ _
    | inr hspace =>
      rw [hspace]
      exact (skipFrom_space []).trans (hnil _ _)
  refine ⟨⟨.eof, .ofWidth (place + byteLength rest) 0, "", place + byteLength rest == place⟩, rfl,
    ?_⟩
  unfold Comes next
  rw [hskip]
  dsimp only
  rw [tail?_append htail]
  rfl

end

/-! ### Tables of operators -/

/-- What follows the characters does not matter where no operator goes on with it. -/
theorem isPrefixOf_append {op cs after : List Char}
    (hafter : ∀ c ∈ after.head?, (cs ++ [c]).isPrefixOf op = false) :
    op.isPrefixOf (cs ++ after) = op.isPrefixOf cs := by
  rw [Bool.eq_iff_iff, List.isPrefixOf_iff_prefix, List.isPrefixOf_iff_prefix]
  constructor
  . intro hop
    cases List.prefix_or_prefix_of_prefix hop (List.prefix_append cs after) with
    | inl hbegins => exact hbegins
    | inr hbegins =>
      obtain ⟨more, rfl⟩ := hbegins
      cases more with
      | nil => simp
      | cons d more =>
        obtain ⟨rest, rfl⟩ := (List.prefix_append_right_inj cs).1 hop
        have hnot := hafter d rfl
        rw [← Bool.not_eq_true, List.isPrefixOf_iff_prefix] at hnot
        exact absurd ⟨more, by simp⟩ hnot
  . exact fun hop => hop.trans (List.prefix_append cs after)

theorem isPrefixOf_toList_append (op : String) (after : List Char) :
    op.toList.isPrefixOf (op.toList ++ after) :=
  List.isPrefixOf_iff_prefix.2 (List.prefix_append _ _)

theorem drop_toList_append (op : String) (after : List Char) :
    (op.toList ++ after).drop op.length = after := by
  rw [← String.length_toList, List.drop_left]

theorem isPrefixOf_concat_eq_false {cs op : List Char} {c : Char} (hcs : cs ≠ [])
    (hc : c ∉ op.tail) : (cs ++ [c]).isPrefixOf op = false := by
  rw [← Bool.not_eq_true, List.isPrefixOf_iff_prefix]
  rintro ⟨more, rfl⟩
  simp [List.tail_append_of_ne_nil, hcs] at hc

/-- The first operator of a table that is admitted, where no longer one is. -/
theorem find?_of_isPrefixOf {ops : List String} {admits : String → Bool} {op : String}
    (hop : admits op) (hadmits : ∀ o ∈ ops, admits o → o.toList.isPrefixOf op.toList)
    (hfind : ops.find? (·.toList.isPrefixOf op.toList) = some op) : ops.find? admits = some op := by
  rw [List.find?_eq_some_iff_append] at hfind ⊢
  obtain ⟨_, before, behind, rfl, hbefore⟩ := hfind
  refine ⟨hop, before, behind, rfl, fun o ho => ?_⟩
  have hmem : o ∈ before ++ op :: behind := List.mem_append_left _ ho
  rw [Bool.not_eq_true', ← Bool.not_eq_true]
  -- An earlier operator that begins the characters would begin `op` itself.
  intro hadmitted
  have hnot := hbefore o ho
  simp [hadmits o hmem hadmitted] at hnot

theorem find?_isPrefixOf_append {ops : List String} {admits : String → Bool} {op : String}
    {after : List Char} (hop : admits op)
    (hadmits : ∀ o ∈ ops, admits o → o.toList.isPrefixOf (op.toList ++ after))
    (hafter : ∀ o ∈ ops, ∀ c ∈ after.head?, (op.toList ++ [c]).isPrefixOf o.toList = false)
    (hfind : ops.find? (·.toList.isPrefixOf op.toList) = some op) : ops.find? admits = some op := by
  refine find?_of_isPrefixOf hop (fun o ho hadmitted => ?_) hfind
  rw [← isPrefixOf_append (hafter o ho)]
  exact hadmits o ho hadmitted

/-! ### Commands -/

/-- The characters of plain words and of the brackets that are keywords. -/
def isPlain (c : Char) : Bool := c.isLower || c == '\x7b' || c == '\x7d' || c == '['

theorem ne_of_class {inClass : Char → Bool} {c d : Char} (hc : inClass c)
    (hd : inClass d = false) : c ≠ d := by
  rintro rfl
  rw [hc] at hd
  cases hd

variable {c : Char} {cs after : List Char} {a s : Bool}

theorem isSolid_of_isPlain (hc : isPlain c) : isSolid c := by
  simp (disch := decide) [isSolid, isSpace, isBlank, ne_of_class hc]

theorem endsBareWord_of_isPlain (hc : isPlain c) :
    Lexeme.endsBareWord { assignment := a, statementStart := s } c = false := by
  simp (disch := decide) [Lexeme.endsBareWord, isSpace, isBlank, isMetacharacter, ne_of_class hc]

theorem isMetacharacter_of_isPlain (hc : isPlain c) : isMetacharacter c = false := by
  simp (disch := decide) [isMetacharacter, ne_of_class hc]

theorem mem_digits_of_isDigit (hc : c.isDigit) : c ∈ "0123456789".toList := by
  have hall : ∀ n < 58, 48 ≤ n → Char.ofNat n ∈ "0123456789".toList := by decide
  have hzero : '0'.val.toNat = 48 := rfl
  have hnine : '9'.val.toNat = 57 := rfl
  simp only [Char.isDigit, Bool.and_eq_true, decide_eq_true_eq, UInt32.le_iff_toNat_le,
    ge_iff_le] at hc
  have hmem := hall c.val.toNat (by omega) (by omega)
  rwa [show Char.ofNat c.val.toNat = c from Char.ofNat_toNat c] at hmem

theorem isDigit_of_isPlain (hc : isPlain c) : c.isDigit = false := by
  rw [← Bool.not_eq_true]
  intro hdigit
  have hnone : ∀ d ∈ "0123456789".toList, isPlain d = false := by decide
  exact ne_of_class hc (hnone c (mem_digits_of_isDigit hdigit)) rfl

theorem notMem_quotes_of_isPlain (hc : isPlain c) : c ∉ ['\'', '"', '\x60', '$'] := by
  intro hmem
  have hnone : ∀ d ∈ ['\'', '"', '\x60', '$'], isPlain d = false := by decide
  exact ne_of_class hc (hnone c hmem) rfl

theorem quoteOrDollar?_eq_none (hc : c ∉ ['\'', '"', '\x60', '$']) :
    Lexeme.quoteOrDollar? (c :: cs) = none := by
  simp only [List.mem_cons, List.not_mem_nil, or_false, not_or] at hc
  obtain ⟨hraw, hdouble, hbacktick, hdollar⟩ := hc
  unfold Lexeme.quoteOrDollar?
  split
  . next heq => exact absurd (List.cons.inj heq).1 hraw
  . next heq => exact absurd (List.cons.inj heq).1 hdouble
  . next heq => exact absurd (List.cons.inj heq).1 hbacktick
  iterate 6
    . next heq => exact absurd (List.cons.inj heq).1 hdollar
  . rfl

theorem closer?_eq_none (cs : List Char) :
    closer? { assignment := a, statementStart := s } cs = none := by
  unfold closer?
  split <;> rfl

theorem fileDescriptor?_eq_none (hc : c.isDigit = false) :
    Lexeme.fileDescriptor? (c :: cs) = none := by
  unfold Lexeme.fileDescriptor?
  rw [List.takeWhile_cons_of_neg (by simp [hc])]

theorem word_append {flags : Flags} {w : List Char} (hflags : flags.inExpansion = false)
    (hw : ∀ c ∈ w, c ≠ '\\' ∧ c ≠ '$' ∧ Lexeme.endsBareWord flags c = false)
    (hafter : EndsWord after) : Lexeme.word flags (w ++ after) = w := by
  induction w with
  | nil =>
    cases after with
    | nil => rfl
    | cons d after =>
      have hd : Trivia.endsWord d := hafter d rfl
      have hends : Lexeme.endsBareWord flags d = true := by
        simp only [Trivia.endsWord, Bool.or_eq_true] at hd
        cases hd with
        | inl hspace => simp [Lexeme.endsBareWord, hspace]
        | inr hmeta => simp [Lexeme.endsBareWord, hmeta, hflags]
      have hbackslash : d ≠ '\\' := by
        rintro rfl
        exact absurd hd (by decide)
      rw [List.nil_append, Lexeme.word_cons hbackslash, hends, Bool.true_or, if_pos rfl]
  | cons c w ih =>
    obtain ⟨hbackslash, hdollar, hends⟩ := hw c List.mem_cons_self
    have ih := ih fun d hd => hw d (List.mem_cons_of_mem c hd)
    rw [List.cons_append, Lexeme.word_cons hbackslash, ih]
    simp [hends, hdollar]

/-- A word of plain characters that does not begin like the target of an assignment. -/
structure IsPlainWord (w : List Char) : Prop where
  ne_nil : w ≠ []
  plain : ∀ c ∈ w, isPlain c
  noTarget : (∀ c ∈ w, isNameChar c) ∨ ∀ c ∈ w, isNameStart c = false

theorem not_isNameChar_of_endsWord (hc : Trivia.endsWord c) : isNameChar c = false := by
  have hall : ∀ c ∈ [' ', '\t', '\r', '\x0b', '\x0c', '\n', ';', '&', '|', '(', ')', '<', '>'],
      isNameChar c = false := by decide
  apply hall
  simpa [Trivia.endsWord, isSpace, isBlank, isMetacharacter, or_assoc] using hc

theorem variableName?_eq_none {w : List Char} (hw : IsPlainWord w) (hafter : EndsWord after) :
    Lexeme.variableName? (w ++ after) = none := by
  obtain ⟨c, w, rfl⟩ := List.exists_cons_of_ne_nil hw.ne_nil
  cases hw.noTarget with
  | inr hstart => simp [Lexeme.variableName?, hstart c List.mem_cons_self]
  | inl hname =>
    have hdrop : (c :: w ++ after).dropWhile isNameChar = after := by
      rw [List.dropWhile_append_of_pos hname]
      cases after with
      | nil => rfl
      | cons d after =>
        rw [List.dropWhile_cons_of_neg]
        simp [not_isNameChar_of_endsWord (hafter d rfl)]
    rw [List.cons_append] at hdrop ⊢
    simp only [Lexeme.variableName?, hdrop]
    cases after with
    | nil => simp [Lexeme.opensAssignment]
    | cons d after =>
      -- What ends a word opens neither a subscript nor `=` nor `+=`.
      have hends : Trivia.endsWord d := hafter d rfl
      split
      . split
        . next heq =>
          cases heq
          exact absurd hends (by decide)
        . split
          . next hopens =>
            unfold Lexeme.opensAssignment at hopens
            split at hopens
            . next heq =>
              cases heq
              exact absurd hends (by decide)
            . next heq =>
              cases heq
              exact absurd hends (by decide)
            . contradiction
          . rfl
      . rfl

theorem not_admitsCommandOperator {flags : Flags} (hc : isMetacharacter c = false) {op : String}
    (hop : op ∈ Operator.command) : admitsCommandOperator flags (c :: cs) op = false := by
  have hhead : ∀ op ∈ Operator.command, op.toList.head?.any isMetacharacter := by decide
  have hmeta := hhead op hop
  unfold admitsCommandOperator
  cases hchars : op.toList with
  | nil => simp [hchars] at hmeta
  | cons d ds =>
    simp only [hchars, List.head?_cons, Option.any_some] at hmeta
    have hne : d ≠ c := by
      rintro rfl
      rw [hc] at hmeta
      cases hmeta
    simp [List.isPrefixOf, hne]

theorem commandOperator?_eq_none {flags : Flags} (hc : isMetacharacter c = false) :
    commandOperator? flags (c :: cs) = none := by
  unfold commandOperator?
  rw [List.find?_eq_none.2 fun op hop => by simp [not_admitsCommandOperator hc hop],
    Option.map_none]

theorem command_word {w : List Char} (hw : IsPlainWord w) (hafter : EndsWord after) :
    command { assignment := a, statementStart := s } (w ++ after) = (.word, w) := by
  have hname := variableName?_eq_none hw hafter
  have htaken : Lexeme.word { assignment := a, statementStart := s } (w ++ after) = w := by
    apply word_append rfl _ hafter
    intro c hc
    have hplain := hw.plain c hc
    exact ⟨ne_of_class hplain (by decide), ne_of_class hplain (by decide),
      endsBareWord_of_isPlain hplain⟩
  obtain ⟨c, w, rfl⟩ := List.exists_cons_of_ne_nil hw.ne_nil
  have hplain : isPlain c := hw.plain c List.mem_cons_self
  rw [List.cons_append] at hname htaken ⊢
  unfold command commandSeparator? assignmentTarget? wordOrError
  simp [closer?_eq_none, quoteOrDollar?_eq_none (notMem_quotes_of_isPlain hplain), hname, htaken,
    fileDescriptor?_eq_none (isDigit_of_isPlain hplain),
    commandOperator?_eq_none (isMetacharacter_of_isPlain hplain)]

/-- An operator that is admitted is read where no longer one is. -/
theorem command_operator_of {op : String} (hop : op ∈ Operator.command)
    (hadmitted : admitsCommandOperator { assignment := a, statementStart := s }
      (op.toList ++ after) op)
    (hadmits : ∀ o ∈ Operator.command,
      admitsCommandOperator { assignment := a, statementStart := s } (op.toList ++ after) o →
        o.toList.isPrefixOf op.toList) :
    command { assignment := a, statementStart := s } (op.toList ++ after) =
      (.operator op, op.toList) := by
  have hall : ∀ o ∈ Operator.command, o.toList ≠ [] ∧ ∀ c ∈ o.toList, c.isDigit = false ∧
      c ∉ ['\'', '"', '\x60', '$'] := by decide
  obtain ⟨hnil, hchars⟩ := hall op hop
  have hlongest : ∀ op ∈ Operator.command,
      Operator.command.find? (·.toList.isPrefixOf op.toList) = some op := by decide
  have hoperator : commandOperator? { assignment := a, statementStart := s }
      (op.toList ++ after) = some (.operator op, op.toList) := by
    unfold commandOperator?
    rw [find?_of_isPrefixOf hadmitted hadmits (hlongest op hop), Option.map_some]
  obtain ⟨c, cs, heq⟩ := List.exists_cons_of_ne_nil hnil
  obtain ⟨hdigit, hquote⟩ := hchars c (by simp [heq])
  rw [heq, List.cons_append] at hoperator ⊢
  unfold command commandSeparator?
  simp [closer?_eq_none, quoteOrDollar?_eq_none hquote, hoperator, fileDescriptor?_eq_none hdigit]

theorem isPrefixOf_of_admitsCommandOperator {flags : Flags} {op : String}
    (h : admitsCommandOperator flags cs op) : op.toList.isPrefixOf cs := by
  simp only [admitsCommandOperator, Bool.and_eq_true] at h
  exact h.1

/-- An operator is read where no operator goes on with what follows. -/
theorem command_operator_before {op : String} (hop : op ∈ Operator.command) (hne : op ≠ "((")
    (hafter : ∀ c ∈ after.head?, ∀ o ∈ Operator.command, c ∉ o.toList.tail) :
    command { assignment := a, statementStart := s } (op.toList ++ after) =
      (.operator op, op.toList) := by
  have hnil : ∀ o ∈ Operator.command, o.toList ≠ [] := by decide
  have hends : ∀ o ∈ Operator.command, ∀ c ∈ after.head?,
      (op.toList ++ [c]).isPrefixOf o.toList = false := fun o ho c hc =>
    isPrefixOf_concat_eq_false (hnil op hop) (hafter c hc o ho)
  apply command_operator_of hop
  . simp [admitsCommandOperator, isPrefixOf_toList_append, hne]
  . intro o ho hadmitted
    rw [← isPrefixOf_append (hends o ho)]
    exact isPrefixOf_of_admitsCommandOperator hadmitted

theorem command_operator {op : String} (hop : op ∈ Operator.command) (hne : op ≠ "((")
    (hafter : EndsOperator after) :
    command { assignment := a, statementStart := s } (op.toList ++ after) =
      (.operator op, op.toList) := by
  have hall : ∀ o ∈ Operator.command, ' ' ∉ o.toList.tail ∧ ')' ∉ o.toList.tail ∧
      ∀ c ∈ o.toList.tail, c.isLower = false := by decide
  apply command_operator_before hop hne
  intro c hc o ho
  obtain ⟨hspace, hparen, hlower⟩ := hall o ho
  rcases hafter c hc with rfl | rfl | hc
  . exact hspace
  . exact hparen
  . intro hmem
    rw [hlower c hmem] at hc
    cases hc

/-- A parenthesis is a token by itself, unless it and another one open an arithmetic command. -/
theorem command_parenthesis {op : String} (hop : op ∈ ["(", ")"])
    (hafter : op = "(" → (s && DoubleParen.opensArithmetic (after.drop 1)) = false) :
    command { assignment := a, statementStart := s } (op.toList ++ after) =
      (.operator op, op.toList) := by
  have hall : ∀ op ∈ ["(", ")"], (op ∈ Operator.command ∧ op ≠ "((" ∧ op.toList.length = 1) ∧
      ∀ o ∈ Operator.command, o.toList.head? = op.toList.head? →
        o = op ∨ o = "((" ∧ op = "(" := by
    decide
  obtain ⟨⟨hmem, hne, hlength⟩, hlongest⟩ := hall op hop
  obtain ⟨c, hchars⟩ := List.length_eq_one_iff.1 hlength
  apply command_operator_of hmem
  . simp [admitsCommandOperator, isPrefixOf_toList_append, hne]
  . intro o ho hadmitted
    have hbegins := List.isPrefixOf_iff_prefix.1 (isPrefixOf_of_admitsCommandOperator hadmitted)
    rw [hchars, List.singleton_append, List.prefix_cons_iff] at hbegins
    rcases hbegins with hnil | ⟨more, hmore, _⟩
    . simp [hnil]
    . rcases hlongest o ho (by rw [hmore, hchars]; rfl) with rfl | ⟨rfl, hopen⟩
      . simp
      . simp [admitsCommandOperator, hchars] at hadmitted
        simp [hadmitted] at hafter
        exact absurd hopen hafter

/-- Two parentheses are a token where they open an arithmetic command. -/
theorem command_parentheses (hopens : DoubleParen.opensArithmetic after) :
    command { assignment := a, statementStart := true } ("((".toList ++ after) =
      (.operator "((", "((".toList) := by
  have hall : ∀ o ∈ Operator.command, o.toList ≠ [] ∧
      (o.toList.head? = some '(' → o.toList.isPrefixOf "((".toList) := by decide
  apply command_operator_of (by decide)
  . simp [admitsCommandOperator, hopens]
  . intro o ho hadmitted
    obtain ⟨hnil, hbegins⟩ := hall o ho
    obtain ⟨c, cs, hchars⟩ := List.exists_cons_of_ne_nil hnil
    have hhead := List.isPrefixOf_iff_prefix.1 (isPrefixOf_of_admitsCommandOperator hadmitted)
    apply hbegins
    rw [hchars] at hhead ⊢
    rw [(List.cons_prefix_cons.1 hhead).1]
    rfl

section

variable {src : Source} {place : Nat} {rest : List Char} {p : Phrase} {ps : List Phrase}
variable {kind : NodeKind} {text : String} {glued : Bool}

/-- Phrases that are not glued to what comes before them part from it. -/
theorem parted_following (hplace : place ≠ 0) (hglued : p.isGlued = false) :
    Parted (Phrase.following place (p :: ps) rest) := by
  obtain ⟨cs, hcs⟩ := Phrase.exists_spelling_eq place p
  have hgap : Phrase.gap p.isGlued place = [' '] := by simp [Phrase.gap, hglued, hplace]
  rw [Phrase.following_cons, hcs, hgap]
  intro c hc
  simpa [eq_comm] using hc

theorem tokenOf_of_isSolid (mode : Mode) (flags : Flags) {w : List Char} (after : List Char)
    (hw : w.head?.any isSolid) :
    tokenOf mode flags (w ++ after) =
      match mode with
      | .command | .heredocPending => command flags (w ++ after)
      | .test => test "]" flags (w ++ after)
      | .doubleTest => test "]]" flags (w ++ after)
      | .arithmetic => arithmetic (w ++ after) := by
  cases w with
  | nil => cases hw
  | cons c w =>
    unfold tokenOf
    split
    . contradiction
    . next heq =>
      have hsolid : isSolid c := by simpa using hw
      rw [(List.cons.inj heq).1] at hsolid
      cases hsolid
    . rfl

theorem comes_word (h : Written src place (.leaf kind text glued :: ps) rest)
    (hword : IsPlainWord text.toList)
    (hafter : EndsWord (Phrase.following ((Phrase.leaf kind text glued).stop place) ps rest)) :
    Comes src place .command { assignment := a, statementStart := s }
      (Phrase.tokenAt place .word text glued) := by
  have hsolid : text.toList.head?.any isSolid := by
    obtain ⟨c, cs, hchars⟩ := List.exists_cons_of_ne_nil hword.ne_nil
    simp [hchars, isSolid_of_isPlain (hword.plain c (by simp [hchars]))]
  apply comes_of_solid h hsolid rfl
  exact (tokenOf_of_isSolid _ _ _ hsolid).trans (command_word hword hafter)

theorem comes_operator (h : Written src place (.leaf kind text glued :: ps) rest)
    (hop : text ∈ Operator.command) (hne : text ≠ "((")
    (hafter : EndsOperator (Phrase.following ((Phrase.leaf kind text glued).stop place) ps rest)) :
    Comes src place .command { assignment := a, statementStart := s }
      (Phrase.tokenAt place (.operator text) text glued) := by
  have hsolid : ∀ op ∈ Operator.command, op.toList.head?.any isSolid := by decide
  apply comes_of_solid h (hsolid text hop) rfl
  exact (tokenOf_of_isSolid _ _ _ (hsolid text hop)).trans (command_operator hop hne hafter)

theorem comes_parenthesis (h : Written src place (.leaf kind text glued :: ps) rest)
    (hop : text ∈ ["(", ")"]) (hafter : text = "(" → (s && DoubleParen.opensArithmetic
      ((Phrase.following ((Phrase.leaf kind text glued).stop place) ps rest).drop 1)) = false) :
    Comes src place .command { assignment := a, statementStart := s }
      (Phrase.tokenAt place (.operator text) text glued) := by
  have hsolid : ∀ op ∈ ["(", ")"], op.toList.head?.any isSolid := by decide
  apply comes_of_solid h (hsolid text hop) rfl
  exact (tokenOf_of_isSolid _ _ _ (hsolid text hop)).trans (command_parenthesis hop hafter)

theorem comes_parentheses (h : Written src place (.leaf kind "((" glued :: ps) rest)
    (hopens : DoubleParen.opensArithmetic
      (Phrase.following ((Phrase.leaf kind "((" glued).stop place) ps rest)) :
    Comes src place .command { assignment := a, statementStart := true }
      (Phrase.tokenAt place (.operator "((") "((" glued) := by
  apply comes_of_solid h (by decide) rfl
  exact (tokenOf_of_isSolid _ _ _ (by decide)).trans (command_parentheses hopens)

theorem comes_newline (h : Written src place (.leaf kind "\n" glued :: ps) rest) :
    Comes src place .command { assignment := a, statementStart := s }
      (Phrase.tokenAt place .newline "\n" glued) := by
  apply comes_of_written h rfl
  . intro fresh offset
    change Trivia.skipFrom _ _ _ ('\n' :: _) = _
    rw [Trivia.skipFrom]
    . simp [triviaRules, isBlank]
    . simp
    . simp
  . rfl

end

end Lexer

end ShellTree
