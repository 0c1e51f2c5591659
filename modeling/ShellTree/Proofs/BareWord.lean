import ShellTree.Proofs.CommandToken

/-!
This module contains what a bare word is made of, without its scanner: pieces that belong to a word
in front of what follows them. The scanner takes the longest run of them.
-/

namespace ShellTree
namespace Lexeme

/-- The character can stand in a word by itself. -/
structure IsPlain (flags : Flags) (c : Char) : Prop where
  ne_backslash : c ≠ '\\'
  ne_dollar : c ≠ '$'
  ne_quote : c ≠ '\'' ∧ c ≠ '"' ∧ c ≠ '\x60'
  isSpace_eq : isSpace c = false
  operator : flags.inExpansion = false → c ∉ [';', '&', '|', '(', ')', '<', '>']
  brace : flags.stopAtBrace = true → c ≠ '\x7d'
  bracket : flags.stopAtBracket = true → c ≠ ']'

/-- The characters belong to a word together where the others follow them. -/
inductive IsPiece (flags : Flags) : List Char → List Char → Prop where
  | escape {c : Char} {rest : List Char} : Trivia.continuation? ('\\' :: c :: rest) = none →
    IsPiece flags ['\\', c] rest
  /-- A backslash at the end of the text escapes nothing. -/
  | backslash : IsPiece flags ['\\'] []
  | dollar {rest : List Char} : quoteOrDollar? ('$' :: rest) = none → IsPiece flags ['$'] rest
  | plain {c : Char} {rest : List Char} : IsPlain flags c → IsPiece flags [c] rest

/-- The characters are pieces of a word, one after the other. -/
inductive ArePieces (flags : Flags) : List Char → List Char → Prop where
  | nil {rest : List Char} : ArePieces flags [] rest
  | cons {piece taken rest : List Char} : IsPiece flags piece (taken ++ rest) →
    ArePieces flags taken rest → ArePieces flags (piece ++ taken) rest

variable {flags : Flags} {c : Char} {cs piece taken rest : List Char}

/-! ### Pieces and the scanner -/

theorem isMetacharacter_iff :
    isMetacharacter c = true ↔ c ∈ [';', '&', '|', '(', ')', '<', '>'] := by
  simp [isMetacharacter, or_assoc]

/-- The characters by themselves are those that neither end a word nor open something. -/
theorem isPlain_iff : IsPlain flags c ↔ c ≠ '\\' ∧ c ≠ '$' ∧ endsBareWord flags c = false := by
  simp only [endsBareWord, Bool.or_eq_false_iff, beq_eq_false_iff_ne, Bool.and_eq_false_imp,
    Bool.not_eq_eq_eq_not, Bool.not_true]
  constructor
  . rintro ⟨hbackslash, hdollar, ⟨hsingle, hdouble, hbacktick⟩, hspace, hoperator, hbrace, hbracket⟩
    refine ⟨hbackslash, hdollar, ⟨⟨⟨⟨⟨hspace, hsingle⟩, hdouble⟩, hbacktick⟩, ?_⟩, hbrace⟩,
      hbracket⟩
    intro hin
    rw [← Bool.not_eq_true, isMetacharacter_iff]
    exact hoperator hin
  . rintro ⟨hbackslash, hdollar, ⟨⟨⟨⟨⟨hspace, hsingle⟩, hdouble⟩, hbacktick⟩, hoperator⟩, hbrace⟩,
      hbracket⟩
    refine ⟨hbackslash, hdollar, ⟨hsingle, hdouble, hbacktick⟩, hspace, ?_, hbrace, hbracket⟩
    intro hin
    rw [← isMetacharacter_iff, Bool.not_eq_true]
    exact hoperator hin

theorem quoteOrDollar?_eq_none_iff :
    quoteOrDollar? ('$' :: cs) = none ↔ opensDollarForm cs = false := by
  rw [← Bool.not_eq_true]
  constructor
  . intro hnone hopens
    have hsome := quoteOrDollar?_dollar hopens
    simp [hnone] at hsome
  . intro hopens
    cases cs with
    | nil => rfl
    | cons c cs =>
      simp only [opensDollarForm, Bool.or_eq_true, beq_iff_eq, not_or] at hopens
      unfold quoteOrDollar?
      split <;> simp_all

theorem IsPiece.ne_nil (h : IsPiece flags piece rest) : piece ≠ [] := by
  cases h <;> simp

/-- The scanner takes a piece that it comes to. -/
theorem IsPiece.word_eq (h : IsPiece flags piece rest) :
    word flags (piece ++ rest) = piece ++ word flags rest := by
  cases h with
  | escape hnone => exact word_backslash hnone
  | backslash => rfl
  | dollar hnone =>
    have hends : endsBareWord flags '$' = false := by
      simp [endsBareWord, isSpace, isBlank, isMetacharacter]
    rw [quoteOrDollar?_eq_none_iff] at hnone
    rw [List.singleton_append, word_cons (by decide), hnone, hends]
    rfl
  | plain hplain =>
    obtain ⟨hbackslash, hdollar, hends⟩ := isPlain_iff.1 hplain
    rw [List.singleton_append, word_cons hbackslash, hends, beq_false_of_ne hdollar]
    rfl

/-- What the scanner takes are pieces. -/
theorem word_arePieces (flags : Flags) (cs : List Char) :
    ∃ rest, cs = word flags cs ++ rest ∧ ArePieces flags (word flags cs) rest := by
  fun_induction word flags cs with
  | case1 => exact ⟨[], rfl, .nil⟩
  | case2 =>
    have hpieces : ArePieces flags (['\\'] ++ []) [] := .cons .backslash .nil
    exact ⟨[], rfl, hpieces⟩
  | case3 c cs hcontinues => exact ⟨'\\' :: c :: cs, rfl, .nil⟩
  | case4 c cs hcontinues ih =>
    obtain ⟨rest, heq, hpieces⟩ := ih
    refine ⟨rest, by rw [List.cons_append, List.cons_append, ← heq], ?_⟩
    have hpiece : IsPiece flags ['\\', c] (word flags cs ++ rest) := by
      rw [← heq]
      exact .escape (by simpa using hcontinues)
    exact .cons hpiece hpieces
  | case5 c cs _ _ hends => exact ⟨c :: cs, rfl, .nil⟩
  | case6 c cs hlone hescape hends ih =>
    obtain ⟨rest, heq, hpieces⟩ := ih
    refine ⟨rest, by rw [List.cons_append, ← heq], ?_⟩
    have hbackslash : c ≠ '\\' := by
      rintro rfl
      cases cs with
      | nil => exact hlone rfl rfl
      | cons d cs => exact hescape d cs rfl rfl
    simp only [Bool.or_eq_true, Bool.and_eq_true, beq_iff_eq, not_or, not_and,
      Bool.not_eq_true] at hends
    have hpiece : IsPiece flags [c] (word flags cs ++ rest) := by
      by_cases hdollar : c = '$'
      . subst hdollar
        exact .dollar (heq ▸ quoteOrDollar?_eq_none_iff.2 (hends.2 rfl))
      . exact .plain (isPlain_iff.2 ⟨hbackslash, hdollar, hends.1⟩)
    exact .cons hpiece hpieces

/-- No run of pieces is longer than what the scanner takes. -/
theorem ArePieces.isPrefix_word (h : ArePieces flags taken rest) :
    taken <+: word flags (taken ++ rest) := by
  induction h with
  | nil => exact List.nil_prefix
  | cons hpiece _ ih =>
    rw [List.append_assoc, hpiece.word_eq]
    exact (List.prefix_append_right_inj _).2 ih

/-! ### Main results -/

/-- The scanner for words ends where a character begins or the text ends, and what it takes is the
longest run of pieces: every other one is its beginning. -/
theorem word_longest {src : Source} {start : Nat} (h : src.Boundary start) (flags : Flags) :
    ∃ cs stop rest, src.tail? start = some cs ∧ src.Spells start stop (word flags cs) ∧
      src.Boundary stop ∧ src.tail? stop = some rest ∧ ArePieces flags (word flags cs) rest ∧
      ∀ stop' taken rest', src.Spells start stop' taken → src.tail? stop' = some rest' →
        ArePieces flags taken rest' → taken <+: word flags cs ∧ stop' ≤ stop := by
  obtain ⟨cs, htail, hspells⟩ := h.exists_tail?
  obtain ⟨rest, heq, hpieces⟩ := word_arePieces flags cs
  rw [heq, Source.spells_append] at hspells
  obtain ⟨hword, hrest⟩ := hspells
  refine ⟨cs, _, rest, htail, hword, hword.right, Source.tail?_eq_some_iff.2 hrest, hpieces, ?_⟩
  intro stop' taken rest' htaken htail' hpieces'
  -- the other run starts at the same place, so that it is read from the same characters
  have hcs : cs = taken ++ rest' :=
    (Source.tail?_eq_some_iff.1 htail).unique (htaken.append (Source.tail?_eq_some_iff.1 htail'))
  have hbegins : taken <+: word flags cs := by
    rw [hcs]
    exact hpieces'.isPrefix_word
  refine ⟨hbegins, ?_⟩
  obtain ⟨more, hmore⟩ := hbegins
  rw [htaken.stop_eq, ← hmore, byteLength_append]
  omega

/-- A dollar sign before the closing brace of an expansion opens nothing, so that it belongs to the
word, as an escaped blank does. -/
theorem word_longest_dollar :
    (Source.ofString "é\\ $\x7d").Boundary 2 ∧
      ∃ cs stop rest, (Source.ofString "é\\ $\x7d").tail? 2 = some cs ∧
        (Source.ofString "é\\ $\x7d").Spells 2 stop
          (word { inExpansion := true, stopAtBrace := true } cs) ∧
        (Source.ofString "é\\ $\x7d").Boundary stop ∧
        (Source.ofString "é\\ $\x7d").tail? stop = some rest ∧
        ArePieces { inExpansion := true, stopAtBrace := true }
          (word { inExpansion := true, stopAtBrace := true } cs) rest ∧
        ∀ stop' taken rest', (Source.ofString "é\\ $\x7d").Spells 2 stop' taken →
          (Source.ofString "é\\ $\x7d").tail? stop' = some rest' →
          ArePieces { inExpansion := true, stopAtBrace := true } taken rest' →
            taken <+: word { inExpansion := true, stopAtBrace := true } cs ∧ stop' ≤ stop := by
  have hboundary : (Source.ofString "é\\ $\x7d").Boundary 2 :=
    ⟨['é'], ['\\', ' ', '$', '\x7d'], rfl, rfl, rfl⟩
  exact ⟨hboundary, word_longest hboundary { inExpansion := true, stopAtBrace := true }⟩

end Lexeme
end ShellTree
