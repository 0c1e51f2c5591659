import ShellTree.Lexer

/-!
This module contains the shape of what the scanners take: a beginning of the characters that they
are given, not empty where a token is promised, and the text of the operator where the token is one.
-/

namespace ShellTree

/-- What a token of the kind begins with when it is a string in single quotes. -/
def TokenKind.openingQuote : TokenKind → List Char
  | .rawString => ['\'']
  | .ansiCString => ['$', '\'']
  | _ => []

/-- What stands behind the characters that a token of the kind takes, and behind a redirect's file
descriptor, the name that is assigned and the dollar sign of a simple expansion it decides what they
are. -/
def TokenKind.Admits : TokenKind → List Char → List Char → Prop
  | .fileDescriptor, taken, rest =>
    (∀ c ∈ taken, c.isDigit) ∧ (rest.head? = some '<' ∨ rest.head? = some '>')
  | .variableName, _, rest => rest.head? = some '[' ∨ Lexeme.opensAssignment rest
  | .operator op, _, rest => op = "$" → rest.head? = some '"' ∨ opensSimpleExpansion rest
  | _, _, _ => True

theorem isNameChar_of_isNameStart {c : Char} (h : isNameStart c) : isNameChar c := by
  simp only [isNameStart, isNameChar, Char.isAlphanum, Bool.or_eq_true] at h ⊢
  exact h.imp_left .inl

namespace Lexeme

theorem rawBody_isPrefix (cs : List Char) : rawBody cs <+: cs := by
  induction cs with
  | nil => exact List.prefix_refl []
  | cons c cs ih =>
    unfold rawBody
    split
    . exact ⟨cs, rfl⟩
    . exact (List.prefix_cons_inj c).2 ih

theorem ansiCBody_isPrefix (cs : List Char) : ansiCBody cs <+: cs := by
  fun_induction ansiCBody cs with
  | case1 => exact List.prefix_refl []
  | case2 c cs ih => exact (List.prefix_cons_inj _).2 ((List.prefix_cons_inj c).2 ih)
  | case3 c cs h hquote => exact ⟨cs, rfl⟩
  | case4 c cs h hquote ih => exact (List.prefix_cons_inj c).2 ih

theorem word_isPrefix (flags : Flags) (cs : List Char) : word flags cs <+: cs := by
  fun_induction word flags cs with
  | case1 => exact List.prefix_refl []
  | case2 => exact List.prefix_refl _
  | case3 c cs h => exact List.nil_prefix
  | case4 c cs h ih => exact (List.prefix_cons_inj _).2 ((List.prefix_cons_inj c).2 ih)
  | case5 c cs h h' hend => exact List.nil_prefix
  | case6 c cs h h' hend ih => exact (List.prefix_cons_inj c).2 ih

theorem word_cons {flags : Flags} {c : Char} {cs : List Char} (hbackslash : c ≠ '\\') :
    word flags (c :: cs) =
      if endsBareWord flags c || (c == '$' && opensDollarForm cs) then []
      else c :: word flags cs := by
  rw [word.eq_def]
  split
  . contradiction
  . next heq => exact absurd (List.cons.inj heq).1 hbackslash
  . next heq => exact absurd (List.cons.inj heq).1 hbackslash
  . next heq =>
    cases heq
    rfl

theorem word_backslash {flags : Flags} {c : Char} {cs : List Char}
    (h : Trivia.continuation? ('\\' :: c :: cs) = none) :
    word flags ('\\' :: c :: cs) = '\\' :: c :: word flags cs := by
  rw [word.eq_def]
  simp [h]

theorem heredocMarker_isPrefix (q : Quoting) (cs : List Char) : heredocMarker q cs <+: cs := by
  fun_induction heredocMarker q cs with
  | case1 => exact List.prefix_refl []
  | case2 => exact List.prefix_refl _
  | case3 q c h d cs h' => exact ⟨d :: cs, rfl⟩
  | case4 q c h d cs h' ih => exact (List.prefix_cons_inj c).2 ((List.prefix_cons_inj d).2 ih)
  | case5 => exact List.nil_prefix
  | case6 q c cs h h' ih => exact (List.prefix_cons_inj c).2 ih

theorem fileDescriptor?_isPrefix {cs digits : List Char} (h : fileDescriptor? cs = some digits) :
    digits <+: cs ∧ digits ≠ [] := by
  unfold fileDescriptor? at h
  split at h
  . contradiction
  . next hne =>
    split at h
    . cases h
      exact ⟨by apply List.takeWhile_prefix, hne⟩
    . contradiction
  . contradiction

theorem fileDescriptor?_admits {cs digits : List Char} (h : fileDescriptor? cs = some digits)
    (rest : List Char) (hrest : cs = digits ++ rest) :
    TokenKind.fileDescriptor.Admits digits rest := by
  have hsplit := List.takeWhile_append_dropWhile (p := Char.isDigit) (l := cs)
  have hdigits : (cs.takeWhile Char.isDigit).all Char.isDigit := List.all_takeWhile
  unfold fileDescriptor? at h
  split at h
  . contradiction
  . next c after hafter _ =>
    split at h
    . next hc =>
      obtain rfl : cs.takeWhile Char.isDigit = digits := by simpa using h
      obtain rfl : c :: after = rest := by
        apply List.append_cancel_left
        rw [← hrest, ← hafter, hsplit]
      exact ⟨List.all_eq_true.1 hdigits, by simpa using hc⟩
    . contradiction
  . contradiction

theorem variableName?_eq_some {cs name : List Char} (h : variableName? cs = some name) :
    (∃ c ∈ cs.head?, isNameStart c) ∧ name = nameRun cs ∧
      TokenKind.variableName.Admits name (cs.dropWhile isNameChar) := by
  unfold variableName? at h
  split at h
  . contradiction
  . next c cs =>
    split at h
    . next hstart =>
      refine ⟨⟨c, rfl, hstart⟩, ?_⟩
      split at h
      . next hbracket =>
        split at h
        . split at h
          . cases h
            exact ⟨rfl, .inl (by rw [hbracket]; rfl)⟩
          . contradiction
        . contradiction
      . split at h
        . next hopens =>
          cases h
          exact ⟨rfl, .inr hopens⟩
        . contradiction
    . contradiction

theorem variableName?_isPrefix {cs name : List Char} (h : variableName? cs = some name) :
    name <+: cs ∧ name ≠ [] := by
  obtain ⟨⟨c, hc, hstart⟩, rfl, _⟩ := variableName?_eq_some h
  obtain ⟨cs, rfl⟩ := List.head?_eq_some_iff.1 hc
  exact ⟨List.takeWhile_prefix _, by simp [nameRun, isNameChar_of_isNameStart hstart]⟩

theorem variableName?_admits {cs name : List Char} (h : variableName? cs = some name)
    (rest : List Char) (hrest : cs = name ++ rest) : TokenKind.variableName.Admits name rest := by
  obtain ⟨_, rfl, hadmits⟩ := variableName?_eq_some h
  have hsplit := List.takeWhile_append_dropWhile (p := isNameChar) (l := cs)
  rwa [List.append_cancel_left (hsplit.trans hrest)] at hadmits

/-- The pattern that a scanner takes from the characters. Only in a test can there be a fault, at a
character that is not ASCII. -/
def TakesPattern (inExpansion : Bool) (cs : List Char) : Except Fault (List Char) → Prop
  | .ok taken => taken <+: cs
  | .error fault => fault = .splitCharacter ∧ inExpansion = false ∧ ∃ c ∈ cs, 1 < c.utf8Size

theorem TakesPattern.cons {inExpansion : Bool} {cs : List Char}
    {result : Except Fault (List Char)} (h : TakesPattern inExpansion cs result) (c : Char) :
    TakesPattern inExpansion (c :: cs) (result.map (c :: ·)) := by
  cases result with
  | ok taken => exact (List.prefix_cons_inj c).2 h
  | error fault =>
    obtain ⟨hfault, hin, d, hd, hsize⟩ := h
    exact ⟨hfault, hin, d, by simp [hd], hsize⟩

theorem regex_takesPattern (inExpansion : Bool) (q : Quoting) (depth : Nat) (cs : List Char) :
    TakesPattern inExpansion cs (regex inExpansion q depth cs) := by
  fun_induction regex inExpansion q depth cs with
  | case1 => exact List.prefix_refl []
  | case2 => exact List.nil_prefix
  | case3 => exact List.prefix_refl _
  | case4 q depth c hescape d cs hend ih =>
    have := (ih.cons d).cons c
    cases hr : regex inExpansion q depth cs <;> rw [hr] at this <;> exact this
  | case5 q depth c cs h h' hsize =>
    simp only [Bool.and_eq_true, Bool.not_eq_true', decide_eq_true_eq] at hsize
    exact ⟨rfl, hsize.1.2, c, by simp, hsize.2⟩
  | case6 q depth c cs h h' hsize hopen ih => exact ih.cons c
  | case7 q depth c cs h h' hsize hopen hclose ih => exact ih.cons c
  | case8 q depth c cs h h' hsize hopen hclose ih => exact ih.cons c

/-- The match takes a beginning of the characters and is an ordinary token. -/
structure Takes (cs : List Char) (m : TokenKind × List Char) : Prop where
  isPrefix : m.2 <+: cs
  ne_nil : m.2 ≠ []
  ne_eof : m.1 ≠ .eof
  ne_newline : m.1 ≠ .newline
  operator_eq : ∀ op, m.1 = .operator op → m.2 = op.toList
  backtick_eq : m.1 = .backtickClose → m.2 = ['\x60']
  quote_isPrefix : m.1.openingQuote <+: m.2
  admits : ∀ rest, cs = m.2 ++ rest → m.1.Admits m.2 rest

theorem takes_operator (op : String) {cs : List Char} (h : op.toList <+: cs)
    (hop : op.toList ≠ []) (hdollar : op ≠ "$") :
    Takes cs (.operator op, op.toList) :=
  ⟨h, hop, by simp, by simp, by simp, by simp, List.nil_prefix, fun _ _ heq => absurd heq hdollar⟩

theorem takes_dollar {cs : List Char} (h : cs.head? = some '"' ∨ opensSimpleExpansion cs) :
    Takes ('$' :: cs) (.operator "$", ['$']) := by
  refine ⟨⟨cs, rfl⟩, by simp, by simp, by simp, by simp, by simp, List.nil_prefix, ?_⟩
  intro rest heq _
  obtain rfl : cs = rest := by simpa using heq
  exact h

theorem quoteOrDollar?_takes (cs : List Char) : ∀ m ∈ quoteOrDollar? cs, Takes cs m := by
  intro m hm
  unfold quoteOrDollar? at hm
  split at hm
  . next cs =>
    cases hm
    refine ⟨?_, by simp, by simp, by simp, by simp, by simp, ⟨_, rfl⟩,
      fun _ _ => trivial⟩
    exact (List.prefix_cons_inj _).2 (rawBody_isPrefix cs)
  . cases hm
    exact takes_operator "\"" ⟨_, rfl⟩ (by decide) (by decide)
  . cases hm
    exact takes_operator "`" ⟨_, rfl⟩ (by decide) (by decide)
  . next cs =>
    cases hm
    refine ⟨?_, by simp, by simp, by simp, by simp, by simp, ⟨_, rfl⟩,
      fun _ _ => trivial⟩
    exact (List.prefix_cons_inj _).2 ((List.prefix_cons_inj _).2 (ansiCBody_isPrefix cs))
  . split at hm
    . cases hm
      exact takes_operator "$(" ⟨_, rfl⟩ (by decide) (by decide)
    . cases hm
      exact takes_operator "$((" ⟨_, rfl⟩ (by decide) (by decide)
  . cases hm
    exact takes_operator "$(" ⟨_, rfl⟩ (by decide) (by decide)
  . cases hm
    exact takes_operator "$\x7b" ⟨_, rfl⟩ (by decide) (by decide)
  . cases hm
    exact takes_dollar (.inl rfl)
  . split at hm
    . next hopens =>
      cases hm
      exact takes_dollar (.inr hopens)
    . contradiction
  . contradiction

/-- Inside of quotes a dollar sign opens no other quotes. -/
theorem quoteOrDollar?_of_opensQuotedExpansion {cs : List Char} (h : opensQuotedExpansion cs) :
    ∃ op taken, quoteOrDollar? ('$' :: cs) = some (.operator op, taken) := by
  unfold quoteOrDollar?
  split
  . next heq => simp at heq
  . next heq => simp at heq
  . next heq => simp at heq
  . next heq =>
    obtain ⟨_, rfl⟩ := List.cons.inj heq
    cases h
  . split
    . exact ⟨_, _, rfl⟩
    . exact ⟨_, _, rfl⟩
  . exact ⟨_, _, rfl⟩
  . exact ⟨_, _, rfl⟩
  . exact ⟨_, _, rfl⟩
  . next hparenthesis hbrace _ heq =>
    obtain ⟨_, rfl⟩ := List.cons.inj heq
    cases cs with
    | nil => cases h
    | cons c cs =>
      have hsimple : opensSimpleExpansion (c :: cs) := by
        simp only [opensQuotedExpansion, Bool.or_eq_true, beq_iff_eq] at h
        obtain (rfl | rfl) | hsimple := h
        . exact absurd rfl (hparenthesis cs)
        . exact absurd rfl (hbrace cs)
        . exact hsimple
      rw [if_pos hsimple]
      exact ⟨_, _, rfl⟩
  . next hall => exact absurd rfl (hall cs)

end Lexeme
end ShellTree
