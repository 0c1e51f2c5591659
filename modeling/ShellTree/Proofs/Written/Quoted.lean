import ShellTree.Proofs.Written.ArithmeticTree

/-!
This module contains the four ways to write a text as one argument of a command, and the parse of
what they are written as: a quoted text is one token or one run of content, whatever its characters
mean elsewhere.
-/

namespace ShellTree

/-- A backslash stands before each of the characters that need one. -/
def escape (isSpecial : Char → Bool) : List Char → List Char
  | [] => []
  | c :: cs => if isSpecial c then '\\' :: c :: escape isSpecial cs else c :: escape isSpecial cs

theorem escape_of_isSpecial {isSpecial : Char → Bool} {c : Char} (hc : isSpecial c = true)
    (cs : List Char) : escape isSpecial (c :: cs) = '\\' :: c :: escape isSpecial cs := by
  simp [escape, hc]

theorem escape_of_not_isSpecial {isSpecial : Char → Bool} {c : Char} (hc : isSpecial c = false)
    (cs : List Char) : escape isSpecial (c :: cs) = c :: escape isSpecial cs := by
  simp [escape, hc]

theorem escape_ne_nil {isSpecial : Char → Bool} {cs : List Char} (h : cs ≠ []) :
    escape isSpecial cs ≠ [] := by
  obtain ⟨c, cs, rfl⟩ := List.exists_cons_of_ne_nil h
  unfold escape
  split <;> simp

/-- The characters with a meaning between double quotes. -/
def isDoubleSpecial (c : Char) : Bool := c == '"' || c == '\\' || c == '$' || c == '\x60'

/-- The characters with a meaning in an ANSI-C string. -/
def isAnsiSpecial (c : Char) : Bool := c == '\\' || c == '\''

inductive Quotation where
  | single
  | double
  | ansi
  /-- A backslash before every character, without quotes. -/
  | bare

namespace Quotation

/-- The text can be written so: single quotes hide no quote, and a hidden line feed is none of a
word. -/
def Admits : Quotation → String → Prop
  | single, s => '\'' ∉ s.toList
  | bare, s => s.toList ≠ [] ∧ '\n' ∉ s.toList
  | _, _ => True

/-- What stands between the quotes. -/
def body : Quotation → String → String
  | single, s => s
  | double, s => String.ofList (escape isDoubleSpecial s.toList)
  | ansi, s => String.ofList (escape isAnsiSpecial s.toList)
  | bare, s => String.ofList (escape (fun _ => true) s.toList)

def quote (q : Quotation) (s : String) : String :=
  match q with
  | single => "'" ++ q.body s ++ "'"
  | double => "\"" ++ q.body s ++ "\""
  | ansi => "$'" ++ q.body s ++ "'"
  | bare => q.body s

/-- What follows the quote that opens a string: one run of content, if there is anything, and the
quote that closes it. -/
def inside (s : String) : List Phrase :=
  (if s.isEmpty then [] else [.leaf .content (double.body s) true]) ++
    [.leaf (.token "\"") "\"" true]

def phrase (q : Quotation) (s : String) : Phrase :=
  match q with
  | single => .leaf .rawString (q.quote s) false
  | double => .node .string (.token "\"" :: inside s)
  | ansi => .leaf .ansiCString (q.quote s) false
  | bare => .leaf .word (q.quote s) false

theorem toList_single (s : String) :
    (single.quote s).toList = '\'' :: (s.toList ++ ['\'']) := by
  simp [quote, body]

theorem toList_ansi (s : String) :
    (ansi.quote s).toList = '$' :: '\'' :: (escape isAnsiSpecial s.toList ++ ['\'']) := by
  simp [quote, body]

theorem toList_bare (s : String) :
    (bare.quote s).toList = escape (fun _ => true) s.toList := by
  simp [quote, body]

end Quotation

/-! ### Scanners -/

namespace Lexeme

theorem rawBody_append {cs : List Char} (h : '\'' ∉ cs) (after : List Char) :
    rawBody (cs ++ '\'' :: after) = cs ++ ['\''] := by
  induction cs with
  | nil => rfl
  | cons c cs ih =>
    simp only [List.mem_cons, not_or] at h
    have hc : c ≠ '\'' := Ne.symm h.1
    simp [rawBody, hc, ih h.2]

theorem ansiCBody_cons {c : Char} (hc : c ≠ '\\') (cs : List Char) :
    ansiCBody (c :: cs) = if c == '\'' then [c] else c :: ansiCBody cs := by
  rw [ansiCBody.eq_def]
  split
  . contradiction
  . next heq => exact absurd (List.cons.inj heq).1 hc
  . next heq =>
    cases heq
    rfl

theorem ansiCBody_escape (cs after : List Char) :
    ansiCBody (escape isAnsiSpecial cs ++ '\'' :: after) = escape isAnsiSpecial cs ++ ['\''] := by
  induction cs with
  | nil => rfl
  | cons c cs ih =>
    unfold escape
    split
    . simp [ansiCBody, ih]
    . next hc =>
      simp only [isAnsiSpecial, Bool.or_eq_true, beq_iff_eq, not_or] at hc
      simp [ansiCBody_cons hc.1, hc.2, ih]

/-- A hidden character continues no line: it is no line feed, and what follows it is hidden too. -/
theorem continuation?_escape {c : Char} {cs : List Char} (hc : c ≠ '\n') :
    Trivia.continuation? ('\\' :: c :: escape (fun _ => true) cs) = none := by
  unfold Trivia.continuation?
  split
  . next heq => exact absurd (List.cons.inj (List.cons.inj heq).2).1 hc
  . next heq =>
    have hnext := (List.cons.inj (List.cons.inj heq).2).2
    cases cs with
    | nil => contradiction
    | cons d cs => simp [escape] at hnext
  . rfl

theorem word_escape (flags : Flags) {cs : List Char} (h : '\n' ∉ cs) :
    word flags (escape (fun _ => true) cs) = escape (fun _ => true) cs := by
  induction cs with
  | nil => rfl
  | cons c cs ih =>
    simp only [List.mem_cons, not_or] at h
    simp [escape, word_backslash (continuation?_escape (Ne.symm h.1)), ih h.2]

end Lexeme

namespace Grammar

open Parse Lexer
open Phrase (Written tokenAt)

theorem closesAnsiC_cons {c : Char} (hc : c ≠ '\\') (cs : List Char) :
    closesAnsiC (c :: cs) = if c == '\'' then cs.isEmpty else closesAnsiC cs := by
  rw [closesAnsiC.eq_def]
  split
  . contradiction
  . next heq => exact absurd (List.cons.inj heq).1 hc
  . next heq =>
    cases heq
    rfl

theorem closesAnsiC_escape (cs : List Char) :
    closesAnsiC (escape isAnsiSpecial cs ++ ['\'']) := by
  induction cs with
  | nil => rfl
  | cons c cs ih =>
    unfold escape
    split
    . simpa [closesAnsiC] using ih
    . next hc =>
      simp only [isAnsiSpecial, Bool.or_eq_true, beq_iff_eq, not_or] at hc
      simpa [closesAnsiC_cons hc.1, hc.2] using ih

variable {env : Env} {src : Source} {c : Setting} {place : Nat} {inner : Nested} {s : String}

/-! ### Tokens -/

/-- What a quote or a dollar sign opens is read before anything else is tried. -/
theorem comes_quoteOrDollar {kind : NodeKind} {text : String} {tokenKind : TokenKind}
    {ps : List Phrase} {rest : List Char}
    (h : Written src place (.leaf kind text false :: ps) rest)
    (hsolid : text.toList.head?.any isSolid)
    (hopens : Lexeme.quoteOrDollar? (text.toList ++
      Phrase.following ((Phrase.leaf kind text false).stop place) ps rest) =
        some (tokenKind, text.toList)) :
    Comes src place .command {} (tokenAt place tokenKind text false) := by
  apply comes_of_solid h hsolid rfl
  rw [tokenOf_of_isSolid _ _ _ hsolid]
  change Lexer.command _ _ = _
  rw [Lexer.command, closer?_eq_none, hopens]
  rfl

theorem comes_single (hs : Quotation.single.Admits s)
    (h : Written src place [Quotation.single.phrase s] []) :
    Comes src place .command {}
      (tokenAt place .rawString (Quotation.single.quote s) false) := by
  have hchars := Quotation.toList_single s
  refine comes_quoteOrDollar h (by rw [hchars]; rfl) ?_
  rw [hchars]
  simp [Lexeme.quoteOrDollar?, Lexeme.rawBody_append hs]

theorem comes_ansi (h : Written src place [Quotation.ansi.phrase s] []) :
    Comes src place .command {}
      (tokenAt place .ansiCString (Quotation.ansi.quote s) false) := by
  have hchars := Quotation.toList_ansi s
  refine comes_quoteOrDollar h (by rw [hchars]; rfl) ?_
  rw [hchars]
  simp [Lexeme.quoteOrDollar?, Lexeme.ansiCBody_escape]

theorem skipFrom_backslash {rules : Trivia.Rules} {fresh : Bool} {offset : Nat} {cs : List Char}
    (h : Trivia.continuation? ('\\' :: cs) = none) :
    Trivia.skipFrom rules fresh offset ('\\' :: cs) = (offset, []) := by
  rw [Trivia.skipFrom]
  . simp [isBlank]
  . rintro cs - rfl
    cases h
  . rintro cs - rfl
    cases h

/-- A backslash that continues no line begins a word. -/
theorem command_backslash {cs : List Char} (h : Trivia.continuation? ('\\' :: cs) = none) :
    Lexer.command {} ('\\' :: cs) = (.word, Lexeme.word {} ('\\' :: cs)) := by
  have hword : wordOrError {} ('\\' :: cs) = (.word, Lexeme.word {} ('\\' :: cs)) := by
    cases cs with
    | nil => rfl
    | cons c cs =>
      unfold wordOrError
      rw [Lexeme.word_backslash h]
  rw [Lexer.command, hword, closer?_eq_none, quoteOrDollar?_eq_none (by decide)]
  simp [commandSeparator?, fileDescriptor?_eq_none, commandOperator?_eq_none, isMetacharacter,
    assignmentTarget?]

theorem comes_bare (hs : Quotation.bare.Admits s)
    (h : Written src place [Quotation.bare.phrase s] []) :
    Comes src place .command {} (tokenAt place .word (Quotation.bare.quote s) false) := by
  obtain ⟨d, ds, hchars⟩ := List.exists_cons_of_ne_nil hs.1
  have hline : '\n' ∉ d :: ds := hchars ▸ hs.2
  have hd : Trivia.continuation? ('\\' :: d :: escape (fun _ => true) ds) = none :=
    Lexeme.continuation?_escape fun hd => hline (hd ▸ List.mem_cons_self)
  have htext : (Quotation.bare.quote s).toList = '\\' :: d :: escape (fun _ => true) ds := by
    rw [Quotation.toList_bare, hchars]
    rfl
  apply comes_of_written h rfl
  . intro fresh offset
    rw [htext]
    simpa [Phrase.following] using skipFrom_backslash hd
  . have htoken := command_backslash hd
    rw [← htext, Quotation.toList_bare, Lexeme.word_escape {} hs.2] at htoken
    rw [Phrase.following, Phrase.spellingAll_nil, List.append_nil, List.append_nil, htext]
    rw [Quotation.toList_bare] at htext
    rwa [htext] at htoken

/-! ### Fragments -/

theorem runs_single (s : String) :
    Runs env c place (rawString (tokenAt place .rawString (Quotation.single.quote s) false))
      ((Quotation.single.phrase s).nodeAt place) ((Quotation.single.phrase s).stop place) := by
  have hclosed : isClosedRawString (Quotation.single.quote s) = true := by
    simp [isClosedRawString, ← String.length_toList, Quotation.toList_single, List.getLast?_cons]
  unfold rawString
  rw [show (tokenAt place .rawString (Quotation.single.quote s) false).text =
    Quotation.single.quote s from rfl, hclosed]
  exact leads_tokenLeaf .rawString rfl (by simp)

theorem runs_ansi (s : String) :
    Runs env c place (ansiCString (tokenAt place .ansiCString (Quotation.ansi.quote s) false))
      ((Quotation.ansi.phrase s).nodeAt place) ((Quotation.ansi.phrase s).stop place) := by
  have hclosed : closesAnsiC ((Quotation.ansi.quote s).toList.drop 2) = true := by
    simpa [Quotation.toList_ansi] using closesAnsiC_escape s.toList
  unfold ansiCString
  rw [show (tokenAt place .ansiCString (Quotation.ansi.quote s) false).text =
    Quotation.ansi.quote s from rfl, hclosed]
  exact leads_tokenLeaf .ansiCString rfl (by simp)

theorem runs_bare (hs : Quotation.bare.Admits s) :
    Runs env c place (wordLeaf (tokenAt place .word (Quotation.bare.quote s) false))
      ((Quotation.bare.phrase s).nodeAt place) ((Quotation.bare.phrase s).stop place) := by
  obtain ⟨d, ds, hchars⟩ := List.exists_cons_of_ne_nil hs.1
  have hnumber : isNumber (Quotation.bare.quote s) = false := by
    unfold isNumber
    rw [Quotation.toList_bare, hchars]
    rfl
  unfold wordLeaf
  rw [show (tokenAt place .word (Quotation.bare.quote s) false).text = Quotation.bare.quote s from
    rfl, hnumber]
  exact leads_leafAt

/-- The run after `width` more bytes of content and the quote that closes the string. -/
def TextRun.quoted (run : TextRun) (width : Nat) : TextRun :=
  (run.skip width).close (run.partsUpTo (run.place + width) ++
    [.leaf (.token "\"") (.ofWidth (run.place + width) 1)])

theorem TextRun.quoted_skip (run : TextRun) (width more : Nat) :
    (run.skip width).quoted more = run.quoted (width + more) := by
  simp [TextRun.quoted, TextRun.skip, TextRun.close, TextRun.partsUpTo, Nat.add_assoc]

section

variable {origin p : Nat} {d : Char} {cs rest : List Char} {run : TextRun}

theorem runs_left (run : TextRun) :
    Runs env c p run.left (env.source.size - run.place) p :=
  .of_eq fun _ => rfl

theorem runs_stringStep_quote (h : env.source.tail? run.place = some ('"' :: cs)) :
    Runs env c p (stringStep inner origin run)
      (.done (run.close (run.partsUpTo run.place ++
        [.leaf (.token "\"") (.ofWidth run.place 1)]))) (run.place + 1) := by
  unfold stringStep
  refine (leads_charactersAt h).bind ?_
  dsimp only
  rw [if_pos (by rfl)]
  have hleaf : Runs env c p (leafAt (.token "\"") (.ofWidth run.place 1))
      (.leaf (.token "\"") (.ofWidth run.place 1)) (run.place + 1) :=
    (leads_setPosition _).bind (Leads.pure _)
  exact hleaf.map _

theorem runs_stringStep_hidden (h : env.source.tail? run.place = some ('\\' :: d :: cs)) :
    Runs env c p (stringStep inner origin run) (.yield (run.skip (1 + d.utf8Size))) p := by
  unfold stringStep
  refine (leads_charactersAt h).bind ?_
  exact Leads.pure _

theorem runs_stringStep_plain (hd : isDoubleSpecial d = false)
    (h : env.source.tail? run.place = some (d :: cs)) :
    Runs env c p (stringStep inner origin run) (.yield (run.skip d.utf8Size)) p := by
  simp only [isDoubleSpecial, Bool.or_eq_false_iff, beq_eq_false_iff_ne] at hd
  unfold stringStep
  refine (leads_charactersAt h).bind ?_
  dsimp only
  rw [if_neg (by simp [hd]), if_neg (by simp [hd]), if_neg (by simp [opensFragmentInText, hd])]
  exact Leads.pure _

/-- A character of a string is skipped, with the backslash that hides it if there is one. -/
theorem runs_stringStep_escape
    (h : env.source.tail? run.place = some (escape isDoubleSpecial (d :: cs) ++ rest)) :
    ∃ width, 0 < width ∧
      byteLength (escape isDoubleSpecial (d :: cs)) =
        width + byteLength (escape isDoubleSpecial cs) ∧
      Runs env c p (stringStep inner origin run) (.yield (run.skip width)) p ∧
      env.source.tail? (run.place + width) = some (escape isDoubleSpecial cs ++ rest) := by
  have hpos := d.utf8Size_pos
  cases hd : isDoubleSpecial d with
  | true =>
    rw [escape_of_isSpecial hd] at h ⊢
    have hchars : env.source.tail? run.place =
        some (['\\', d] ++ (escape isDoubleSpecial cs ++ rest)) := h
    refine ⟨1 + d.utf8Size, by omega, ?_, runs_stringStep_hidden h, tail?_append hchars⟩
    rw [byteLength_cons, byteLength_cons, Nat.add_assoc]
    rfl
  | false =>
    rw [escape_of_not_isSpecial hd] at h ⊢
    have hchars : env.source.tail? run.place =
        some ([d] ++ (escape isDoubleSpecial cs ++ rest)) := h
    exact ⟨d.utf8Size, hpos, byteLength_cons _ _, runs_stringStep_plain hd h, tail?_append hchars⟩

/-- The content of a string is skipped up to the quote that closes it. -/
theorem runs_stringSteps {fuel : Nat}
    (h : env.source.tail? run.place = some (escape isDoubleSpecial cs ++ '"' :: rest))
    (hfuel : byteLength (escape isDoubleSpecial cs) < fuel) :
    Runs env c p (repeatUpTo (stringStep inner origin) TextRun.left fuel run)
      (run.quoted (byteLength (escape isDoubleSpecial cs)))
      (run.place + byteLength (escape isDoubleSpecial cs) + 1) := by
  induction cs generalizing fuel run with
  | nil =>
    obtain ⟨fuel, rfl⟩ : ∃ n, fuel = n + 1 := ⟨fuel - 1, by omega⟩
    exact (runs_left run).repeatUpTo_done (runs_stringStep_quote h)
  | cons d cs ih =>
    obtain ⟨fuel, rfl⟩ : ∃ n, fuel = n + 1 := ⟨fuel - 1, by omega⟩
    obtain ⟨width, hpos, hwidth, hstep, hbehind⟩ := runs_stringStep_escape h
    have hle := (Source.tail?_eq_some_iff.1 hbehind).le
    have hrest := @ih (run.skip width) fuel hbehind (by omega)
    rw [TextRun.quoted_skip] at hrest
    have hless : env.source.size - (run.skip width).place < env.source.size - run.place := by
      have hle := (Source.tail?_eq_some_iff.1 hbehind).le
      change env.source.size - (run.place + width) < _
      omega
    rw [hwidth, ← Nat.add_assoc]
    exact (runs_left run).repeatUpTo_yield hstep (runs_left _) hless hrest

theorem runs_stringContent
    (h : env.source.tail? place = some (escape isDoubleSpecial cs ++ '"' :: rest)) :
    Runs env c p (repeatStep (stringStep inner origin) (.startAt place) TextRun.left)
      ((TextRun.startAt place).quoted (byteLength (escape isDoubleSpecial cs)))
      (place + byteLength (escape isDoubleSpecial cs) + 1) := by
  have hsize := (Source.tail?_eq_some_iff.1 h).stop_eq
  rw [byteLength_append] at hsize
  unfold repeatStep
  exact leads_source.bind (runs_stringSteps h (by omega))

end

theorem spellingAll_inside (place : Nat) (s : String) :
    Phrase.spellingAll place (Quotation.inside s) = escape isDoubleSpecial s.toList ++ ['"'] := by
  unfold Quotation.inside
  split
  . next hs =>
    obtain rfl : s = "" := String.isEmpty_iff.1 hs
    rfl
  . simp [Phrase.spellingAll_cons, Phrase.spelling, Phrase.gap, Quotation.body]

theorem contentBetween_self (place : Nat) : contentBetween place place = [] :=
  dif_neg (Nat.lt_irrefl place)

theorem contentBetween_ofWidth {width : Nat} (place : Nat) (h : 0 < width) :
    contentBetween place (place + width) = [.leaf .content (.ofWidth place width)] :=
  dif_pos (Nat.lt_add_of_pos_right h)

theorem nodesAt_inside (place : Nat) (s : String) :
    Phrase.nodesAt place (Quotation.inside s) =
      ((TextRun.startAt place).quoted (byteLength (escape isDoubleSpecial s.toList))).parts := by
  have hparts (width : Nat) : ((TextRun.startAt place).quoted width).parts =
      contentBetween place (place + width) ++
        [.leaf (.token "\"") (.ofWidth (place + width) 1)] := rfl
  have hclose (place : Nat) : (Phrase.leaf (.token "\"") "\"" true).nodeAt place =
      .leaf (.token "\"") (.ofWidth place 1) := Phrase.nodeAt_leaf _ _ _
  rw [hparts]
  unfold Quotation.inside
  split
  . next hs =>
    obtain rfl : s = "" := String.isEmpty_iff.1 hs
    simp [escape, hclose, contentBetween_self]
  . next hs =>
    have hne : s.toList ≠ [] := fun hnil =>
      hs (String.isEmpty_iff.2 (String.toList_eq_nil_iff.1 hnil))
    have hpos := byteLength_pos (@escape_ne_nil isDoubleSpecial _ hne)
    rw [contentBetween_ofWidth place hpos]
    simp [hclose, Phrase.nodeAt_leaf, Phrase.stop, Phrase.spelling, Phrase.gap, Quotation.body]

theorem comes_double (h : Written src place [Quotation.double.phrase s] []) :
    Comes src place .command {} (tokenAt place (.operator "\"") "\"" false) :=
  comes_quoteOrDollar h.parts rfl rfl

theorem runs_double (hmode : c.mode = .command)
    (h : Written env.source place [Quotation.double.phrase s] []) :
    Runs env c place (doubleQuoted inner) ((Quotation.double.phrase s).nodeAt place)
      ((Quotation.double.phrase s).stop place) := by
  have hopen := comes_double h
  have hinside : Written env.source ((Phrase.token "\"").stop place)
      (Quotation.inside s ++ []) [] := h.parts.tail
  rw [Written, Phrase.following, List.append_nil, List.append_nil, spellingAll_inside] at hinside
  rw [← hmode] at hopen
  have hstop : (Quotation.double.phrase s).stop place =
      (Phrase.token "\"").stop place + byteLength (escape isDoubleSpecial s.toList) + 1 := by
    rw [Quotation.phrase, Phrase.stop_node, Phrase.stopAll_cons, Phrase.stopAll, spellingAll_inside,
      byteLength_append, Nat.add_assoc]
    rfl
  unfold doubleQuoted
  refine (runs_peek hopen).bind ((leads_tokenLeaf (.token "\"") rfl (by simp)).bind ?_)
  refine leads_position.bind ((runs_stringContent hinside).bind ?_)
  rw [hstop]
  exact leads_node (by simp) (by rw [Phrase.nodesAt_cons, nodesAt_inside]; rfl)

/-! ### Arguments -/

/-- The first token of a quoted text, which is all of it but for a string. -/
def opener (q : Quotation) (s : String) (place : Nat) : Token :=
  match q with
  | .single => tokenAt place .rawString (Quotation.single.quote s) false
  | .double => tokenAt place (.operator "\"") "\"" false
  | .ansi => tokenAt place .ansiCString (Quotation.ansi.quote s) false
  | .bare => tokenAt place .word (Quotation.bare.quote s) false

theorem comes_opener {q : Quotation} (hs : q.Admits s)
    (h : Written src place [q.phrase s] []) :
    Comes src place .command {} (opener q s place) := by
  cases q with
  | single => exact comes_single hs h
  | double => exact comes_double h
  | ansi => exact comes_ansi h
  | bare => exact comes_bare hs h

theorem runs_fragmentOf {q : Quotation} (hs : q.Admits s) (hmode : c.mode = .command)
    (h : Written env.source place [q.phrase s] []) :
    Runs env c place (fragmentOf inner (opener q s place)) ((q.phrase s).nodeAt place)
      ((q.phrase s).stop place) := by
  cases q with
  | single => exact runs_single s
  | double => exact runs_double hmode h
  | ansi => exact runs_ansi s
  | bare => exact runs_bare hs

theorem isLiteralStart_opener (q : Quotation) (s : String) (place : Nat) :
    (opener q s place).isLiteralStart := by
  cases q <;> rfl

theorem adjacent_opener (q : Quotation) (s : String) (hplace : place ≠ 0) :
    (opener q s place).adjacent = false := by
  cases q <;> exact tokenAt_adjacent hplace

theorem isSpaced_phrase {q : Quotation} (hs : q.Admits s) : (q.phrase s).IsSpaced := by
  cases q with
  | single => exact .leaf (by simp [Quotation.toList_single])
  | double => exact .node (.leaf (by decide)) _
  | ansi => exact .leaf (by simp [Quotation.toList_ansi])
  | bare => exact .leaf (by simpa [Quotation.toList_bare] using escape_ne_nil hs.1)

theorem parse_of_quoted {text : String} {options : Options} {name : CommandName} {q : Quotation}
    (hs : q.Admits s) (hstatements : options.maxStatements ≠ some 0) (hdepth : 1 < options.maxDepth)
    (h : Written (.ofString text) 0 [.namedCommand name [q.phrase s]] []) :
    parse (.ofString text) options =
      .ok (Phrase.script text [.namedCommand name [q.phrase s]]) := by
  have hargument : Written (.ofString text) (name.phrase.stop 0) [q.phrase s] [] :=
    h.parts.parts.tail
  exact parse_of_argument hstatements hdepth h (isSpaced_phrase hs) (comes_opener hs hargument)
    (adjacent_opener q s (name.stop_ne_zero 0)) (isLiteralStart_opener q s _)
    (runs_fragmentOf hs rfl hargument)

end Grammar

namespace Quotation

theorem spelling_phrase {place : Nat} (q : Quotation) (s : String) (hplace : place ≠ 0) :
    (q.phrase s).spelling place = ' ' :: (q.quote s).toList := by
  have hgap : Phrase.gap false place = [' '] := by simp [Phrase.gap, hplace]
  cases q with
  | double =>
    rw [phrase, Phrase.spelling_node, Phrase.spellingAll_cons, Grammar.spellingAll_inside]
    simp [Phrase.token, Phrase.spelling, hgap, quote, body]
  | single | ansi | bare => simp [phrase, Phrase.spelling, hgap]

def echo (q : Quotation) (s : String) : Phrase := .namedCommand .echo [q.phrase s]

theorem text_echo (q : Quotation) (s : String) :
    Phrase.text [q.echo s] [] = "echo " ++ q.quote s := by
  have hname : CommandName.echo.phrase.spelling 0 = "echo".toList := rfl
  have hstop := CommandName.echo.stop_ne_zero 0
  rw [String.ext_iff]
  simp only [Phrase.text, Phrase.following, echo, Phrase.namedCommand, Phrase.spellingAll_cons,
    Phrase.spelling_node, Phrase.stop_node, Phrase.stopAll_cons, Phrase.stopAll_nil, hname,
    spelling_phrase q s hstop]
  simp

end Quotation

/-- A quoted text is the argument of a command, and nothing but its quotes matters of it. -/
theorem parse_quoted (q : Quotation) (s : String) (hs : q.Admits s) (options : Options)
    (hstatements : options.maxStatements ≠ some 0) (hdepth : 1 < options.maxDepth) :
    parse (.ofString ("echo " ++ q.quote s)) options =
        .ok (Phrase.script ("echo " ++ q.quote s) [q.echo s]) ∧
      ((q.phrase s).nodeAt 4).span = .ofWidth 5 (q.quote s).utf8ByteSize := by
  have h : Phrase.Written (.ofString ("echo " ++ q.quote s)) 0 [q.echo s] [] := by
    rw [← Quotation.text_echo]
    exact Phrase.written_text [q.echo s] []
  refine ⟨Grammar.parse_of_quoted hs hstatements hdepth h, ?_⟩
  rw [Phrase.nodeAt_span]
  apply Span.eq_of_stop_eq
  . rw [Phrase.span_start, Phrase.start, (Grammar.isSpaced_phrase hs).spaced]
    rfl
  . rw [Phrase.span_stop, Phrase.stop, Quotation.spelling_phrase q s (by decide), byteLength_cons,
      ← utf8ByteSize_eq_byteLength, ← Nat.add_assoc]
    rfl

theorem parse_quoted_bare :
    parse (.ofString "echo \\#\\ \\é\\$\\(\\\\") =
        .ok (Phrase.script "echo \\#\\ \\é\\$\\(\\\\"
          [.node .command
            [.node .commandName [.word "echo"], .word "\\#\\ \\é\\$\\(\\\\"]]) ∧
      ((Phrase.word "\\#\\ \\é\\$\\(\\\\").nodeAt 4).span = .ofWidth 5 13 :=
  parse_quoted .bare "# é$(\\" ⟨by decide, by decide⟩ {} (by decide) (by decide)

end ShellTree
