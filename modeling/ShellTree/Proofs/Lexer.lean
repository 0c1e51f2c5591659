import ShellTree.Proofs.Lexeme
import ShellTree.Proofs.Trivia

/-!
This module contains the correctness of the lexer's answers: on a boundary of the text a token is
found, it stands where it says, and trivia and the reported comments are all that precedes it.
-/

namespace ShellTree

theorem forall_mem_orElse {α : Type} {P : α → Prop} {a b : Option α} (ha : ∀ m ∈ a, P m)
    (hb : ∀ m ∈ b, P m) : ∀ m ∈ (a <|> b), P m := by
  cases a with
  | none => simpa using hb
  | some a => simpa using ha

theorem getD_of_forall_mem {α : Type} {P : α → Prop} {a : Option α} {b : α}
    (ha : ∀ m ∈ a, P m) (hb : P b) : P (a.getD b) := by
  cases a with
  | none => exact hb
  | some a => exact ha a rfl

theorem isPrefix_of_isPrefixOf {op : String} {cs : List Char} (h : op.toList.isPrefixOf cs) :
    op.toList <+: cs := List.isPrefixOf_iff_prefix.1 h

namespace Lexer

open Lexeme

theorem takes_take_one {cs : List Char} (h : cs ≠ []) : Takes cs (.error, cs.take 1) :=
  ⟨by apply List.take_prefix, by simpa using h, by simp, by simp, by simp, by simp, List.nil_prefix,
    fun _ _ => trivial⟩

theorem wordOrError_takes (flags : Flags) {cs : List Char} (h : cs ≠ []) :
    Takes cs (wordOrError flags cs) := by
  have hword := Lexeme.word_isPrefix flags cs
  unfold wordOrError
  split
  . exact takes_take_one h
  . next hne =>
    exact ⟨hword, hne, by simp, by simp, by simp, by simp, List.nil_prefix, fun _ _ => trivial⟩

theorem closer?_takes (flags : Flags) (cs : List Char) : ∀ m ∈ closer? flags cs, Takes cs m := by
  intro m hm
  unfold closer? at hm
  split at hm
  . split at hm
    . cases hm
      exact takes_operator "\x7d" ⟨_, rfl⟩ (by decide) (by decide)
    . contradiction
  . split at hm
    . cases hm
      exact takes_operator "]" ⟨_, rfl⟩ (by decide) (by decide)
    . contradiction
  . split at hm
    . cases hm
      exact ⟨⟨_, rfl⟩, by simp, by simp, by simp, by simp, by simp, List.nil_prefix,
        fun _ _ => trivial⟩
    . contradiction
  . contradiction

theorem find?_operator_takes {operators : List String} {admits : String → Bool} {cs : List Char}
    (hne : ∀ op ∈ operators, op.toList ≠ [] ∧ op ≠ "$")
    (hadmits : ∀ op, admits op → op.toList.isPrefixOf cs) :
    ∀ m ∈ (operators.find? admits).map fun op => (TokenKind.operator op, op.toList),
      Takes cs m := by
  intro m hm
  simp only [Option.mem_def, Option.map_eq_some_iff] at hm
  obtain ⟨op, hfind, rfl⟩ := hm
  obtain ⟨hop, hdollar⟩ := hne op (List.mem_of_find?_eq_some hfind)
  exact takes_operator op (isPrefix_of_isPrefixOf (hadmits op (List.find?_some hfind))) hop hdollar

theorem commandOperator?_takes (flags : Flags) (cs : List Char) :
    ∀ m ∈ commandOperator? flags cs, Takes cs m := by
  apply find?_operator_takes (by decide)
  intro op h
  simp only [admitsCommandOperator, Bool.and_eq_true] at h
  exact h.1

theorem commandSeparator?_takes (flags : Flags) (cs : List Char) :
    ∀ m ∈ commandSeparator? flags cs, Takes cs m := by
  intro m hm
  unfold commandSeparator? at hm
  split at hm
  . contradiction
  . split at hm
    . next hfd =>
      cases hm
      obtain ⟨hspelled, hne⟩ := Lexeme.fileDescriptor?_isPrefix hfd
      exact ⟨hspelled, hne, by simp, by simp, by simp, by simp, List.nil_prefix,
        Lexeme.fileDescriptor?_admits hfd⟩
    . exact commandOperator?_takes flags cs m hm

theorem assignmentTarget?_takes (flags : Flags) (cs : List Char) :
    ∀ m ∈ assignmentTarget? flags cs, Takes cs m := by
  intro m hm
  unfold assignmentTarget? at hm
  split at hm
  . simp only [Option.mem_def, Option.map_eq_some_iff] at hm
    obtain ⟨name, hname, rfl⟩ := hm
    obtain ⟨hspelled, hne⟩ := Lexeme.variableName?_isPrefix hname
    exact ⟨hspelled, hne, by simp, by simp, by simp, by simp, List.nil_prefix,
      Lexeme.variableName?_admits hname⟩
  . contradiction

theorem command_takes (flags : Flags) {cs : List Char} (h : cs ≠ []) :
    Takes cs (command flags cs) := by
  unfold command
  apply getD_of_forall_mem
  . apply forall_mem_orElse (closer?_takes flags cs)
    apply forall_mem_orElse (quoteOrDollar?_takes cs)
    apply forall_mem_orElse (commandSeparator?_takes flags cs)
    apply assignmentTarget?_takes
  . exact wordOrError_takes flags h

theorem testCloser?_takes {closer : String} (hcloser : closer.toList ≠ [] ∧ closer ≠ "$")
    (cs : List Char) : ∀ m ∈ testCloser? closer cs, Takes cs m := by
  intro m hm
  unfold testCloser? at hm
  split at hm
  . next h =>
    cases hm
    simp only [Bool.and_eq_true] at h
    exact takes_operator closer (isPrefix_of_isPrefixOf h.1) hcloser.1 hcloser.2
  . contradiction

theorem testOperator?_takes (cs : List Char) : ∀ m ∈ testOperator? cs, Takes cs m := by
  apply find?_operator_takes (by decide)
  intro op h
  simp only [admitsTestOperator, Bool.and_eq_true] at h
  exact h.1

theorem letterOperator?_takes (cs : List Char) : ∀ m ∈ letterOperator? cs, Takes cs m := by
  intro m hm
  unfold letterOperator? at hm
  split at hm
  . next cs =>
    dsimp only at hm
    split at hm
    . cases hm
      refine ⟨?_, by simp, by simp, by simp, by simp, by simp, List.nil_prefix,
        fun _ _ => trivial⟩
      apply (List.prefix_cons_inj _).2
      apply List.takeWhile_prefix
    . contradiction
  . contradiction

theorem test_takes {closer : String} (hcloser : closer.toList ≠ [] ∧ closer ≠ "$") (flags : Flags)
    {cs : List Char} (h : cs ≠ []) : Takes cs (test closer flags cs) := by
  unfold test
  apply getD_of_forall_mem
  . apply forall_mem_orElse (testCloser?_takes hcloser cs)
    apply forall_mem_orElse (closer?_takes _ cs)
    apply forall_mem_orElse (quoteOrDollar?_takes cs)
    apply forall_mem_orElse (testOperator?_takes cs)
    apply letterOperator?_takes
  . exact wordOrError_takes flags h

theorem operand?_takes (cs : List Char) : ∀ m ∈ operand? cs, Takes cs m := by
  intro m hm
  unfold operand? at hm
  split at hm
  . contradiction
  . next c cs =>
    have htakes (p : Char → Bool) : Takes (c :: cs) (.word, c :: cs.takeWhile p) := by
      refine ⟨?_, by simp, by simp, by simp, by simp, by simp, List.nil_prefix,
        fun _ _ => trivial⟩
      apply (List.prefix_cons_inj _).2
      apply List.takeWhile_prefix
    split at hm
    . cases hm
      apply htakes
    . split at hm
      . cases hm
        apply htakes
      . contradiction

theorem arithmetic_takes {cs : List Char} (h : cs ≠ []) : Takes cs (arithmetic cs) := by
  unfold arithmetic
  apply getD_of_forall_mem
  . apply forall_mem_orElse (operand?_takes cs)
    apply forall_mem_orElse (quoteOrDollar?_takes cs)
    apply find?_operator_takes (by decide)
    intro op h
    exact h
  . exact takes_take_one h

structure TokenOf (cs : List Char) (m : Match) : Prop where
  isPrefix : m.2 <+: cs
  ne_nil : cs ≠ [] → m.2 ≠ []
  eof_iff : m.1 = .eof ↔ cs = []
  newline_iff : m.1 = .newline ↔ cs.head? = some '\n'
  newline_eq : m.1 = .newline → m.2 = ['\n']
  operator_eq : ∀ op, m.1 = .operator op → m.2 = op.toList
  backtick_eq : m.1 = .backtickClose → m.2 = ['\x60']
  quote_isPrefix : m.1.openingQuote <+: m.2
  admits : ∀ rest, cs = m.2 ++ rest → m.1.Admits m.2 rest

theorem tokenOf_of_takes {c : Char} {cs : List Char} {m : Match} (h : Takes (c :: cs) m)
    (hc : c ≠ '\n') : TokenOf (c :: cs) m :=
  ⟨h.isPrefix, fun _ => h.ne_nil, by simp [h.ne_eof], by simp [h.ne_newline, hc],
    by simp [h.ne_newline], h.operator_eq, h.backtick_eq, h.quote_isPrefix, h.admits⟩

theorem tokenOf_tokenOf (mode : Mode) (flags : Flags) (cs : List Char) :
    TokenOf cs (tokenOf mode flags cs) := by
  unfold tokenOf
  split
  . exact ⟨List.prefix_refl [], by simp, by simp, by simp, by simp, by simp, by simp,
      List.nil_prefix, fun _ _ => trivial⟩
  . exact ⟨⟨_, rfl⟩, by simp, by simp, by simp, by simp, by simp, by simp, List.nil_prefix,
      fun _ _ => trivial⟩
  . next hnil hnewline =>
    cases cs with
    | nil => contradiction
    | cons c cs =>
      have hc : c ≠ '\n' := by
        rintro rfl
        exact hnewline cs rfl
      have htest {closer : String} (hcloser : closer.toList ≠ [] ∧ closer ≠ "$") :
          TokenOf (c :: cs) (test closer flags (c :: cs)) :=
        tokenOf_of_takes (test_takes hcloser flags (List.cons_ne_nil c cs)) hc
      cases mode with
      | command => exact tokenOf_of_takes (command_takes flags (List.cons_ne_nil c cs)) hc
      | heredocPending => exact tokenOf_of_takes (command_takes flags (List.cons_ne_nil c cs)) hc
      | test => exact htest (by decide)
      | doubleTest => exact htest (by decide)
      | arithmetic => exact tokenOf_of_takes (arithmetic_takes (List.cons_ne_nil c cs)) hc

theorem closer?_of_opener (flags : Flags) {c : Char} (cs : List Char)
    (hc : c = '"' ∨ c = '\x60' ∨ c = '$') :
    closer? flags (c :: cs) = none ∨ closer? flags (c :: cs) = some (.backtickClose, ['\x60']) := by
  obtain rfl | rfl | rfl := hc
  . exact .inl rfl
  . simp only [closer?]
    split
    . exact .inr rfl
    . exact .inl rfl
  . exact .inl rfl

/-- What a quote, a backtick or a dollar sign opens is the same in all modes, unless it closes. -/
theorem tokenOf_of_opener (mode : Mode) (flags : Flags) {c : Char} {cs : List Char} {m : Match}
    (hc : c = '"' ∨ c = '\x60' ∨ c = '$') (h : Lexeme.quoteOrDollar? (c :: cs) = some m) :
    tokenOf mode flags (c :: cs) = m ∨ (tokenOf mode flags (c :: cs)).1 = .backtickClose := by
  have hcommand : ∀ flags, command flags (c :: cs) = m ∨
      (command flags (c :: cs)).1 = .backtickClose := by
    intro flags
    unfold command
    obtain hcloser | hcloser := closer?_of_opener flags cs hc
    . exact .inl (by simp [hcloser, h])
    . exact .inr (by simp [hcloser])
  have htest : ∀ closer, testCloser? closer (c :: cs) = none → test closer flags (c :: cs) = m ∨
      (test closer flags (c :: cs)).1 = .backtickClose := by
    intro closer hclose
    unfold test
    obtain hcloser | hcloser := closer?_of_opener { stopAtBacktick := flags.stopAtBacktick } cs hc
    . exact .inl (by simp [hclose, hcloser, h])
    . exact .inr (by simp [hclose, hcloser])
  have hoperand : operand? (c :: cs) = none := by
    obtain rfl | rfl | rfl := hc <;> rfl
  have hnewline : c ≠ '\n' := by
    obtain rfl | rfl | rfl := hc <;> decide
  have hbracket : c ≠ ']' := by
    obtain rfl | rfl | rfl := hc <;> decide
  cases mode with
  | command => simpa [tokenOf, hnewline] using hcommand flags
  | heredocPending => simpa [tokenOf, hnewline] using hcommand flags
  | test => simpa [tokenOf, hnewline] using htest "]" (by simp [testCloser?, hbracket.symm])
  | doubleTest => simpa [tokenOf, hnewline] using htest "]]" (by simp [testCloser?, hbracket.symm])
  | arithmetic => exact .inl (by simp [tokenOf, hnewline, arithmetic, hoperand, h])

theorem tokenOf_quote (mode : Mode) (flags : Flags) (cs : List Char) :
    (tokenOf mode flags ('"' :: cs)).1 = .operator "\"" := by
  have hopens : Lexeme.quoteOrDollar? ('"' :: cs) = some (.operator "\"", ['"']) := rfl
  obtain hquote | hbacktick := tokenOf_of_opener mode flags (.inl rfl) hopens
  . rw [hquote]
  . have htoken := tokenOf_tokenOf mode flags ('"' :: cs)
    have htaken := htoken.isPrefix
    rw [htoken.backtick_eq hbacktick] at htaken
    simp at htaken

/-- Where backticks close none opens, unless the mode is the one that does not ask. -/
theorem tokenOf_ne_backtick {mode : Mode} (hmode : mode ≠ .arithmetic) {flags : Flags}
    (hflags : flags.stopAtBacktick = true) (cs : List Char) :
    (tokenOf mode flags cs).1 ≠ .operator "`" := by
  intro hkind
  have hof := tokenOf_tokenOf mode flags cs
  obtain ⟨rest, rfl⟩ := hof.operator_eq _ hkind ▸ hof.isPrefix
  have hcloser : closer? flags ('\x60' :: rest) = some (.backtickClose, ['\x60']) := by
    simp [closer?, hflags]
  have htest : ∀ closer ∈ ["]", "]]"], (test closer flags ('\x60' :: rest)).1 = .backtickClose := by
    simp [test, testCloser?, closer?, hflags]
  cases mode with
  | command | heredocPending =>
    have hcommand : (command flags ('\x60' :: rest)).1 = .backtickClose := by
      rw [command, hcloser]
      rfl
    exact absurd (hcommand.symm.trans hkind) (by simp)
  | test => exact absurd ((htest "]" (by simp)).symm.trans hkind) (by simp)
  | doubleTest => exact absurd ((htest "]]" (by simp)).symm.trans hkind) (by simp)
  | arithmetic => exact hmode rfl

theorem next_ne_backtick {src : Source} {offset : Nat} {mode : Mode} {flags : Flags} {tok : Token}
    {found : List Span} (h : next src offset mode flags = .ok (tok, found))
    (hmode : mode ≠ .arithmetic) (hflags : flags.stopAtBacktick = true) :
    tok.kind ≠ .operator "`" := by
  unfold next at h
  dsimp only at h
  split at h
  . cases h
    exact tokenOf_ne_backtick hmode hflags _
  . split at h
    . cases h
      simp [Token.endAt]
    . cases h

end Lexer

/-- The token stands at or after the offset. Before it there is nothing but trivia and comments of
the list. -/
structure Token.Follows (src : Source) (comments : List Span) (offset : Nat) (tok : Token) :
    Prop where
  skips : Skips src comments offset tok.span.start
  spells : src.Spells tok.span.start tok.span.stop tok.text.toList
  ne_nil : tok.kind ≠ .eof → tok.text.toList ≠ []
  newline_eq : tok.kind = .newline → tok.text = "\n"
  operator_eq : ∀ op, tok.kind = .operator op → tok.text = op
  backtick_eq : tok.kind = .backtickClose → tok.text = "`"
  quote_isPrefix : tok.kind.openingQuote <+: tok.text.toList
  admits : ∀ rest, src.Spells tok.span.stop src.size rest →
    tok.kind.Admits tok.text.toList rest

namespace Token.Follows

variable {src : Source} {comments : List Span} {offset : Nat} {tok : Token}

theorem offset_le (h : tok.Follows src comments offset) : offset ≤ tok.span.start := h.skips.le

theorem stop_le_size (h : tok.Follows src comments offset) : tok.span.stop ≤ src.size :=
  h.spells.stop_le_size

theorem start_lt_stop (h : tok.Follows src comments offset) (hkind : tok.kind ≠ .eof) :
    tok.span.start < tok.span.stop := h.spells.lt (h.ne_nil hkind)

theorem mono {more : List Span} (h : tok.Follows src comments offset)
    (hmore : ∀ c ∈ comments, c ∈ more) : tok.Follows src more offset :=
  { h with skips := h.skips.mono hmore }

end Token.Follows

namespace Lexer

open Source

structure Answers (src : Source) (offset : Nat) (mode : Mode) (flags : Flags) (tok : Token)
    (found : List Span) : Prop where
  follows : tok.Follows src found offset
  comments : ∀ c ∈ found, src.IsComment c
  start_eq : tok.span.start = (skipTrivia src offset mode flags).1
  eof_iff : tok.kind = .eof ↔ tok.span.start = src.size
  newline_iff : tok.kind = .newline ↔ src.char? tok.span.start = some '\n'

theorem next_answers {src : Source} {offset : Nat} (h : src.Boundary offset) (mode : Mode)
    (flags : Flags) :
    ∃ tok found, next src offset mode flags = .ok (tok, found) ∧
      Answers src offset mode flags tok found := by
  have hfound := Trivia.skip_found h (triviaRules mode flags)
  generalize hskip : Trivia.skip src offset (triviaRules mode flags) = skipped at hfound
  obtain ⟨start, comments⟩ := skipped
  obtain ⟨hskips, hcomments⟩ := hfound
  obtain ⟨cs, htail, hspells⟩ := hskips.right.exists_tail?
  simp only at htail hspells hcomments
  have hof := tokenOf_tokenOf mode flags cs
  refine ⟨⟨(tokenOf mode flags cs).1, .ofWidth start (byteLength (tokenOf mode flags cs).2),
    String.ofList (tokenOf mode flags cs).2, start == offset⟩, comments, ?_, ?_⟩
  . unfold next skipTrivia
    rw [hskip]
    simp only [htail]
  . refine ⟨⟨hskips, ?_, ?_, ?_, ?_, ?_, ?_, ?_⟩, hcomments, ?_, ?_, ?_⟩
    . simpa using hspells.trim _ hof.isPrefix
    . intro hkind
      simpa using hof.ne_nil (mt hof.eof_iff.2 hkind)
    . intro hkind
      simp [hof.newline_eq hkind]
    . intro op hkind
      simp [hof.operator_eq op hkind]
    . intro hkind
      simp [hof.backtick_eq hkind]
    . simpa using hof.quote_isPrefix
    . intro rest hrest
      simpa using hof.admits rest (hspells.eq_append hof.isPrefix hrest)
    . simp [skipTrivia, hskip]
    . apply hof.eof_iff.trans
      have hstop := hspells.stop_eq
      cases cs with
      | nil => simp [hstop]
      | cons c cs =>
        have := byteLength_pos (List.cons_ne_nil c cs)
        simp only [reduceCtorEq, Span.ofWidth_start, false_iff]
        omega
    . apply hof.newline_iff.trans
      simp only [Span.ofWidth_start, char?, htail, Option.bind_some]

theorem Answers.span_eq {src : Source} {offset : Nat} {mode : Mode} {flags : Flags} {tok : Token}
    {found : List Span} (h : Answers src offset mode flags tok found) (hkind : tok.kind = .eof) :
    tok.span = .empty src.size := by
  have hstart := h.eof_iff.1 hkind
  have hstop := h.follows.stop_le_size
  obtain ⟨_, ⟨start, stop, hle⟩, _, _⟩ := tok
  simp only [Span.empty, Span.mk.injEq] at hstart hstop ⊢
  omega

theorem Answers.kind_iff {src : Source} {offset : Nat} {mode : Mode} {flags flags' : Flags}
    {tok tok' : Token} {found found' : List Span} (h : Answers src offset mode flags tok found)
    (h' : Answers src offset mode flags' tok' found')
    (hflags : flags.newlineTrivia = flags'.newlineTrivia) :
    (tok.kind = .eof ↔ tok'.kind = .eof) ∧ (tok.kind = .newline ↔ tok'.kind = .newline) := by
  have hstart : tok.span.start = tok'.span.start := by
    rw [h.start_eq, h'.start_eq]
    simp only [skipTrivia, triviaRules, hflags]
  rw [h.eof_iff, h'.eof_iff, h.newline_iff, h'.newline_iff, hstart]
  exact ⟨Iff.rfl, Iff.rfl⟩

theorem arithmetic_numberSign (cs : List Char) : (arithmetic ('#' :: cs)).1 = .error := by
  have hoperator : arithmeticOperator? ('#' :: cs) = none := by
    have hne : ∀ op ∈ Operator.arithmetic, op.toList.head?.any (· != '#') := by decide
    unfold arithmeticOperator? Operator.matching?
    rw [Option.map_eq_none_iff, List.find?_eq_none]
    intro op hop
    have hhead := hne op hop
    cases hchars : op.toList with
    | nil => simp [hchars] at hhead
    | cons c ds =>
      have hc : c ≠ '#' := by simpa [hchars] using hhead
      simp [hc]
  unfold arithmetic
  rw [hoperator]
  rfl

/-- Where a token begins right away, no request finds trivia, whatever its mode. A line break and
what no token begins with are not the same for all of them. -/
theorem skipFrom_eq_of_stays {mode : Mode} {flags : Flags} {fresh : Bool} {offset : Nat}
    {cs : List Char}
    (hstays : (Trivia.skipFrom (triviaRules mode flags) fresh offset cs).1 = offset)
    (hnewline : (tokenOf mode flags cs).1 ≠ .newline) (herror : (tokenOf mode flags cs).1 ≠ .error)
    (rules : Trivia.Rules) : Trivia.skipFrom rules fresh offset cs = (offset, []) := by
  have hle := Trivia.le_skip (triviaRules mode flags)
  rw [Trivia.skipFrom.eq_def]
  split
  . rfl
  . next cs =>
    rw [Trivia.skipFrom] at hstays
    have := hle.1 true (offset + 2) cs
    omega
  . next cs =>
    rw [Trivia.skipFrom] at hstays
    have := hle.1 true (offset + 3) cs
    omega
  . next c cs hlf hcrlf =>
    have hc : c ≠ '\n' := by
      rintro rfl
      exact hnewline rfl
    rw [Trivia.skipFrom.eq_4 _ _ _ _ _ hlf hcrlf] at hstays
    split at hstays
    . have := hle.1 true (offset + 1) cs
      omega
    . next hskip =>
      simp only [Bool.or_eq_true, not_or] at hskip
      rw [if_neg (by simp [hskip.1, hc]), if_neg]
      -- a number sign that opens no comment begins no token either
      intro hcomment
      simp only [Bool.and_eq_true, beq_iff_eq] at hcomment
      obtain ⟨⟨_, rfl⟩, rfl⟩ := hcomment
      cases mode with
      | arithmetic => exact herror (arithmetic_numberSign cs)
      | _ =>
        have hstays : (Trivia.skipComment _ offset 1 cs).1 = offset := hstays
        have := hle.2 offset 1 cs
        omega

theorem nextBoundary_eq {src : Source} {offset : Nat} (h : src.Boundary offset) :
    src.nextBoundary offset = offset := by
  obtain ⟨cs, htail, _⟩ := h.exists_tail?
  simp [nextBoundary, htail]

theorem nonempty?_follows {src : Source} {kind : TokenKind} {offset start : Nat}
    {comments : List Span} {cs taken : List Char} (hskips : Skips src comments offset start)
    (hspells : src.Spells start src.size cs) (htaken : taken <+: cs)
    (hkind : kind = .regex ∨ kind = .word) :
    ∀ tok ∈ nonempty? src kind offset start taken,
      tok.Follows src comments offset ∧ tok.kind = kind ∧ tok.span.start < tok.span.stop := by
  intro tok htok
  unfold nonempty? at htok
  rw [nextBoundary_eq hspells.left] at htok
  simp only [Nat.sub_self, Nat.zero_add] at htok
  split at htok
  . contradiction
  . next hwidth =>
    cases htok
    have hspelled := hspells.trim _ htaken
    have hne : taken ≠ [] := by
      rintro rfl
      exact hwidth rfl
    refine ⟨?_, rfl, ?_⟩
    . obtain rfl | rfl := hkind
      all_goals exact ⟨hskips, by simpa using hspelled, by simpa using hne, by simp, by simp,
        by simp, List.nil_prefix, fun _ _ => trivial⟩
    . simp only [Span.ofWidth_start, Span.ofWidth_stop]
      omega

theorem charactersFrom_eq {src : Source} {offset : Nat} {cs : List Char}
    (h : src.tail? offset = some cs) : charactersFrom src offset = cs := by
  unfold charactersFrom
  rw [nextBoundary_eq (Boundary.of_tail? h), h]
  rfl

theorem nextRegex_eq {src : Source} {offset start : Nat} {inExpansion : Bool}
    {comments : List Span} {cs : List Char}
    (hskip : (if inExpansion then (offset, []) else skipTrivia src offset .doubleTest {}) =
      (start, comments))
    (htail : src.tail? start = some cs) :
    nextRegex src offset inExpansion =
      if inExpansion = false ∧ cs.head?.any (fun c => c == '\'' || c == '"' || c == '$') then
        .ok (none, comments)
      else
        (Lexeme.regex inExpansion .bare 0 cs).map fun taken =>
          (nonempty? src .regex offset start taken, comments) := by
  unfold nextRegex
  rw [hskip]
  simp only [charactersFrom_eq htail, nextBoundary_eq (Boundary.of_tail? htail), ne_eq,
    not_true_eq_false, if_false]
  cases inExpansion with
  | true => rfl
  | false =>
    simp only [true_and, Bool.not_false, if_true]
    split <;> rfl

/-- A request for a pattern has an answer, except that in a test a character that is not ASCII is a
fault. -/
theorem nextRegex_answers {src : Source} {offset : Nat} (h : src.Boundary offset)
    (inExpansion : Bool) :
    (∃ result found, nextRegex src offset inExpansion = .ok (result, found) ∧
      (∀ c ∈ found, src.IsComment c) ∧
      ∀ tok ∈ result, tok.Follows src found offset ∧ tok.kind = .regex ∧
        tok.span.start < tok.span.stop) ∨
    (nextRegex src offset inExpansion = .error .splitCharacter ∧ inExpansion = false ∧
      ∃ c ∈ src.text.toList, 1 < c.utf8Size) := by
  have hfound : Trivia.Found src offset
      (if inExpansion then (offset, []) else skipTrivia src offset .doubleTest {}) := by
    split
    . exact .none h
    . exact Trivia.skip_found h _
  cases hskip : (if inExpansion then (offset, []) else skipTrivia src offset .doubleTest {}) with
  | mk start comments =>
    rw [hskip] at hfound
    obtain ⟨hskips, hcomments⟩ := hfound
    obtain ⟨cs, htail, hspells⟩ := hskips.right.exists_tail?
    have htaken := Lexeme.regex_takesPattern inExpansion .bare 0 cs
    rw [nextRegex_eq hskip htail]
    split
    . exact .inl ⟨none, comments, rfl, hcomments, by simp⟩
    . cases hregex : Lexeme.regex inExpansion .bare 0 cs with
      | ok taken =>
        rw [hregex] at htaken
        refine .inl ⟨_, _, rfl, hcomments, ?_⟩
        exact nonempty?_follows hskips hspells htaken (.inl rfl)
      | error fault =>
        rw [hregex] at htaken
        obtain ⟨rfl, hin, c, hc, hsize⟩ := htaken
        obtain ⟨before, after, htext, _⟩ := hspells
        exact .inr ⟨rfl, hin, c, by simp [htext, hc], hsize⟩

theorem nextHeredocMarker_answers {src : Source} {offset : Nat} (h : src.Boundary offset) :
    (∀ c ∈ (nextHeredocMarker src offset).2, src.IsComment c) ∧
      ∀ tok ∈ (nextHeredocMarker src offset).1,
        tok.Follows src (nextHeredocMarker src offset).2 offset ∧ tok.kind = .word ∧
          tok.span.start < tok.span.stop := by
  have hfound := Trivia.skip_found h (triviaRules .heredocPending {})
  obtain ⟨cs, htail, hspells⟩ := hfound.1.right.exists_tail?
  refine ⟨hfound.2, ?_⟩
  unfold nextHeredocMarker skipTrivia
  simp only [charactersFrom_eq htail]
  exact nonempty?_follows hfound.1 hspells (Lexeme.heredocMarker_isPrefix .bare cs) (.inr rfl)

end Lexer

namespace CommentLog

variable {src : Source}

/-- The log holds comments of the source, in the order of their starts. -/
structure Sound (src : Source) (log : CommentLog) : Prop where
  comments : ∀ c ∈ log.spans, src.IsComment c
  ordered : log.spans.Pairwise (·.start < ·.start)

theorem mem_insert {log : CommentLog} (hlog : log.Sound src) {comment : Span}
    (hcomment : src.IsComment comment) (c : Span) :
    c ∈ (log.insert comment).spans ↔ c = comment ∨ c ∈ log.spans := by
  obtain ⟨spans⟩ := log
  obtain ⟨hcomments, -⟩ := hlog
  unfold insert
  simp only at hcomments ⊢
  induction spans with
  | nil => simp [insert.place]
  | cons s rest ih =>
    have ih := ih (fun c hc => hcomments c (List.mem_cons_of_mem s hc))
    unfold insert.place
    split
    . simp
    . split
      . next heq =>
        -- a comment that starts at the same place is the same comment
        have hs : comment = s := hcomment.eq_of_start_eq (hcomments s (by simp)) heq
        simp [hs]
      . simp only [List.mem_cons, ih]
        constructor
        . rintro (h | h | h) <;> simp [h]
        . rintro (h | h | h) <;> simp [h]

theorem insert_sound {log : CommentLog} (hlog : log.Sound src) {comment : Span}
    (hcomment : src.IsComment comment) : (log.insert comment).Sound src := by
  refine ⟨?_, ?_⟩
  . intro c hc
    rw [mem_insert hlog hcomment] at hc
    cases hc with
    | inl hc => exact hc ▸ hcomment
    | inr hc => exact hlog.comments c hc
  . obtain ⟨spans⟩ := log
    obtain ⟨hcomments, hordered⟩ := hlog
    simp only at hcomments hordered
    induction spans with
    | nil => simp [insert, insert.place]
    | cons s rest ih =>
      have hrest : CommentLog.Sound src ⟨rest⟩ :=
        ⟨fun c hc => hcomments c (List.mem_cons_of_mem s hc), hordered.of_cons⟩
      have ih := ih hrest.comments hrest.ordered
      simp only [List.pairwise_cons] at hordered
      unfold insert insert.place
      split
      . next hlt =>
        refine List.Pairwise.cons ?_ (List.Pairwise.cons hordered.1 hordered.2)
        intro c hc
        simp only [List.mem_cons] at hc
        cases hc with
        | inl hc => exact hc ▸ hlt
        | inr hc => exact Nat.lt_trans hlt (hordered.1 c hc)
      . split
        . next heq => exact List.Pairwise.cons (fun c hc => heq ▸ hordered.1 c hc) hordered.2
        . refine List.Pairwise.cons ?_ ih
          intro c hc
          have hmem := (mem_insert hrest hcomment c).1 hc
          cases hmem with
          | inl hc =>
            subst hc
            omega
          | inr hc => exact hordered.1 c hc

theorem insertAll_sound {log : CommentLog} (hlog : log.Sound src) {comments : List Span}
    (hcomments : ∀ c ∈ comments, src.IsComment c) : (log.insertAll comments).Sound src := by
  unfold insertAll
  induction comments generalizing log with
  | nil => exact hlog
  | cons comment comments ih =>
    simp only [List.mem_cons, forall_eq_or_imp] at hcomments
    exact ih (insert_sound hlog hcomments.1) hcomments.2

theorem mem_insertAll {log : CommentLog} (hlog : log.Sound src) {comments : List Span}
    (hcomments : ∀ c ∈ comments, src.IsComment c) (c : Span) :
    c ∈ (log.insertAll comments).spans ↔ c ∈ comments ∨ c ∈ log.spans := by
  unfold insertAll
  induction comments generalizing log with
  | nil => simp
  | cons comment comments ih =>
    simp only [List.mem_cons, forall_eq_or_imp] at hcomments
    rw [List.foldl_cons, ih (insert_sound hlog hcomments.1) hcomments.2,
      mem_insert hlog hcomments.1]
    simp only [List.mem_cons, or_assoc]
    constructor
    . rintro (h | h | h) <;> simp [h]
    . rintro (h | h | h) <;> simp [h]

end CommentLog

end ShellTree
