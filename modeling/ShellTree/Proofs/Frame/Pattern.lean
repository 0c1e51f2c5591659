import ShellTree.Proofs.Parse.Ensures

/-!
This module contains what comes next where a pattern is wanted and none begins: no parenthesis, in
whatever mode the next token is read.
-/

namespace ShellTree

open Source

namespace Trivia

/-- The rules under which the most is trivia. -/
def Rules.all : Rules := ⟨true, true⟩

/-- The second search ends where the first one does, or before a line break or a number sign. -/
def EndsWith (src : Source) (all result : Nat × List Span) : Prop :=
  all.1 = result.1 ∨ ∃ c cs, (c = '\n' ∨ c = '#') ∧ src.Spells result.1 src.size (c :: cs)

theorem skipFrom_all {src : Source} (rules : Rules) (fresh : Bool) (offset : Nat)
    (cs : List Char) (h : src.Spells offset src.size cs) :
    EndsWith src (skipFrom .all fresh offset cs) (skipFrom rules fresh offset cs) := by
  revert h
  apply skipFrom.induct rules
    (fun fresh offset cs => src.Spells offset src.size cs →
      EndsWith src (skipFrom .all fresh offset cs) (skipFrom rules fresh offset cs))
    (fun start width cs => src.Spells (start + width) src.size cs →
      EndsWith src (skipComment .all start width cs) (skipComment rules start width cs))
  case case1 =>
    intro fresh offset h
    rw [skipFrom, skipFrom]
    exact .inl rfl
  case case2 =>
    intro fresh offset cs ih h
    rw [skipFrom, skipFrom]
    exact ih ((spells_append ['\\', '\n']).1 h).2
  case case3 =>
    intro fresh offset cs ih h
    rw [skipFrom, skipFrom]
    exact ih ((spells_append ['\\', '\r', '\n']).1 h).2
  case case4 =>
    intro fresh offset c cs hlf hcrlf hskip ih h
    have h := ((spells_append [c]).1 h).2
    rw [byteLength_cons, byteLength_nil, utf8Size_of_isSpace (isSpace_of_rules hskip)] at h
    have hskip' : isBlank c || (Rules.all.newlines && c == '\n') := by
      simp only [Bool.or_eq_true, Bool.and_eq_true] at hskip ⊢
      exact hskip.imp_right fun hnewline => ⟨rfl, hnewline.2⟩
    rw [skipFrom, if_pos hskip', skipFrom, if_pos hskip]
    . exact ih h
    all_goals assumption
  case case5 =>
    intro fresh offset c cs hlf hcrlf hskip hcomment ih h
    have h := ((spells_append [c]).1 h).2
    have hcomment' : Rules.all.comments && fresh && c == '#' := by
      simp only [Bool.and_eq_true] at hcomment ⊢
      exact ⟨⟨rfl, hcomment.1.2⟩, hcomment.2⟩
    have hc : c = '#' := by simpa using (Bool.and_eq_true_iff.1 hcomment).2
    have hskip' : ¬(isBlank c || (Rules.all.newlines && c == '\n')) := by
      subst hc
      decide
    rw [skipFrom, if_neg hskip', if_pos hcomment', skipFrom, if_neg hskip, if_pos hcomment]
    . rw [hc] at h
      exact ih h
    all_goals assumption
  case case6 =>
    intro fresh offset c cs hlf hcrlf hskip hcomment h
    have hstop : skipFrom rules fresh offset (c :: cs) = (offset, []) := by
      rw [skipFrom, if_neg hskip, if_neg hcomment]
      all_goals assumption
    rw [hstop]
    by_cases hc : c = '\n' ∨ c = '#'
    . exact .inr ⟨c, cs, hc, h⟩
    . simp only [not_or] at hc
      simp only [Bool.or_eq_true, not_or] at hskip
      rw [skipFrom, if_neg (by simp [hskip.1, hc.1]), if_neg (by simp [hc.2])]
      . exact .inl rfl
      all_goals assumption
  case case7 =>
    intro start width h
    rw [skipComment, skipComment]
    exact .inl rfl
  case case8 =>
    intro start width c cs hlf hnewlines offset comments hskip ih h
    have hall : Rules.all.newlines = true := rfl
    rw [skipComment, if_pos hlf, if_pos hall, skipComment, if_pos hlf, if_pos hnewlines]
    rw [beq_iff_eq] at hlf
    subst hlf
    exact ih ((spells_append ['\n']).1 h).2
  case case9 =>
    intro start width c cs hlf hnewlines h
    have hstop : skipComment rules start width (c :: cs) =
        (start + width, [.ofWidth start width]) := by
      rw [skipComment, if_pos hlf, if_neg hnewlines]
    rw [hstop]
    exact .inr ⟨c, cs, .inl (by simpa using hlf), h⟩
  case case10 =>
    intro start width c cs hlf ih h
    rw [skipComment, if_neg hlf, skipComment, if_neg hlf]
    have h := ((spells_append [c]).1 h).2
    rw [byteLength_cons, byteLength_nil, Nat.add_zero, Nat.add_assoc] at h
    exact ih h

theorem skip_all {src : Source} {offset : Nat} {rules : Rules} {c : Char} {cs : List Char}
    (h : src.tail? (skip src offset rules).1 = some (c :: cs)) (hc : c ≠ '\n' ∧ c ≠ '#') :
    (skip src offset .all).1 = (skip src offset rules).1 := by
  unfold skip at h ⊢
  cases htail : src.tail? offset with
  | none => rfl
  | some ds =>
    simp only [htail] at h ⊢
    obtain heq | ⟨d, es, hd, hspells⟩ :=
      skipFrom_all rules (opensComment src offset) offset ds (tail?_eq_some_iff.1 htail)
    . exact heq
    . obtain rfl : c = d := (List.cons.inj ((tail?_eq_some_iff.1 h).unique hspells)).1
      exact absurd hd (not_or.2 hc)

end Trivia

namespace Lexeme

theorem regex_parenthesis {cs taken : List Char}
    (h : regex false .bare 0 ('(' :: cs) = .ok taken) : taken ≠ [] := by
  rintro rfl
  have hregex : regex false .bare 0 ('(' :: cs) =
      (regex false .bare 1 cs).map ('(' :: ·) := by
    rw [regex.eq_def]
    simp [endsRegex, atDoubleBracketClose, isSpace, isBlank, Quoting.escapes, Char.utf8Size]
  rw [hregex] at h
  cases hrest : regex false .bare 1 cs <;> rw [hrest] at h <;> cases h

end Lexeme

namespace Lexer

theorem nonempty?_eq_none {src : Source} {kind : TokenKind} {offset start : Nat}
    {taken : List Char} (h : nonempty? src kind offset start taken = none) : taken = [] := by
  cases taken with
  | nil => rfl
  | cons c cs =>
    simp only [nonempty?, ite_eq_left_iff, reduceCtorEq, imp_false, Decidable.not_not] at h
    have hpos := byteLength_pos (List.cons_ne_nil c cs)
    omega

/-- Where no pattern begins, no parenthesis comes next. -/
theorem next_ne_parenthesis {src : Source} {offset : Nat} {mode : Mode} {flags : Flags}
    {tok : Token} {comments comments' : List Span}
    (hregex : nextRegex src offset false = .ok (none, comments))
    (hnext : next src offset mode flags = .ok (tok, comments')) : tok.kind ≠ .operator "(" := by
  intro hkind
  unfold next at hnext
  cases htail : src.tail? (skipTrivia src offset mode flags).1 with
  | none =>
    simp only [htail] at hnext
    split at hnext <;> cases hnext
    cases hkind
  | some cs =>
    simp only [htail, Except.ok.injEq, Prod.mk.injEq] at hnext
    obtain ⟨rfl, _⟩ := hnext
    have htoken := tokenOf_tokenOf mode flags cs
    have hprefix := htoken.isPrefix
    rw [htoken.operator_eq _ hkind] at hprefix
    obtain ⟨ds, rfl⟩ := hprefix
    have hall := Trivia.skip_all htail (by decide)
    cases hskip : skipTrivia src offset .doubleTest {} with
    | mk start skipped =>
      have hstart : start = (skipTrivia src offset mode flags).1 :=
        (congrArg Prod.fst hskip).symm.trans hall
      have hfrom : (if false then (offset, []) else skipTrivia src offset .doubleTest {}) =
          (start, skipped) := hskip
      rw [nextRegex_eq hfrom (hstart ▸ htail), if_neg (by simp)] at hregex
      cases htaken : Lexeme.regex false .bare 0 ('(' :: ds) with
      | error fault => simp [htaken, Except.map] at hregex
      | ok taken =>
        simp only [String.reduceToList, List.cons_append, List.nil_append, htaken, Except.map,
          Except.ok.injEq, Prod.mk.injEq] at hregex
        exact Lexeme.regex_parenthesis htaken (nonempty?_eq_none hregex.1)

end Lexer

namespace Parse

variable {env : Env}

theorem peekRegex_run {inExpansion : Bool} {s s' : State} {result : Option Token}
    (h : peekRegex inExpansion env s = .ok (result, s')) :
    s'.pos = s.pos ∧ s'.halted = s.halted ∧ (s.halted = false → ∃ comments,
      Lexer.nextRegex env.source s.pos inExpansion = .ok (result, comments)) := by
  unfold peekRegex at h
  obtain ⟨_, _, hget, h⟩ := bind_run.1 h
  cases hget
  split at h
  . next hs =>
    cases h
    exact ⟨rfl, rfl, by simp [hs]⟩
  . obtain ⟨src, _, hsrc, h⟩ := bind_run.1 h
    cases hsrc
    obtain ⟨⟨tok, comments⟩, s₁, hnext, h⟩ := bind_run.1 h
    obtain ⟨hnext, hs₁⟩ := liftM_run hnext
    cases h
    rw [hs₁]
    exact ⟨rfl, rfl, fun _ => ⟨comments, hnext⟩⟩

theorem ne_parenthesis_of_peekRegex {s s₁ s₂ : State} {tok : Token}
    (hregex : peekRegex false env s = .ok (none, s₁)) (hpeek : peek env s₁ = .ok (tok, s₂)) :
    tok.kind ≠ .operator "(" := by
  obtain ⟨_, _, hget, hpeek⟩ := bind_run.1 hpeek
  cases hget
  obtain ⟨hpos, hhalted, hregex⟩ := peekRegex_run hregex
  obtain ⟨_, ⟨_, rfl⟩ | ⟨hrunning, comments, hnext⟩⟩ := peekWith_run hpeek
  . simp [Token.endAt]
  . obtain ⟨skipped, hregex⟩ := hregex (hhalted ▸ hrunning)
    rw [hpos] at hnext
    exact Lexer.next_ne_parenthesis hregex hnext

end Parse
end ShellTree
