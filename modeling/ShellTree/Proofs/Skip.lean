import ShellTree.Proofs.TokenTiling
import ShellTree.Proofs.Tree

/-!
This module contains how far skipping goes: to a place where nothing begins that may be skipped, so
that a second search stays there. `Trivia.Finds` says what a search finds on the way and
`Trivia.skip_maximal` is the main statement, which also ties `Trivia.skip` to `Trivia.isTrivia`.
-/

namespace ShellTree
namespace Trivia

open Source

variable {src : Source} {rules : Rules} {offset : Nat} {c : Char} {cs : List Char}

/-! ### Where skipping ends -/

/-- Neither a blank nor a line continuation comes first. -/
structure Unskipped (cs : List Char) : Prop where
  not_isBlank : ∀ c ∈ cs.head?, isBlank c = false
  continuation?_eq : continuation? cs = none

theorem unskipped_nil : Unskipped [] := ⟨by simp, rfl⟩

theorem unskipped_lineFeed (cs : List Char) : Unskipped ('\n' :: cs) := ⟨by simp; rfl, rfl⟩

/-- Nothing begins at the offset that the rules let skip. The characters are those from there on. -/
structure Stops (src : Source) (rules : Rules) (offset : Nat) (cs : List Char) : Prop
    extends Unskipped cs where
  not_newline : rules.newlines → cs.head? ≠ some '\n'
  not_comment : rules.comments → opensComment src offset → cs.head? ≠ some '#'

theorem stops_nil : Stops src rules offset [] := ⟨unskipped_nil, by simp, by simp⟩

theorem stops_newline (hnewlines : rules.newlines = false) : Stops src rules offset ('\n' :: cs) :=
  ⟨unskipped_lineFeed cs, by simp [hnewlines], by simp⟩

theorem stops_cons (hlf : ∀ ds, c = '\\' → cs = '\n' :: ds → False)
    (hcrlf : ∀ ds, c = '\\' → cs = '\r' :: '\n' :: ds → False)
    (hskip : ¬(isBlank c || (rules.newlines && c == '\n')))
    (hcomment : ¬(rules.comments && opensComment src offset && c == '#')) :
    Stops src rules offset (c :: cs) := by
  simp only [Bool.or_eq_true, Bool.and_eq_true, beq_iff_eq, not_or, not_and] at hskip hcomment
  refine ⟨⟨by simp [hskip.1], ?_⟩, by simpa using hskip.2, ?_⟩
  . unfold continuation?
    split
    . next heq =>
      cases heq
      exact absurd rfl (hlf _ rfl)
    . next heq =>
      cases heq
      exact absurd rfl (hcrlf _ rfl)
    . rfl
  . intro hcomments hopens
    simpa using hcomment ⟨hcomments, hopens⟩

theorem Stops.skipFrom_eq (h : Stops src rules offset cs) :
    skipFrom rules (opensComment src offset) offset cs = (offset, []) := by
  rw [skipFrom.eq_def]
  split
  . rfl
  . have hcontinuation := h.continuation?_eq
    simp [continuation?] at hcontinuation
  . have hcontinuation := h.continuation?_eq
    simp [continuation?] at hcontinuation
  . next c cs _ _ =>
    have hblank := h.not_isBlank c rfl
    have hnewline := h.not_newline
    have hcomment := h.not_comment
    simp only [List.head?_cons, ne_eq, Option.some.injEq] at hnewline hcomment
    rw [if_neg, if_neg]
    . simpa using fun hcomments hopens => hcomment hcomments hopens
    . simpa [hblank] using hnewline

/-- Skipping ends where nothing is left to skip. -/
theorem skipFrom_stops (rules : Rules) (fresh : Bool) (offset : Nat) (cs : List Char)
    (h : src.Spells offset src.size cs) (hfresh : fresh = opensComment src offset) :
    ∃ ds, src.Spells (skipFrom rules fresh offset cs).1 src.size ds ∧
      Stops src rules (skipFrom rules fresh offset cs).1 ds := by
  revert h hfresh
  -- behind what is skipped a comment can open; a comment ends before a line feed or with the text
  apply skipFrom.induct rules
    (fun fresh offset cs => src.Spells offset src.size cs → fresh = opensComment src offset →
      ∃ ds, src.Spells (skipFrom rules fresh offset cs).1 src.size ds ∧
        Stops src rules (skipFrom rules fresh offset cs).1 ds)
    (fun start width cs => src.Spells (start + width) src.size cs →
      ∃ ds, src.Spells (skipComment rules start width cs).1 src.size ds ∧
        Stops src rules (skipComment rules start width cs).1 ds)
  case case1 =>
    intro fresh offset h _
    exact ⟨[], h, stops_nil⟩
  case case2 =>
    intro fresh offset cs ih h _
    have h := (spells_append ['\\', '\n']).1 h
    rw [skipFrom]
    exact ih h.2 (opensComment_of_endsWord ['\\'] h.1 rfl).symm
  case case3 =>
    intro fresh offset cs ih h _
    have h := (spells_append ['\\', '\r', '\n']).1 h
    rw [skipFrom]
    exact ih h.2 (opensComment_of_endsWord ['\\', '\r'] h.1 rfl).symm
  case case4 =>
    intro fresh offset c cs hlf hcrlf hskip ih h _
    have hspace := isSpace_of_rules hskip
    have h := (spells_append [c]).1 h
    simp only [byteLength_cons, byteLength_nil, utf8Size_of_isSpace hspace] at h
    rw [skipFrom.eq_4 _ _ _ _ _ hlf hcrlf, if_pos hskip]
    exact ih h.2 (opensComment_of_endsWord [] h.1 (by simp [endsWord, hspace])).symm
  case case5 =>
    intro fresh offset c cs hlf hcrlf hskip hcomment ih h _
    rw [skipFrom.eq_4 _ _ _ _ _ hlf hcrlf, if_neg hskip, if_pos hcomment]
    simp only [Bool.and_eq_true, beq_iff_eq] at hcomment
    obtain ⟨_, rfl⟩ := hcomment
    exact ih ((spells_append ['#']).1 h).2
  case case6 =>
    intro fresh offset c cs hlf hcrlf hskip hcomment h hfresh
    rw [skipFrom.eq_4 _ _ _ _ _ hlf hcrlf, if_neg hskip, if_neg hcomment]
    rw [hfresh] at hcomment
    exact ⟨c :: cs, h, stops_cons hlf hcrlf hskip hcomment⟩
  case case7 =>
    intro start width h
    exact ⟨[], h, stops_nil⟩
  case case8 =>
    intro start width c cs hlf hnewlines offset comments hskip ih h
    rw [skipComment, if_pos hlf, if_pos hnewlines]
    rw [beq_iff_eq] at hlf
    subst hlf
    have h := (spells_append ['\n']).1 h
    exact ih h.2 (opensComment_of_endsWord [] h.1 rfl).symm
  case case9 =>
    intro start width c cs hlf hnewlines h
    rw [skipComment, if_pos hlf, if_neg hnewlines]
    rw [beq_iff_eq] at hlf
    subst hlf
    exact ⟨'\n' :: cs, h, stops_newline (by simpa using hnewlines)⟩
  case case10 =>
    intro start width c cs hlf ih h
    rw [skipComment, if_neg hlf]
    have h := ((spells_append [c]).1 h).2
    rw [Nat.add_assoc] at h
    exact ih (by simpa using h)

theorem skip_stops (h : src.Boundary offset) (rules : Rules) :
    ∃ cs, src.tail? (skip src offset rules).1 = some cs ∧
      Stops src rules (skip src offset rules).1 cs := by
  obtain ⟨cs, htail, hspells⟩ := h.exists_tail?
  unfold skip
  simp only [htail, tail?_eq_some_iff]
  exact skipFrom_stops rules _ offset cs hspells rfl

/-- Inside a character and past the end nothing is skipped. -/
theorem skip_of_not_boundary (h : ¬ src.Boundary offset) (rules : Rules) :
    skip src offset rules = (offset, []) := by
  unfold skip
  split
  . next htail => exact absurd (Boundary.of_tail? htail) h
  . rfl

/-- A second search stays where the first one ended. -/
theorem skip_skip (src : Source) (offset : Nat) (rules : Rules) :
    skip src (skip src offset rules).1 rules = ((skip src offset rules).1, []) := by
  by_cases h : src.Boundary offset
  . obtain ⟨cs, htail, hstops⟩ := skip_stops h rules
    generalize (skip src offset rules).1 = stop at htail hstops ⊢
    rw [skip, htail]
    exact hstops.skipFrom_eq
  . have hskip := skip_of_not_boundary h rules
    rw [hskip, hskip]

/-! ### Texts that are trivia -/

theorem skipFrom_of_isTrivia (hnewlines : rules.newlines) (h : isTrivia cs) (fresh : Bool)
    (offset : Nat) : (skipFrom rules fresh offset cs).1 = offset + byteLength cs := by
  fun_induction isTrivia cs generalizing fresh offset with
  | case1 => rfl
  | case2 cs ih =>
    rw [skipFrom, ih h, Nat.add_assoc]
    exact congrArg (offset + ·) (byteLength_append ['\\', '\n'] cs).symm
  | case3 cs ih =>
    rw [skipFrom, ih h, Nat.add_assoc]
    exact congrArg (offset + ·) (byteLength_append ['\\', '\r', '\n'] cs).symm
  | case4 c cs hlf hcrlf ih =>
    rw [Bool.and_eq_true] at h
    have hskip : isBlank c || (rules.newlines && c == '\n') := by
      rw [hnewlines]
      exact h.1
    rw [skipFrom.eq_4 _ _ _ _ _ hlf hcrlf, if_pos hskip, ih h.2, byteLength_cons,
      utf8Size_of_isSpace h.1, Nat.add_assoc]

theorem skipFrom_comments_eq_nil (hcomments : rules.comments = false) (fresh : Bool) (offset : Nat)
    (cs : List Char) : (skipFrom rules fresh offset cs).2 = [] := by
  -- no comment is begun, so that nothing has to hold inside of one
  apply skipFrom.induct rules (fun fresh offset cs => (skipFrom rules fresh offset cs).2 = [])
    (fun _ _ _ => True)
  case case1 =>
    intro fresh offset
    rfl
  case case2 =>
    intro fresh offset cs ih
    rwa [skipFrom]
  case case3 =>
    intro fresh offset cs ih
    rwa [skipFrom]
  case case4 =>
    intro fresh offset c cs hlf hcrlf hskip ih
    rwa [skipFrom.eq_4 _ _ _ _ _ hlf hcrlf, if_pos hskip]
  case case5 =>
    intro fresh offset c cs hlf hcrlf hskip hcomment _
    simp [hcomments] at hcomment
  case case6 =>
    intro fresh offset c cs hlf hcrlf hskip hcomment
    rw [skipFrom.eq_4 _ _ _ _ _ hlf hcrlf, if_neg hskip, if_neg hcomment]
  all_goals
    intros
    trivial

/-- The rules under which line breaks are trivia and comments are not. -/
def Rules.uncommented : Rules where
  newlines := true
  comments := false

/-- A text is trivia exactly if it is skipped as a whole. -/
theorem isTrivia_iff (src : Source) :
    isTrivia src.text.toList ↔ (skip src 0 .uncommented).1 = src.size := by
  have htail : src.tail? 0 = some src.text.toList := tail?_eq_some_iff.2 spells_all
  constructor
  . intro h
    rw [skip, htail]
    simp only
    rw [skipFrom_of_isTrivia rfl h, Nat.zero_add, size_eq_byteLength]
  . intro h
    have hnone : (skip src 0 .uncommented).2 = [] := by
      rw [skip, htail]
      exact skipFrom_comments_eq_nil rfl _ _ _
    have hskips : Skips src _ 0 _ := (skip_found boundary_zero .uncommented).1
    rw [hnone, h] at hskips
    obtain ⟨cs, hcs, htrivia⟩ := hskips.exists_trivia
    rwa [← hcs.unique spells_all]

/-! ### Main result -/

/-- What a search from the offset finds. It ends where nothing is left to skip, the comments are in
order and do not overlap, and what remains between them is trivia. -/
structure Finds (src : Source) (rules : Rules) (offset stop : Nat) (comments : List Span) :
    Prop where
  le_stop : offset ≤ stop
  stop_le : stop ≤ max offset src.size
  stops : ∀ cs, src.Spells stop src.size cs → Stops src rules stop cs
  again : skip src stop rules = (stop, [])
  isComment : ∀ c ∈ comments, src.IsComment c
  pairwise : comments.Pairwise (·.stop ≤ ·.start)
  nonempty : ∀ c ∈ comments, c.start < c.stop
  within : ∀ c ∈ comments, offset ≤ c.start ∧ c.stop ≤ stop
  trivia : stop = offset ∨
    ∃ cs, src.Spells offset stop cs ∧ isTrivia (outside comments offset cs)

theorem finds_of_boundary (h : src.Boundary offset) (rules : Rules) :
    Finds src rules offset (skip src offset rules).1 (skip src offset rules).2 := by
  obtain ⟨hskips, hcomments⟩ := skip_found h rules
  have hinOrder := skip_inOrder src offset rules
  obtain ⟨ds, htail, hstops⟩ := skip_stops h rules
  obtain ⟨cs, hcs⟩ := hskips.left.exists_spells hskips.right hskips.le
  refine ⟨hskips.le, ?_, ?_, skip_skip src offset rules, hcomments, hinOrder.pairwise,
    fun c hc => (hcomments c hc).start_lt_stop, hinOrder.within, .inr ⟨cs, hcs, ?_⟩⟩
  . exact Nat.le_trans hskips.right.le_size (Nat.le_max_right _ _)
  . intro es hes
    rwa [hes.unique (tail?_eq_some_iff.1 htail)]
  . apply hskips.outside_isTrivia hcomments hinOrder.stop_le _ hcs
    intro c hc hlt
    have := (hinOrder.within c hc).1
    omega

/-- Skipping goes on to where nothing is left to skip, over trivia and the comments that it reports.
A text is trivia exactly if it is skipped as a whole where line breaks may be skipped and comments
may not. -/
theorem skip_maximal (src : Source) :
    (∀ offset rules, Finds src rules offset (skip src offset rules).1 (skip src offset rules).2) ∧
      (isTrivia src.text.toList ↔ (skip src 0 .uncommented).1 = src.size) := by
  refine ⟨?_, isTrivia_iff src⟩
  intro offset rules
  by_cases h : src.Boundary offset
  . exact finds_of_boundary h rules
  . have hskip := skip_of_not_boundary h rules
    rw [hskip]
    exact ⟨Nat.le_refl _, Nat.le_max_left _ _, fun cs hcs => absurd hcs.left h, hskip, by simp,
      .nil, by simp, by simp, .inl rfl⟩

-- a backslash before a carriage return alone is no line continuation
example : skip (.ofString "a \\\r\n# b\n\\\rc") 1 ⟨true, true⟩ = (9, [.ofWidth 5 3]) := by
  decide +kernel

end Trivia
end ShellTree
