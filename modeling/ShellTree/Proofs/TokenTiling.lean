import ShellTree.Proofs.Lexer

/-!
This module contains the tiling of a text by its tokens. Read one after the other, the tokens go on
to the end of the input, and what stands between two of them is trivia and the recorded comments.
`Lexer.IsTiling` says so and `Lexer.tokens_tiles` is the main statement.
-/

namespace ShellTree

/-- The spans follow each other between two offsets. -/
def InOrder : List Span → Nat → Nat → Prop
  | [], start, stop => start ≤ stop
  | s :: spans, start, stop => start ≤ s.start ∧ InOrder spans s.stop stop

namespace InOrder

variable {spans more : List Span} {start middle stop : Nat}

theorem le (h : InOrder spans start stop) : start ≤ stop := by
  induction spans generalizing start with
  | nil => exact h
  | cons s spans ih =>
    have := s.start_le_stop
    have := ih h.2
    have := h.1
    omega

theorem of_le (hle : start ≤ middle) (h : InOrder spans middle stop) :
    InOrder spans start stop := by
  cases spans with
  | nil => exact Nat.le_trans hle h
  | cons s spans => exact ⟨Nat.le_trans hle h.1, h.2⟩

theorem append (h : InOrder spans start middle) (h' : InOrder more middle stop) :
    InOrder (spans ++ more) start stop := by
  induction spans generalizing start with
  | nil => exact h'.of_le h
  | cons s spans ih => exact ⟨h.1, ih h.2⟩

theorem within (h : InOrder spans start stop) : ∀ s ∈ spans, start ≤ s.start ∧ s.stop ≤ stop := by
  induction spans generalizing start with
  | nil => simp
  | cons s spans ih =>
    have := s.start_le_stop
    have := h.1
    simp only [List.mem_cons, forall_eq_or_imp]
    refine ⟨⟨h.1, h.2.le⟩, ?_⟩
    intro t ht
    have := ih h.2 t ht
    omega

theorem stop_le (h : InOrder spans start stop) :
    ∀ s ∈ spans, ∀ t ∈ spans, s.start < t.start → s.stop ≤ t.start := by
  induction spans generalizing start with
  | nil => simp
  | cons r spans ih =>
    have hafter := h.2.within
    simp only [List.mem_cons]
    rintro s (rfl | hs) t (rfl | ht) hlt
    . omega
    . exact (hafter t ht).1
    . have := (hafter s hs).1
      have := t.start_le_stop
      omega
    . exact ih h.2 s hs t ht hlt

theorem pairwise (h : InOrder spans start stop) : spans.Pairwise (·.stop ≤ ·.start) := by
  induction spans generalizing start with
  | nil => exact List.Pairwise.nil
  | cons s spans ih => exact List.Pairwise.cons (fun t ht => (h.2.within t ht).1) (ih h.2)

theorem of_pairwise (hle : start ≤ stop) (h : spans.Pairwise (·.stop ≤ ·.start))
    (hwithin : ∀ s ∈ spans, start ≤ s.start ∧ s.stop ≤ stop) : InOrder spans start stop := by
  induction spans generalizing start with
  | nil => exact hle
  | cons s spans ih =>
    rw [List.pairwise_cons] at h
    rw [List.forall_mem_cons] at hwithin
    refine ⟨hwithin.1.1, ih hwithin.1.2 h.2 ?_⟩
    intro later hlater
    exact ⟨h.1 later hlater, (hwithin.2 later hlater).2⟩

end InOrder

/-- The characters that lie in none of the spans; the first of them all is at `offset`. -/
def outside (spans : List Span) (offset : Nat) : List Char → List Char
  | [] => []
  | c :: cs =>
    if spans.any fun s => s.start ≤ offset && offset < s.stop then
      outside spans (offset + c.utf8Size) cs
    else
      c :: outside spans (offset + c.utf8Size) cs

theorem outside_append (spans : List Span) (offset : Nat) (cs ds : List Char) :
    outside spans offset (cs ++ ds) =
      outside spans offset cs ++ outside spans (offset + byteLength cs) ds := by
  induction cs generalizing offset with
  | nil => rfl
  | cons c cs ih =>
    simp only [List.cons_append, outside, ih, byteLength_cons, Nat.add_assoc]
    split <;> rfl

theorem outside_eq_self {spans : List Span} {offset : Nat} {cs : List Char}
    (h : ∀ s ∈ spans, s.stop ≤ offset ∨ offset + byteLength cs ≤ s.start) :
    outside spans offset cs = cs := by
  induction cs generalizing offset with
  | nil => rfl
  | cons c cs ih =>
    have := c.utf8Size_pos
    simp only [byteLength_cons] at h
    rw [outside, if_neg, ih]
    . intro s hs
      have := h s hs
      omega
    . simp only [List.any_eq_true, Bool.and_eq_true, decide_eq_true_eq, not_exists, not_and]
      intro s hs hstart
      have := h s hs
      omega

theorem outside_eq_nil {spans : List Span} {s : Span} {offset : Nat} {cs : List Char}
    (hs : s ∈ spans) (hstart : s.start ≤ offset) (hstop : offset + byteLength cs ≤ s.stop) :
    outside spans offset cs = [] := by
  induction cs generalizing offset with
  | nil => rfl
  | cons c cs ih =>
    have := c.utf8Size_pos
    simp only [byteLength_cons] at hstop
    rw [outside, if_pos, ih (by omega) (by omega)]
    simp only [List.any_eq_true, Bool.and_eq_true, decide_eq_true_eq]
    exact ⟨s, hs, hstart, by omega⟩

namespace Trivia

theorem numberSign_notMem {cs : List Char} (h : isTrivia cs) : '#' ∉ cs := by
  fun_induction isTrivia cs with
  | case1 => simp
  | case2 cs ih => simpa using ih h
  | case3 cs ih => simpa using ih h
  | case4 c cs _ _ ih =>
    simp only [Bool.and_eq_true] at h
    have hc : c ≠ '#' := by
      rintro rfl
      simp [isSpace, isBlank] at h
    simpa [Ne.symm hc] using ih h.2

/-- What is skipped leaves the comments in the order in which they stand. -/
theorem skipFrom_inOrder (rules : Rules) :
    (∀ fresh offset cs,
      InOrder (skipFrom rules fresh offset cs).2 offset (skipFrom rules fresh offset cs).1) ∧
      ∀ start width cs,
        InOrder (skipComment rules start width cs).2 start
          (skipComment rules start width cs).1 := by
  apply skipFrom.mutual_induct rules
  case case1 =>
    intro fresh offset
    exact Nat.le_refl offset
  case case2 =>
    intro fresh offset cs ih
    rw [skipFrom]
    exact ih.of_le (by omega)
  case case3 =>
    intro fresh offset cs ih
    rw [skipFrom]
    exact ih.of_le (by omega)
  case case4 =>
    intro fresh offset c cs hlf hcrlf hskip ih
    rw [skipFrom.eq_4 _ _ _ _ _ hlf hcrlf, if_pos hskip]
    exact ih.of_le (by omega)
  case case5 =>
    intro fresh offset c cs hlf hcrlf hskip hcomment ih
    rw [skipFrom.eq_4 _ _ _ _ _ hlf hcrlf, if_neg hskip, if_pos hcomment]
    exact ih
  case case6 =>
    intro fresh offset c cs hlf hcrlf hskip hcomment
    rw [skipFrom.eq_4 _ _ _ _ _ hlf hcrlf, if_neg hskip, if_neg hcomment]
    exact Nat.le_refl offset
  case case7 =>
    intro start width
    exact ⟨Nat.le_refl start, Nat.le_refl (start + width)⟩
  case case8 =>
    intro start width c cs hlf hnewlines offset comments hskip ih
    rw [skipComment, if_pos hlf, if_pos hnewlines]
    exact ⟨Nat.le_refl start, ih.of_le (Nat.le_succ (start + width))⟩
  case case9 =>
    intro start width c cs hlf hnewlines
    rw [skipComment, if_pos hlf, if_neg hnewlines]
    exact ⟨Nat.le_refl start, Nat.le_refl (start + width)⟩
  case case10 =>
    intro start width c cs hlf ih
    rw [skipComment, if_neg hlf]
    exact ih

theorem skip_inOrder (src : Source) (offset : Nat) (rules : Rules) :
    InOrder (skip src offset rules).2 offset (skip src offset rules).1 := by
  unfold skip
  split
  . exact (skipFrom_inOrder rules).1 _ _ _
  . exact Nat.le_refl offset

end Trivia

section

variable {src : Source} {comments : List Span} {start stop : Nat} {cs : List Char}

/-- No comment starts within trivia. -/
theorem Source.IsComment.not_within {comment : Span} (h : src.IsComment comment)
    (hcs : src.Spells start stop cs) (htrivia : Trivia.isTrivia cs)
    (hstart : start ≤ comment.start) :
    stop ≤ comment.start := by
  obtain ⟨body, hbody, _⟩ := h.spells
  apply Nat.le_of_not_lt
  intro hlt
  obtain ⟨before, hbefore⟩ := hcs.left.exists_spells hbody.left hstart
  obtain ⟨after, hafter⟩ := hbody.left.exists_spells hcs.right (Nat.le_of_lt hlt)
  rw [hcs.unique (hbefore.append hafter)] at htrivia
  cases after with
  | nil =>
    have := hafter.stop_eq
    simp only [byteLength_nil] at this
    omega
  | cons c after =>
    obtain rfl := hafter.head_eq hbody
    exact Trivia.numberSign_notMem htrivia (by simp)

/-- What is skipped is trivia once the comments are taken away, unless one of them reaches into it
from before. -/
theorem Skips.outside_isTrivia (h : Skips src comments start stop)
    (hcomments : ∀ c ∈ comments, src.IsComment c)
    (hdisjoint : ∀ c ∈ comments, ∀ d ∈ comments, c.start < d.start → c.stop ≤ d.start)
    (hbefore : ∀ c ∈ comments, c.start < start → c.stop ≤ start)
    (hcs : src.Spells start stop cs) : Trivia.isTrivia (outside comments start cs) := by
  induction h generalizing cs with
  | done h =>
    obtain rfl := hcs.unique h
    rfl
  | @trivia start middle stop ds hspells htrivia hrest ih =>
    obtain ⟨es, hes⟩ := hrest.left.exists_spells hrest.right hrest.le
    obtain rfl := hcs.unique (hspells.append hes)
    have hmiddle := hspells.stop_eq
    -- a comment that is not behind starts after the trivia
    have hafter : ∀ c ∈ comments, start ≤ c.start → middle ≤ c.start := fun c hc =>
      (hcomments c hc).not_within hspells htrivia
    rw [outside_append, outside_eq_self, ← hmiddle]
    . apply Trivia.isTrivia_append htrivia (ih _ hes)
      intro c hc hlt
      have := hspells.le
      have := hbefore c hc
      have := hafter c hc
      omega
    . intro c hc
      have := hbefore c hc
      have := hafter c hc
      omega
  | @comment comment stop hmem hcomment hrest ih =>
    obtain ⟨es, hes⟩ := hrest.left.exists_spells hrest.right hrest.le
    obtain ⟨body, hspells, _⟩ := hcomment.spells
    obtain rfl := hcs.unique (hspells.append hes)
    have hstop := hspells.stop_eq
    rw [outside_append, outside_eq_nil hmem (Nat.le_refl comment.start) (by omega), ← hstop]
    apply ih _ hes
    intro c hc hlt
    have := comment.start_le_stop
    have := hdisjoint comment hmem c hc
    have := hdisjoint c hc comment hmem
    by_cases heq : c.start = comment.start
    . obtain rfl := (hcomments c hc).eq_of_start_eq hcomment heq
      exact Nat.le_refl c.stop
    . omega

end

namespace CommentLog

theorem place_eq_append {comment : Span} {spans : List Span}
    (h : ∀ s ∈ spans, s.start < comment.start) :
    insert.place comment spans = spans ++ [comment] := by
  induction spans with
  | nil => rfl
  | cons s spans ih =>
    simp only [List.mem_cons, forall_eq_or_imp] at h
    rw [insert.place, if_neg (by omega), if_neg (by omega), ih h.2, List.cons_append]

/-- Comments that are recorded in order are added at the end. -/
theorem insertAll_eq_append {log : CommentLog} {comments : List Span}
    (h : (log.spans ++ comments).Pairwise (·.start < ·.start)) :
    (log.insertAll comments).spans = log.spans ++ comments := by
  unfold insertAll
  induction comments generalizing log with
  | nil => simp
  | cons comment comments ih =>
    have hlast : ∀ s ∈ log.spans, s.start < comment.start := fun s hs =>
      (List.pairwise_append.1 h).2.2 s hs comment (by simp)
    have hinsert : (log.insert comment).spans = log.spans ++ [comment] := place_eq_append hlast
    rw [List.foldl_cons, ih]
    . rw [hinsert, List.append_assoc, List.singleton_append]
    . rw [hinsert, List.append_assoc, List.singleton_append]
      exact h

end CommentLog

namespace Token

/-- The stretches of the text before each of the tokens, of which the first one is read from
`offset`. -/
def gaps (offset : Nat) : List Token → List (Nat × Nat)
  | [] => []
  | tok :: toks => (offset, tok.span.start) :: gaps tok.span.stop toks

end Token

namespace Lexer

/-- The tokens and the recorded comments make up the text. -/
structure IsTiling (src : Source) (toks : List Token) (comments : List Span) : Prop where
  length_le : toks.length ≤ src.size + 1
  ends : ∃ lexemes last, toks = lexemes ++ [last] ∧ last.kind = .eof ∧ last.span = .empty src.size ∧
    ∀ tok ∈ lexemes, tok.kind ≠ .eof ∧ tok.span.start < tok.span.stop
  boundary : ∀ tok ∈ toks, src.Boundary tok.span.start ∧ src.Boundary tok.span.stop
  ordered : toks.Pairwise (·.span.stop ≤ ·.span.start)
  disjoint : comments.Pairwise (·.stop ≤ ·.start)
  between : ∀ c ∈ comments, ∃ gap ∈ Token.gaps 0 toks, gap.1 ≤ c.start ∧ c.stop ≤ gap.2
  trivia : ∀ gap ∈ Token.gaps 0 toks, ∃ cs, src.Spells gap.1 gap.2 cs ∧
    Trivia.isTrivia (outside comments gap.1 cs)

/-- An answer to a request at the offset, with the comments that it records. -/
structure Leads (src : Source) (offset : Nat) (tok : Token) (found : List Span) : Prop where
  follows : tok.Follows src found offset
  comments : ∀ c ∈ found, src.IsComment c
  inOrder : InOrder found offset tok.span.start
  span_eq : tok.kind = .eof → tok.span = .empty src.size

theorem found_eq_of_next {src : Source} {offset : Nat} {mode : Mode} {flags : Flags} {tok : Token}
    {found : List Span} (h : next src offset mode flags = .ok (tok, found)) :
    found = (skipTrivia src offset mode flags).2 := by
  unfold next at h
  dsimp only at h
  split at h
  . cases h
    rfl
  . split at h
    . cases h
      rfl
    . cases h

theorem next_leads {src : Source} {offset : Nat} (h : src.Boundary offset) (mode : Mode)
    (flags : Flags) :
    ∃ tok found, next src offset mode flags = .ok (tok, found) ∧ Leads src offset tok found := by
  obtain ⟨tok, found, hnext, hanswers⟩ := next_answers h mode flags
  refine ⟨tok, found, hnext, hanswers.follows, hanswers.comments, ?_, hanswers.span_eq⟩
  rw [hanswers.start_eq, found_eq_of_next hnext]
  exact Trivia.skip_inOrder src offset (triviaRules mode flags)

/-- A run of the lexer from an offset to the end of the input. -/
inductive Reads (src : Source) : Nat → List Token → List Span → Prop where
  | last {offset : Nat} {tok : Token} {found : List Span} :
    Leads src offset tok found → tok.kind = .eof → Reads src offset [tok] found
  | step {offset : Nat} {tok : Token} {toks : List Token} {found comments : List Span} :
    Leads src offset tok found → tok.kind ≠ .eof → Reads src tok.span.stop toks comments →
      Reads src offset (tok :: toks) (found ++ comments)

theorem tokensFrom_reads {src : Source} (mode : Mode) (flags : Flags) {fuel offset : Nat}
    (h : src.Boundary offset) (hfuel : src.size < offset + fuel) :
    ∃ toks comments, tokensFrom src mode flags fuel offset = .ok (toks, comments) ∧
      Reads src offset toks comments := by
  induction fuel generalizing offset with
  | zero =>
    have := h.le_size
    omega
  | succ fuel ih =>
    obtain ⟨tok, found, hnext, hleads⟩ := next_leads h mode flags
    by_cases hkind : tok.kind = .eof
    . refine ⟨[tok], found, ?_, .last hleads hkind⟩
      simp [tokensFrom, hnext, Token.isEof, hkind, bind, Except.bind, pure, Except.pure]
    . have := hleads.follows.offset_le
      have := hleads.follows.start_lt_stop hkind
      obtain ⟨toks, comments, htokens, hreads⟩ := ih hleads.follows.spells.right (by omega)
      refine ⟨tok :: toks, found ++ comments, ?_, .step hleads hkind hreads⟩
      simp [tokensFrom, hnext, Token.isEof, hkind, htokens, bind, Except.bind, pure, Except.pure]

namespace Reads

variable {src : Source} {offset : Nat} {toks : List Token} {comments : List Span}

theorem length_le (h : Reads src offset toks comments) : offset + toks.length ≤ src.size + 1 := by
  induction h with
  | last hleads _ =>
    have := hleads.follows.offset_le
    have := hleads.follows.spells.left.le_size
    simp only [List.length_singleton]
    omega
  | step hleads hkind _ ih =>
    have := hleads.follows.offset_le
    have := hleads.follows.start_lt_stop hkind
    simp only [List.length_cons]
    omega

theorem ends (h : Reads src offset toks comments) :
    ∃ lexemes last, toks = lexemes ++ [last] ∧ last.kind = .eof ∧ last.span = .empty src.size ∧
      ∀ tok ∈ lexemes, tok.kind ≠ .eof ∧ tok.span.start < tok.span.stop := by
  induction h with
  | @last _ tok _ hleads hkind => exact ⟨[], tok, rfl, hkind, hleads.span_eq hkind, by simp⟩
  | @step _ tok _ _ _ hleads hkind _ ih =>
    obtain ⟨lexemes, last, rfl, hlast, hspan, hlexemes⟩ := ih
    refine ⟨tok :: lexemes, last, rfl, hlast, hspan, ?_⟩
    simp only [List.mem_cons, forall_eq_or_imp]
    exact ⟨⟨hkind, hleads.follows.start_lt_stop hkind⟩, hlexemes⟩

theorem boundary (h : Reads src offset toks comments) :
    ∀ tok ∈ toks, src.Boundary tok.span.start ∧ src.Boundary tok.span.stop := by
  induction h with
  | last hleads _ => simpa using ⟨hleads.follows.spells.left, hleads.follows.spells.right⟩
  | step hleads _ _ ih =>
    simp only [List.mem_cons, forall_eq_or_imp]
    exact ⟨⟨hleads.follows.spells.left, hleads.follows.spells.right⟩, ih⟩

theorem spans_inOrder (h : Reads src offset toks comments) :
    InOrder (toks.map (·.span)) offset src.size := by
  induction h with
  | last hleads _ => exact ⟨hleads.follows.offset_le, hleads.follows.stop_le_size⟩
  | step hleads _ _ ih => exact ⟨hleads.follows.offset_le, ih⟩

theorem comments_inOrder (h : Reads src offset toks comments) :
    InOrder comments offset src.size := by
  induction h with
  | @last _ tok found hleads _ =>
    have hlast : InOrder [] tok.span.start src.size := hleads.follows.spells.left.le_size
    simpa using hleads.inOrder.append hlast
  | @step _ tok _ _ _ hleads _ _ ih =>
    exact hleads.inOrder.append (ih.of_le tok.span.start_le_stop)

theorem isComment (h : Reads src offset toks comments) : ∀ c ∈ comments, src.IsComment c := by
  induction h with
  | last hleads _ => exact hleads.comments
  | step hleads _ _ ih =>
    intro c hc
    exact (List.mem_append.1 hc).elim (hleads.comments c) (ih c)

theorem between (h : Reads src offset toks comments) :
    ∀ c ∈ comments, ∃ gap ∈ Token.gaps offset toks, gap.1 ≤ c.start ∧ c.stop ≤ gap.2 := by
  induction h with
  | @last offset tok _ hleads _ =>
    intro c hc
    exact ⟨(offset, tok.span.start), by simp [Token.gaps], hleads.inOrder.within c hc⟩
  | @step offset tok _ _ _ hleads _ _ ih =>
    intro c hc
    cases List.mem_append.1 hc with
    | inl hfound =>
      exact ⟨(offset, tok.span.start), by simp [Token.gaps], hleads.inOrder.within c hfound⟩
    | inr hmore =>
      obtain ⟨gap, hgap, hwithin⟩ := ih c hmore
      exact ⟨gap, List.mem_cons_of_mem _ hgap, hwithin⟩

theorem offset_le_start (h : Reads src offset toks comments) : ∀ c ∈ comments, offset ≤ c.start :=
  fun c hc => (h.comments_inOrder.within c hc).1

theorem gap_isTrivia {tok : Token} {found log : List Span} (hleads : Leads src offset tok found)
    (hfound : ∀ c ∈ found, c ∈ log) (hlog : ∀ c ∈ log, src.IsComment c)
    (hdisjoint : ∀ c ∈ log, ∀ d ∈ log, c.start < d.start → c.stop ≤ d.start)
    (hbefore : ∀ c ∈ log, c.stop ≤ offset ∨ offset ≤ c.start) :
    ∃ cs, src.Spells offset tok.span.start cs ∧ Trivia.isTrivia (outside log offset cs) := by
  have hskips := hleads.follows.skips
  obtain ⟨cs, hcs⟩ := hskips.left.exists_spells hskips.right hskips.le
  refine ⟨cs, hcs, (hskips.mono hfound).outside_isTrivia hlog hdisjoint ?_ hcs⟩
  intro c hc hlt
  have := hbefore c hc
  omega

/-- The log holds the comments of the run; its others are behind. -/
theorem trivia (h : Reads src offset toks comments) {log : List Span}
    (hlog : ∀ c ∈ log, src.IsComment c)
    (hdisjoint : ∀ c ∈ log, ∀ d ∈ log, c.start < d.start → c.stop ≤ d.start)
    (hcomments : ∀ c ∈ comments, c ∈ log) (hbehind : ∀ c ∈ log, c.stop ≤ offset ∨ c ∈ comments) :
    ∀ gap ∈ Token.gaps offset toks, ∃ cs, src.Spells gap.1 gap.2 cs ∧
      Trivia.isTrivia (outside log gap.1 cs) := by
  have hbefore : ∀ c ∈ log, c.stop ≤ offset ∨ offset ≤ c.start := fun c hc =>
    (hbehind c hc).imp_right (h.offset_le_start c)
  induction h with
  | last hleads _ =>
    simp only [Token.gaps, List.mem_singleton, forall_eq]
    exact gap_isTrivia hleads hcomments hlog hdisjoint hbefore
  | @step offset tok toks found comments hleads _ hreads ih =>
    simp only [List.mem_append] at hcomments hbehind
    simp only [Token.gaps, List.mem_cons, forall_eq_or_imp]
    have hstop : ∀ c ∈ log, c.stop ≤ tok.span.stop ∨ c ∈ comments := by
      intro c hc
      have := tok.span.start_le_stop
      obtain hbehind | hfound | hmore := hbehind c hc
      . have := hleads.follows.offset_le
        exact .inl (by omega)
      . have := (hleads.inOrder.within c hfound).2
        exact .inl (by omega)
      . exact .inr hmore
    refine ⟨gap_isTrivia hleads (fun c hc => hcomments c (.inl hc)) hlog hdisjoint hbefore, ?_⟩
    exact ih (fun c hc => hcomments c (.inr hc)) hstop fun c hc =>
      (hstop c hc).imp_right (hreads.offset_le_start c)

/-- The log of a run that begins with an empty one has the comments as they were found. -/
theorem insertAll_spans (h : Reads src offset toks comments) :
    (CommentLog.insertAll {} comments).spans = comments := by
  apply CommentLog.insertAll_eq_append
  apply h.comments_inOrder.pairwise.imp_of_mem
  intro c d hc _ hle
  have := (h.isComment c hc).start_lt_stop
  omega

end Reads

/-- The tokens of any text, read in any mode, tile it. -/
theorem tokens_tiles (src : Source) (mode : Mode) (flags : Flags) :
    ∃ toks comments, tokens src mode flags = .ok (toks, comments) ∧
      IsTiling src toks (CommentLog.insertAll {} comments).spans := by
  obtain ⟨toks, comments, htokens, hreads⟩ :=
    tokensFrom_reads mode flags Source.boundary_zero (show src.size < 0 + (src.size + 1) by omega)
  refine ⟨toks, comments, htokens, ?_⟩
  rw [hreads.insertAll_spans]
  refine ⟨?_, hreads.ends, hreads.boundary, ?_, hreads.comments_inOrder.pairwise,
    hreads.between, ?_⟩
  . have := hreads.length_le
    omega
  . exact List.pairwise_map.1 hreads.spans_inOrder.pairwise
  . apply hreads.trivia hreads.isComment hreads.comments_inOrder.stop_le (by simp)
      (by simp +contextual)

end Lexer
end ShellTree
