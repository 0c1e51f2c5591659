import ShellTree.Lexer
import ShellTree.Proofs.Text

/-!
This module contains the correctness of skipping: what `Trivia.skip` steps over is a sequence of
trivia and of comments, which it reports. `Skips` is that sequence for a given list of comments.
-/

namespace ShellTree

/-- The span is that of a comment: from a number sign to the end of its line. -/
def Source.IsComment (src : Source) (span : Span) : Prop :=
  ∃ before body after,
    src.text.toList = before ++ '#' :: body ++ after ∧
      byteLength before = span.start ∧
      span.start + byteLength ('#' :: body) = span.stop ∧
      '\n' ∉ body ∧ ∀ c ∈ after.head?, c = '\n'

/-- Between two offsets there is nothing but trivia and comments of the list. -/
inductive Skips (src : Source) (comments : List Span) : Nat → Nat → Prop where
  | done {offset : Nat} : src.Boundary offset → Skips src comments offset offset
  | trivia {start middle stop : Nat} {cs : List Char} :
    src.Spells start middle cs → Trivia.isTrivia cs → Skips src comments middle stop →
      Skips src comments start stop
  | comment {comment : Span} {stop : Nat} :
    comment ∈ comments → src.IsComment comment → Skips src comments comment.stop stop →
      Skips src comments comment.start stop

namespace Source.IsComment

variable {src : Source} {comment : Span}

theorem spells (h : src.IsComment comment) :
    ∃ body, src.Spells comment.start comment.stop ('#' :: body) ∧ '\n' ∉ body := by
  obtain ⟨before, body, after, htext, hstart, hstop, hbody, _⟩ := h
  exact ⟨body, ⟨before, after, htext, hstart, hstop⟩, hbody⟩

theorem start_lt_stop (h : src.IsComment comment) : comment.start < comment.stop := by
  obtain ⟨body, hspells, _⟩ := h.spells
  exact hspells.lt (by simp)

theorem body_unique : {body body' after after' : List Char} →
    body ++ after = body' ++ after' → '\n' ∉ body → '\n' ∉ body' →
    (∀ c ∈ after.head?, c = '\n') → (∀ c ∈ after'.head?, c = '\n') → body = body'
  | [], [], _, _, _, _, _, _, _ => rfl
  | [], d :: ds, after, after', h, _, hbody', hafter, _ => by
    have hd : d = '\n' := hafter d (by rw [← List.nil_append after, h]; rfl)
    simp [hd] at hbody'
  | c :: cs, [], after, after', h, hbody, _, _, hafter' => by
    have hc : c = '\n' := hafter' c (by rw [← List.nil_append after', ← h]; rfl)
    simp [hc] at hbody
  | c :: cs, d :: ds, after, after', h, hbody, hbody', hafter, hafter' => by
    simp only [List.cons_append, List.cons.injEq] at h
    simp only [List.mem_cons, not_or] at hbody hbody'
    rw [h.1, body_unique h.2 hbody.2 hbody'.2 hafter hafter']

theorem eq_of_start_eq {other : Span} (h : src.IsComment comment) (h' : src.IsComment other)
    (hstart : comment.start = other.start) : comment = other := by
  obtain ⟨before, body, after, htext, hlen, hstop, hbody, hafter⟩ := h
  obtain ⟨before', body', after', htext', hlen', hstop', hbody', hafter'⟩ := h'
  rw [htext, List.append_assoc, List.append_assoc] at htext'
  obtain ⟨rfl, hrest⟩ := eq_of_append_eq_append htext' (by omega)
  simp only [List.cons_append, List.cons.injEq, true_and] at hrest
  have hbodies := body_unique hrest hbody hbody' hafter hafter'
  subst hbodies
  obtain ⟨start, stop, _⟩ := comment
  obtain ⟨start', stop', _⟩ := other
  simp only [Span.mk.injEq]
  simp only at hstart hstop hstop'
  omega

end Source.IsComment

namespace Skips

variable {src : Source} {comments : List Span} {start middle stop : Nat}

theorem left (h : Skips src comments start stop) : src.Boundary start := by
  cases h with
  | done h => exact h
  | trivia h _ _ => exact h.left
  | comment _ h _ =>
    obtain ⟨_, hspells, _⟩ := h.spells
    exact hspells.left

theorem right (h : Skips src comments start stop) : src.Boundary stop := by
  induction h with
  | done h => exact h
  | trivia _ _ _ ih => exact ih
  | comment _ _ _ ih => exact ih

theorem le (h : Skips src comments start stop) : start ≤ stop := by
  induction h with
  | done _ => apply Nat.le_refl
  | trivia h _ _ ih =>
    have := h.le
    omega
  | comment _ h _ ih =>
    have := h.start_lt_stop
    omega

theorem trans (h : Skips src comments start middle) (h' : Skips src comments middle stop) :
    Skips src comments start stop := by
  induction h with
  | done _ => exact h'
  | trivia hspells htrivia _ ih => exact .trivia hspells htrivia (ih h')
  | comment hmem hcomment _ ih => exact .comment hmem hcomment (ih h')

theorem of_spells {cs : List Char} (h : src.Spells start stop cs) (htrivia : Trivia.isTrivia cs) :
    Skips src comments start stop :=
  .trivia h htrivia (.done h.right)

theorem mono_within {more : List Span} (h : Skips src comments start stop)
    (hmore : ∀ c ∈ comments, start ≤ c.start → c.stop ≤ stop → c ∈ more) :
    Skips src more start stop := by
  induction h with
  | done h => exact .done h
  | trivia hspells htrivia _ ih =>
    have := hspells.le
    refine .trivia hspells htrivia (ih ?_)
    intro c hc hstart hstop
    apply hmore c hc (by omega) hstop
  | comment hmem hcomment hrest ih =>
    have := hcomment.start_lt_stop
    have := hrest.le
    refine .comment (hmore _ hmem (by omega) (by omega)) hcomment (ih ?_)
    intro c hc hstart hstop
    apply hmore c hc (by omega) hstop

theorem mono {more : List Span} (h : Skips src comments start stop)
    (hmore : ∀ c ∈ comments, c ∈ more) : Skips src more start stop :=
  h.mono_within fun c hc _ _ => hmore c hc

theorem stop_eq_of_head {c : Char} {cs : List Char} (h : Skips src comments start stop)
    (hcs : src.Spells start src.size (c :: cs)) (htrivia : ∀ ds, Trivia.isTrivia (c :: ds) = false)
    (hcomment : c ≠ '#') : stop = start := by
  induction h with
  | done _ => rfl
  | @trivia start middle stop ds hspells hds _ ih =>
    cases ds with
    | nil =>
      obtain rfl : middle = start := hspells.stop_eq
      exact ih hcs
    | cons d ds =>
      obtain rfl := hspells.head_eq hcs
      simp [htrivia] at hds
  | comment _ h _ _ =>
    obtain ⟨_, hspells, _⟩ := h.spells
    exact absurd (hcs.head_eq hspells) hcomment

end Skips

namespace Trivia

open Source

theorem isTrivia_append {cs ds : List Char} (hcs : isTrivia cs) (hds : isTrivia ds) :
    isTrivia (cs ++ ds) := by
  fun_induction isTrivia cs with
  | case1 => exact hds
  | case2 cs ih => exact ih hcs
  | case3 cs ih => exact ih hcs
  | case4 c cs h h' ih =>
    simp only [Bool.and_eq_true] at hcs
    have hc : c ≠ '\\' := by
      rintro rfl
      simp [isSpace, isBlank] at hcs
    rw [List.cons_append, isTrivia]
    . simp [hcs.1, ih hcs.2]
    . intro _ h
      simp_all
    . intro _ h
      simp_all

theorem isTrivia_singleton {c : Char} (h : isSpace c) : isTrivia [c] := by
  have hc : c ≠ '\\' := by
    rintro rfl
    simp [isSpace, isBlank] at h
  rw [isTrivia]
  . simp [h, isTrivia]
  . intro _ h
    simp_all
  . intro _ h
    simp_all

theorem isTrivia_cons {c : Char} {cs : List Char} (hc : isSpace c) (hcs : isTrivia cs) :
    isTrivia (c :: cs) := by
  have h := isTrivia_append (isTrivia_singleton hc) hcs
  exact h

theorem utf8Size_of_isSpace {c : Char} (h : isSpace c) : c.utf8Size = 1 := by
  simp only [isSpace, isBlank, Bool.or_eq_true, beq_iff_eq] at h
  obtain ((((rfl | rfl) | rfl) | rfl) | rfl) | rfl := h <;> rfl

theorem utf8Size_of_endsWord {c : Char} (h : endsWord c) : c.utf8Size = 1 := by
  simp only [endsWord, Bool.or_eq_true] at h
  obtain hspace | hmeta := h
  . exact utf8Size_of_isSpace hspace
  . simp only [isMetacharacter, Bool.or_eq_true, beq_iff_eq] at hmeta
    obtain (((((rfl | rfl) | rfl) | rfl) | rfl) | rfl) | rfl := hmeta <;> rfl

/-- A comment can open behind a character that ends words. -/
theorem opensComment_of_endsWord {src : Source} {start stop : Nat} (cs : List Char) {c : Char}
    (h : src.Spells start stop (cs ++ [c])) (hc : endsWord c) : opensComment src stop := by
  have hlast := ((spells_append cs).1 h).2
  obtain ⟨ds, _, hrest⟩ := hlast.right.exists_tail?
  have htail := tail?_eq_some_iff.2 (hlast.append hrest)
  have hstop : stop - 1 = start + byteLength cs := by
    rw [hlast.stop_eq, byteLength_cons, utf8Size_of_endsWord hc]
    rfl
  simp [opensComment, char?, hstop, htail, hc]

/-- The result of skipping from an offset: where it ends and the comments on the way. -/
def Found (src : Source) (offset : Nat) (result : Nat × List Span) : Prop :=
  Skips src result.2 offset result.1 ∧ ∀ c ∈ result.2, src.IsComment c

namespace Found

variable {src : Source} {offset middle : Nat} {result : Nat × List Span}

theorem trivia {cs : List Char} (h : src.Spells offset middle cs) (hcs : isTrivia cs)
    (hresult : Found src middle result) : Found src offset result :=
  ⟨.trivia h hcs hresult.1, hresult.2⟩

theorem comment {comment : Span} (h : src.IsComment comment)
    (hresult : Found src comment.stop result) :
    Found src comment.start (result.1, comment :: result.2) := by
  refine ⟨.comment (by simp) h (hresult.1.mono (by simp +contextual)), ?_⟩
  intro c hc
  simp only [List.mem_cons] at hc
  cases hc with
  | inl hc => exact hc ▸ h
  | inr hc => exact hresult.2 c hc

theorem none (h : src.Boundary offset) : Found src offset (offset, []) :=
  ⟨.done h, by simp⟩

end Found

theorem isComment_ofWidth {src : Source} {start : Nat} {body after : List Char}
    (h : src.Spells start src.size ('#' :: body ++ after)) (hbody : '\n' ∉ body)
    (hafter : ∀ c ∈ after.head?, c = '\n') :
    src.IsComment (.ofWidth start (byteLength ('#' :: body))) := by
  obtain ⟨before, rest, htext, hstart, hstop⟩ := h
  refine ⟨before, body, after ++ rest, by simp [htext], hstart, rfl, hbody, ?_⟩
  cases after with
  | cons c after => simpa using hafter
  | nil =>
    have hsize := Source.size_eq_byteLength src
    rw [htext] at hsize
    simp only [byteLength_append] at hsize hstop
    cases rest with
    | nil => simp
    | cons c rest =>
      have := byteLength_pos (List.cons_ne_nil c rest)
      omega

theorem Found.lone {src : Source} {start : Nat} {body after : List Char}
    (h : src.Spells start src.size ('#' :: body ++ after)) (hbody : '\n' ∉ body)
    (hafter : ∀ c ∈ after.head?, c = '\n') :
    Found src start (start + byteLength ('#' :: body),
      [.ofWidth start (byteLength ('#' :: body))]) := by
  have hcomment := isComment_ofWidth h hbody hafter
  obtain ⟨_, hspells, _⟩ := hcomment.spells
  exact .comment hcomment (.none hspells.right)

theorem isSpace_of_rules {rules : Rules} {c : Char}
    (h : isBlank c || (rules.newlines && c == '\n')) : isSpace c := by
  simp only [Bool.or_eq_true, Bool.and_eq_true] at h
  simp only [isSpace, Bool.or_eq_true]
  cases h with
  | inl hblank => exact .inl hblank
  | inr hnewline => exact .inr hnewline.2

theorem skipFrom_found {src : Source} (rules : Rules) (fresh : Bool) (offset : Nat)
    (cs : List Char) (h : src.Spells offset src.size cs) :
    Found src offset (skipFrom rules fresh offset cs) := by
  revert h
  -- inside a comment, `body` is what has been read of it
  apply skipFrom.induct rules
    (fun fresh offset cs =>
      src.Spells offset src.size cs → Found src offset (skipFrom rules fresh offset cs))
    (fun start width cs =>
      ∀ body, src.Spells start src.size ('#' :: body ++ cs) → width = byteLength ('#' :: body) →
        '\n' ∉ body → Found src start (skipComment rules start width cs))
  case case1 =>
    intro fresh offset h
    rw [skipFrom]
    exact .none h.left
  case case2 =>
    intro fresh offset cs ih h
    have h := (spells_append ['\\', '\n']).1 h
    rw [skipFrom]
    exact .trivia h.1 (by decide) (ih h.2)
  case case3 =>
    intro fresh offset cs ih h
    have h := (spells_append ['\\', '\r', '\n']).1 h
    rw [skipFrom]
    exact .trivia h.1 (by decide) (ih h.2)
  case case4 =>
    intro fresh offset c cs hlf hcrlf hskip ih h
    have hspace := isSpace_of_rules hskip
    have h := (spells_append [c]).1 h
    simp only [byteLength_cons, byteLength_nil, utf8Size_of_isSpace hspace] at h
    rw [skipFrom, if_pos hskip]
    . exact .trivia h.1 (isTrivia_singleton hspace) (ih h.2)
    . exact hlf
    . exact hcrlf
  case case5 =>
    intro fresh offset c cs hlf hcrlf hskip hcomment ih h
    rw [skipFrom, if_neg hskip, if_pos hcomment]
    . simp only [Bool.and_eq_true, beq_iff_eq] at hcomment
      obtain ⟨_, rfl⟩ := hcomment
      exact ih [] h rfl (by simp)
    . exact hlf
    . exact hcrlf
  case case6 =>
    intro fresh offset c cs hlf hcrlf hskip hcomment h
    rw [skipFrom, if_neg hskip, if_neg hcomment]
    . exact .none h.left
    . exact hlf
    . exact hcrlf
  case case7 =>
    intro start width body h hwidth hbody
    rw [skipComment, hwidth]
    exact .lone h hbody (by simp)
  case case8 =>
    intro start width c cs hlf hnewlines offset comments hskip ih body h hwidth hbody
    rw [skipComment, if_pos hlf, if_pos hnewlines]
    rw [beq_iff_eq] at hlf
    subst hlf hwidth
    have hcomment := isComment_ofWidth h hbody (by simp)
    have h := (spells_append ('#' :: body)).1 h
    have h := (spells_append ['\n']).1 h.2
    exact .comment hcomment (.trivia h.1 (by decide) (ih h.2))
  case case9 =>
    intro start width c cs hlf hnewlines body h hwidth hbody
    rw [skipComment, if_pos hlf, if_neg hnewlines, hwidth]
    rw [beq_iff_eq] at hlf
    subst hlf
    exact .lone h hbody (by simp)
  case case10 =>
    intro start width c cs hlf ih body h hwidth hbody
    rw [skipComment, if_neg hlf]
    apply ih (body ++ [c])
    . simpa using h
    . simp [hwidth]
      omega
    . simp only [beq_iff_eq] at hlf
      simp [hbody, Ne.symm hlf]

/-- Skipping does not go back. -/
theorem le_skip (rules : Rules) :
    (∀ fresh offset cs, offset ≤ (skipFrom rules fresh offset cs).1) ∧
      ∀ start width cs, start + width ≤ (skipComment rules start width cs).1 := by
  apply skipFrom.mutual_induct rules
  case case6 =>
    intro fresh offset c cs hlf hcrlf hskip hcomment
    refine Nat.le_of_eq ?_
    rw [skipFrom, if_neg hskip, if_neg hcomment]
    . exact hlf
    . exact hcrlf
  all_goals
    intros
    simp_all [skipFrom, skipComment]
    try omega

theorem skip_found {src : Source} {offset : Nat} (h : src.Boundary offset) (rules : Rules) :
    Found src offset (skip src offset rules) := by
  obtain ⟨cs, htail, hspells⟩ := h.exists_tail?
  unfold skip
  rw [htail]
  exact skipFrom_found rules _ offset cs hspells

/-! ### Skipping on a line -/

section

variable {src : Source} {comments : List Span} {start stop : Nat} {rules : Rules}
variable {cs ds : List Char}

theorem isBlank_of_isTrivia (h : isTrivia cs) (hline : '\n' ∉ cs) : ∀ c ∈ cs, isBlank c := by
  fun_induction isTrivia cs with
  | case1 => simp
  | case2 cs ih => simp at hline
  | case3 cs ih => simp at hline
  | case4 c cs _ _ ih =>
    simp only [Bool.and_eq_true, isSpace, Bool.or_eq_true, beq_iff_eq] at h
    simp only [List.mem_cons, not_or] at hline
    simp only [List.mem_cons, forall_eq_or_imp]
    exact ⟨h.1.resolve_right (Ne.symm hline.1), ih h.2 hline.2⟩

theorem skipFrom_blanks (hblank : ∀ c ∈ cs, isBlank c) (offset : Nat) :
    skipFrom rules true offset (cs ++ ds) =
      skipFrom rules true (offset + byteLength cs) ds := by
  induction cs generalizing offset with
  | nil => rfl
  | cons c cs ih =>
    simp only [List.mem_cons, forall_eq_or_imp] at hblank
    have hsize : c.utf8Size = 1 := utf8Size_of_isSpace (by simp [isSpace, hblank.1])
    have hne : c ≠ '\\' := by
      rintro rfl
      simp [isBlank] at hblank
    rw [List.cons_append, skipFrom, if_pos (by simp [hblank.1]), ih hblank.2, byteLength_cons,
      hsize, Nat.add_assoc]
    . simp [hne]
    . simp [hne]

theorem skipComment_line (hline : '\n' ∉ cs) (start width : Nat) :
    (skipComment rules start width cs).1 = start + width + byteLength cs := by
  induction cs generalizing width with
  | nil => rfl
  | cons c cs ih =>
    simp only [List.mem_cons, not_or] at hline
    rw [skipComment, if_neg (by simpa using Ne.symm hline.1), ih hline.2, byteLength_cons]
    omega

/-- What stands between two places of a line is skipped to its end wherever it stands, once a
comment can open. -/
theorem skipFrom_of_skips (hrules : rules.comments) (h : Skips src comments start stop)
    (hstop : stop = src.size) (hcs : src.Spells start src.size cs) (hline : '\n' ∉ cs)
    (offset : Nat) : (skipFrom rules true offset cs).1 = offset + byteLength cs := by
  induction h generalizing cs offset with
  | done =>
    subst hstop
    obtain rfl : cs = [] := hcs.unique boundary_size
    rfl
  | trivia hspells htrivia _ ih =>
    obtain ⟨ds, _, hds⟩ := hspells.right.exists_tail?
    obtain rfl := hcs.unique (hspells.append hds)
    rw [List.mem_append, not_or] at hline
    rw [skipFrom_blanks (isBlank_of_isTrivia htrivia hline.1), ih hstop hds hline.2,
      byteLength_append, Nat.add_assoc]
  | comment _ hcomment =>
    -- the comment ends with the line
    obtain ⟨before, body, after, htext, hstart, hend, hbody, hafter⟩ := hcomment
    have hsize := size_eq_byteLength src
    have hrest : src.Spells _ src.size ('#' :: body ++ after) :=
      ⟨before, [], by simp [htext], hstart, by
        rw [hsize, htext]
        simp only [byteLength_append, List.append_assoc]
        omega⟩
    obtain rfl := hcs.unique hrest
    obtain rfl : after = [] := by
      cases after with
      | nil => rfl
      | cons c after => simp [hafter c rfl] at hline
    rw [List.append_nil, skipFrom, if_neg (by simp [isBlank]), if_pos (by simp [hrules]),
      skipComment_line hbody, byteLength_cons, Nat.add_assoc]
    . rfl
    . simp
    . simp

end

end Trivia

end ShellTree
