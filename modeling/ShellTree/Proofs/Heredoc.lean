import ShellTree.Heredoc
import ShellTree.Proofs.Trivia

/-!
This module contains where the bodies of here-documents lie. A body ends where a line starts, and
what is skipped can be divided there, since no comment goes on over a line feed.
-/

namespace ShellTree

/-- A line starts at the offset, or the text ends there. -/
def Source.LineStart (src : Source) (offset : Nat) : Prop :=
  offset = src.size ∨ ∃ place, src.Spells place offset ['\n']

namespace Source

variable {src : Source} {start stop place offset : Nat}

theorem LineStart.boundary (h : src.LineStart offset) : src.Boundary offset := by
  cases h with
  | inl h => exact h ▸ boundary_size
  | inr h =>
    obtain ⟨_, h⟩ := h
    exact h.right

theorem Spells.split_newline {cs : List Char} (h : src.Spells start stop cs)
    (hnewline : src.Spells place offset ['\n']) (hstart : start < offset) (hstop : offset ≤ stop) :
    ∃ before after, cs = before ++ '\n' :: after ∧ src.Spells start offset (before ++ ['\n']) ∧
      src.Spells offset stop after := by
  have hwidth := hnewline.stop_eq
  have hsize : byteLength ['\n'] = 1 := rfl
  obtain ⟨before, hbefore⟩ := h.left.exists_spells hnewline.left (by omega)
  obtain ⟨after, hafter⟩ := hnewline.right.exists_spells h.right hstop
  refine ⟨before, after, ?_, hbefore.append hnewline, hafter⟩
  have hall := (hbefore.append hnewline).append hafter
  rw [h.unique hall]
  simp

theorem LineStart.split (hline : src.LineStart offset) {cs : List Char}
    (h : src.Spells start stop cs) (hstart : start < offset) (hstop : offset < stop) :
    ∃ before after, cs = before ++ '\n' :: after ∧ src.Spells start offset (before ++ ['\n']) ∧
      src.Spells offset stop after := by
  cases hline with
  | inl hsize =>
    have hle := h.stop_le_size
    omega
  | inr hnewline =>
    obtain ⟨place, hnewline⟩ := hnewline
    exact h.split_newline hnewline hstart (Nat.le_of_lt hstop)

end Source

theorem Trivia.isTrivia_split {before after : List Char} (h : isTrivia (before ++ '\n' :: after)) :
    isTrivia (before ++ ['\n']) ∧ isTrivia after := by
  generalize hcs : before ++ '\n' :: after = cs at h
  induction cs using isTrivia.induct generalizing before with
  | case1 => simp at hcs
  | case2 cs ih =>
    match before, hcs with
    | [_], hcs =>
      simp only [List.cons_append, List.nil_append, List.cons.injEq] at hcs
      obtain ⟨rfl, -, rfl⟩ := hcs
      exact ⟨rfl, h⟩
    | _ :: _ :: before, hcs =>
      simp only [List.cons_append, List.cons.injEq] at hcs
      obtain ⟨rfl, rfl, hcs⟩ := hcs
      have := ih hcs h
      exact this
  | case3 cs ih =>
    match before, hcs with
    | [_, _], hcs =>
      simp only [List.cons_append, List.nil_append, List.cons.injEq] at hcs
      obtain ⟨rfl, rfl, -, rfl⟩ := hcs
      exact ⟨rfl, h⟩
    | _ :: _ :: _ :: before, hcs =>
      simp only [List.cons_append, List.cons.injEq] at hcs
      obtain ⟨rfl, rfl, rfl, hcs⟩ := hcs
      have := ih hcs h
      exact this
  | case4 c cs hlf hcrlf ih =>
    rw [isTrivia] at h
    . simp only [Bool.and_eq_true] at h
      cases before with
      | nil =>
        simp only [List.nil_append, List.cons.injEq] at hcs
        obtain ⟨rfl, rfl⟩ := hcs
        exact ⟨rfl, h.2⟩
      | cons d before =>
        simp only [List.cons_append, List.cons.injEq] at hcs
        obtain ⟨rfl, rfl⟩ := hcs
        obtain ⟨hbefore, hafter⟩ := ih rfl h.2
        exact ⟨isTrivia_cons h.1 hbefore, hafter⟩
    . exact hlf
    . exact hcrlf

theorem Skips.cut {src : Source} {comments : List Span} {start stop offset : Nat}
    (h : Skips src comments start stop) (hline : src.LineStart offset) (hstart : start ≤ offset)
    (hstop : offset ≤ stop) :
    Skips src comments start offset ∧ Skips src comments offset stop := by
  induction h with
  | done hb =>
    obtain rfl := Nat.le_antisymm hstart hstop
    exact ⟨.done hb, .done hb⟩
  | @trivia start middle stop cs hspells htrivia hrest ih =>
    by_cases hmiddle : middle ≤ offset
    . obtain ⟨hleft, hright⟩ := ih hmiddle hstop
      exact ⟨.trivia hspells htrivia hleft, hright⟩
    . by_cases heq : start = offset
      . subst heq
        exact ⟨.done hspells.left, .trivia hspells htrivia hrest⟩
      . obtain ⟨before, after, rfl, hbefore, hafter⟩ := hline.split hspells (by omega) (by omega)
        obtain ⟨htbefore, htafter⟩ := Trivia.isTrivia_split htrivia
        exact ⟨.of_spells hbefore htbefore, .trivia hafter htafter hrest⟩
  | @comment comment stop hmem hcomment hrest ih =>
    by_cases hmiddle : comment.stop ≤ offset
    . obtain ⟨hleft, hright⟩ := ih hmiddle hstop
      exact ⟨.comment hmem hcomment hleft, hright⟩
    . by_cases heq : comment.start = offset
      . subst heq
        obtain ⟨_, hspells, _⟩ := hcomment.spells
        exact ⟨.done hspells.left, .comment hmem hcomment hrest⟩
      . -- the line feed before the offset would be a character of the comment
        obtain ⟨body, hspells, hbody⟩ := hcomment.spells
        obtain ⟨before, after, heq, _, _⟩ := hline.split hspells (by omega) (by omega)
        have hmem : '\n' ∈ '#' :: body := by simp [heq]
        simp [hbody] at hmem

namespace Heredoc

open Source

/-- The lines of a text are its first line, up to a line feed or the end, and the lines after it. -/
theorem lines_cases (cs : List Char) :
    cs = [] ∨ lines cs = [cs] ∨ ∃ line rest, cs = line ++ '\n' :: rest ∧
      lines cs = line :: lines rest := by
  induction cs with
  | nil => exact .inl rfl
  | cons c cs ih =>
    right
    by_cases hc : c = '\n'
    . right
      exact ⟨[], cs, by simp [hc], by simp [lines, hc]⟩
    . obtain rfl | hone | ⟨line, rest, rfl, hlines⟩ := ih
      . left
        simp [lines, hc]
      . left
        simp [lines, hc, hone]
      . right
        exact ⟨c :: line, rest, rfl, by rw [lines, hlines]; simp [hc]⟩

theorem withoutReturn_isPrefix (line : List Char) : withoutReturn line <+: line := by
  unfold withoutReturn
  split
  . apply List.dropLast_prefix
  . exact List.prefix_refl line

theorem tabs_isTrivia {tabs : List Char} (h : ∀ c ∈ tabs, c = '\t') :
    Trivia.isTrivia tabs ∧ byteLength tabs = tabs.length := by
  induction tabs with
  | nil => exact ⟨rfl, rfl⟩
  | cons c tabs ih =>
    simp only [List.mem_cons, forall_eq_or_imp] at h
    obtain ⟨htrivia, hlen⟩ := ih h.2
    rw [h.1]
    refine ⟨Trivia.isTrivia_cons rfl htrivia, ?_⟩
    simp only [byteLength_cons, hlen, List.length_cons]
    exact Nat.add_comm _ _

theorem candidate_eq (stripTabs : Bool) (line : List Char) :
    ∃ tabs after, line = tabs ++ (candidate stripTabs line).2 ++ after ∧
      Trivia.isTrivia tabs ∧ byteLength tabs = (candidate stripTabs line).1 := by
  cases stripTabs with
  | false =>
    obtain ⟨after, hafter⟩ := withoutReturn_isPrefix line
    exact ⟨[], after, by simp [candidate, hafter], rfl, rfl⟩
  | true =>
    obtain ⟨after, hafter⟩ := withoutReturn_isPrefix (line.dropWhile (· == '\t'))
    refine ⟨line.takeWhile (· == '\t'), after, ?_, ?_⟩
    . simp only [candidate, if_true]
      rw [List.append_assoc, hafter, List.takeWhile_append_dropWhile]
    . have htabs : ∀ c ∈ line.takeWhile (· == '\t'), c = '\t' := by
        intro c hc
        simpa using List.all_eq_true.1 (List.all_takeWhile (p := (· == '\t'))) c hc
      exact tabs_isTrivia htabs

structure DelimiterAt (src : Source) (request : Request) (line : Nat) (delimiter : Span) :
    Prop where
  skips : Skips src [] line delimiter.start
  spells : src.Spells delimiter.start delimiter.stop request.delimiter.toList

theorem delimiterLine?_delimiterAt {src : Source} (request : Request) {start : Nat}
    {cs : List Char} (h : src.Spells start src.size cs) :
    ∀ result ∈ delimiterLine? request start (lines cs),
      (result.1 = start ∨ src.LineStart result.1) ∧ start ≤ result.1 ∧
        DelimiterAt src request result.1 result.2 := by
  have hcandidate : ∀ line, line <+: cs →
      (candidate request.stripTabs line).2 == request.delimiter.toList →
      DelimiterAt src request start (.ofWidth (start + (candidate request.stripTabs line).1)
        (byteLength (candidate request.stripTabs line).2)) := by
    intro line hline htext
    rw [beq_iff_eq] at htext
    obtain ⟨tabs, after, heq, htabs, hlen⟩ := candidate_eq request.stripTabs line
    have hspells := h.trim line hline
    rw [heq] at hspells
    have hspells := (spells_append tabs).1 ((spells_append (tabs ++ _)).1 hspells).1
    rw [hlen] at hspells
    have htrimmed := hspells.2.trim _ (List.prefix_refl _)
    exact ⟨.of_spells hspells.1 htabs, htext ▸ htrimmed⟩
  intro result hresult
  obtain rfl | hone | ⟨line, rest, hcs, hlines⟩ := lines_cases cs
  . simp [lines, delimiterLine?] at hresult
  . rw [hone] at hresult
    unfold delimiterLine? at hresult
    dsimp only at hresult
    split at hresult
    . next htext =>
      cases hresult
      exact ⟨.inl rfl, Nat.le_refl start, hcandidate cs (List.prefix_refl cs) htext⟩
    . simp [delimiterLine?] at hresult
  . rw [hlines] at hresult
    unfold delimiterLine? at hresult
    dsimp only at hresult
    split at hresult
    . next htext =>
      cases hresult
      exact ⟨.inl rfl, Nat.le_refl start, hcandidate line ⟨_, hcs.symm⟩ htext⟩
    . have hlt : rest.length < cs.length := by
        simp only [hcs, List.length_append, List.length_cons]
        omega
      rw [hcs] at h
      have hsplit := (spells_append line).1 h
      have hrest := (spells_append ['\n']).1 hsplit.2
      have hsize : byteLength ['\n'] = 1 := rfl
      rw [hsize] at hrest
      obtain ⟨hline, hle, hdelimiter⟩ := delimiterLine?_delimiterAt request hrest.2 result hresult
      refine ⟨.inr ?_, by omega, hdelimiter⟩
      cases hline with
      | inl hline => exact .inr ⟨_, hline ▸ hrest.1⟩
      | inr hline => exact hline
termination_by cs.length

structure Extent.Fits (src : Source) (start : Nat) (request : Request) (extent : Extent) :
    Prop where
  start_eq : extent.body.start = start
  stop_eq : extent.body.stop = start ∨ src.LineStart extent.body.stop
  delimiter : ∀ span ∈ extent.delimiter, DelimiterAt src request extent.body.stop span

namespace Extent.Fits

variable {src : Source} {start : Nat} {request : Request} {extent : Extent}

theorem start_le (h : extent.Fits src start request) : start ≤ extent.body.stop := by
  have hle := extent.body.start_le_stop
  rwa [h.start_eq] at hle

theorem boundary_stop (h : extent.Fits src start request) (hstart : src.Boundary start) :
    src.Boundary extent.body.stop := by
  cases h.stop_eq with
  | inl heq => exact heq ▸ hstart
  | inr hline => exact hline.boundary

end Extent.Fits

theorem scanBody_fits {src : Source} {start : Nat} (h : src.Boundary start) (request : Request) :
    ∃ extent, scanBody src start request = .ok extent ∧ extent.Fits src start request := by
  obtain ⟨cs, htail, hspells⟩ := h.exists_tail?
  unfold scanBody
  simp only [htail]
  have hdelimiter := delimiterLine?_delimiterAt request hspells
  cases hline : delimiterLine? request start (lines cs) with
  | none =>
    refine ⟨⟨⟨start, src.size, h.le_size⟩, none⟩, ?_, rfl, .inr (.inl rfl), by simp⟩
    simp only [Span.between, h.le_size, dite_true]
    rfl
  | some result =>
    obtain ⟨line, delimiter⟩ := result
    obtain ⟨hstop, hle, hat⟩ := hdelimiter _ hline
    simp only at hstop hle hat
    refine ⟨⟨⟨start, line, hle⟩, some delimiter⟩, ?_, rfl, hstop, by simpa using hat⟩
    simp only [Span.between, hle, dite_true]
    rfl

end Heredoc

end ShellTree
