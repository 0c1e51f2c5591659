import ShellTree.Proofs.Heredoc

/-!
This module contains the lines that end the bodies of here-documents: a body goes up to the first
line that is the delimiter.
-/

namespace ShellTree
namespace Heredoc

variable {request : Request} {src : Source} {start : Nat} {cs line : List Char}
variable {before after : List (List Char)}

/-! ### Lines -/

/-- What stands between the line feeds of a text. Behind the last of them there is a line only if
there is something. -/
def linesBetween (cs : List Char) : List (List Char) :=
  let parts := cs.splitOn '\n'
  if parts.getLast? = some [] then parts.dropLast else parts

/-- The text of complete lines. -/
def unlines (lines : List (List Char)) : List Char := lines.flatMap (· ++ ['\n'])

/-- The line without the tabs that do not count. -/
def Request.afterTabs (request : Request) (line : List Char) : List Char :=
  if request.stripTabs then line.dropWhile (· == '\t') else line

/-- The number of tabs that do not count. -/
def Request.tabsBefore (request : Request) (line : List Char) : Nat :=
  if request.stripTabs then (line.takeWhile (· == '\t')).length else 0

/-- The line is the delimiter, or the delimiter and one carriage return. A carriage return at the
end is never a part of what is compared. -/
def Request.IsDelimiterLine (request : Request) (line : List Char) : Prop :=
  request.afterTabs line = request.delimiter.toList ++ ['\r'] ∨
    request.afterTabs line = request.delimiter.toList ∧
      request.delimiter.toList.getLast? ≠ some '\r'

instance (request : Request) (line : List Char) : Decidable (request.IsDelimiterLine line) :=
  inferInstanceAs (Decidable (_ ∨ _))

theorem lines_append (h : '\n' ∉ line) (cs : List Char) :
    lines (line ++ '\n' :: cs) = line :: lines cs := by
  induction line with
  | nil => rfl
  | cons c line ih =>
    simp only [List.mem_cons, not_or] at h
    have hc : c ≠ '\n' := Ne.symm h.1
    simp [lines, hc, ih h.2]

theorem linesBetween_append (h : '\n' ∉ line) (cs : List Char) :
    linesBetween (line ++ '\n' :: cs) = line :: linesBetween cs := by
  have hsplit : (line ++ '\n' :: cs).splitOn '\n' = line :: cs.splitOn '\n' := by
    apply List.splitOnP_append_cons_of_forall_mem
    . intro c hc
      rw [beq_eq_false_iff_ne]
      rintro rfl
      exact h hc
    . exact beq_self_eq_true '\n'
  obtain ⟨part, parts, hparts⟩ := List.exists_cons_of_ne_nil (List.splitOn_ne_nil '\n' cs)
  unfold linesBetween
  rw [hsplit, hparts]
  simp only [List.getLast?_cons_cons, List.dropLast_cons_cons]
  split <;> rfl

theorem linesBetween_eq_singleton (h : '\n' ∉ cs) (hne : cs ≠ []) : linesBetween cs = [cs] := by
  have hsplit : cs.splitOn '\n' = [cs] := by
    apply List.splitOnP_eq_singleton
    intro c hc
    rw [beq_eq_false_iff_ne]
    rintro rfl
    exact h hc
  unfold linesBetween
  rw [hsplit]
  simp [hne]

theorem lines_eq_singleton (h : '\n' ∉ cs) (hne : cs ≠ []) : lines cs = [cs] := by
  obtain rfl | hone | ⟨line, rest, rfl, -⟩ := lines_cases cs
  . exact absurd rfl hne
  . exact hone
  . exact absurd (by simp) h

theorem lines_eq_linesBetween (cs : List Char) : lines cs = linesBetween cs := by
  by_cases hmem : '\n' ∈ cs
  . obtain ⟨line, rest, hcs, hline⟩ := List.eq_append_cons_of_mem hmem
    have hlt : rest.length < cs.length := by
      rw [hcs, List.length_append, List.length_cons]
      omega
    rw [hcs, lines_append hline, linesBetween_append hline, lines_eq_linesBetween rest]
  . by_cases hnil : cs = []
    . subst hnil
      rfl
    . rw [lines_eq_singleton hmem hnil, linesBetween_eq_singleton hmem hnil]
termination_by cs.length

theorem lines_unlines_append (h : ∀ line ∈ before, '\n' ∉ line) (cs : List Char) :
    lines (unlines before ++ cs) = before ++ lines cs := by
  induction before with
  | nil => rfl
  | cons line before ih =>
    obtain ⟨hline, hbefore⟩ := List.forall_mem_cons.1 h
    have hsplit : unlines (line :: before) ++ cs = line ++ '\n' :: (unlines before ++ cs) := by
      simp [unlines]
    rw [hsplit, lines_append hline, ih hbefore, List.cons_append]

/-- A text that ends with a line feed is its lines. -/
theorem exists_eq_unlines {cs : List Char} (h : cs = [] ∨ cs.getLast? = some '\n') :
    ∃ before, (∀ line ∈ before, '\n' ∉ line) ∧ cs = unlines before := by
  obtain rfl | hlast := h
  . exact ⟨[], by simp, rfl⟩
  . obtain ⟨line, rest, hcs, hline⟩ := List.eq_append_cons_of_mem (List.mem_of_getLast? hlast)
    have hlt : rest.length < cs.length := by
      rw [hcs, List.length_append, List.length_cons]
      omega
    have hrest : rest = [] ∨ rest.getLast? = some '\n' := by
      rw [hcs] at hlast
      cases rest with
      | nil => exact .inl rfl
      | cons c rest => exact .inr (by simpa [List.getLast?_append, List.getLast?_cons] using hlast)
    obtain ⟨before, hbefore, heq⟩ := exists_eq_unlines hrest
    exact ⟨line :: before, List.forall_mem_cons.2 ⟨hline, hbefore⟩, by simp [hcs, heq, unlines]⟩
termination_by cs.length

/-- What stands before a line is the lines before it. -/
theorem eq_unlines_append (h : lines cs = before ++ line :: after) :
    ∃ rest, cs = unlines before ++ (line ++ rest) := by
  induction before generalizing cs with
  | nil =>
    obtain rfl | hone | ⟨first, rest, rfl, hlines⟩ := lines_cases cs
    . simp [lines] at h
    . rw [hone] at h
      obtain ⟨rfl, -⟩ := List.cons.inj h
      exact ⟨[], by simp [unlines]⟩
    . rw [hlines] at h
      obtain ⟨rfl, -⟩ := List.cons.inj h
      exact ⟨'\n' :: rest, rfl⟩
  | cons first before ih =>
    obtain rfl | hone | ⟨first', rest, rfl, hlines⟩ := lines_cases cs
    . simp [lines] at h
    . simp [hone] at h
    . rw [hlines] at h
      obtain ⟨rfl, hrest⟩ := List.cons.inj h
      obtain ⟨rest', rfl⟩ := ih hrest
      exact ⟨rest', by simp [unlines]⟩

/-! ### The first delimiter -/

theorem withoutReturn_eq_iff {line text : List Char} :
    withoutReturn line = text ↔
      line = text ++ ['\r'] ∨ line = text ∧ text.getLast? ≠ some '\r' := by
  unfold withoutReturn
  constructor
  . intro h
    split at h
    . next hlast =>
      obtain ⟨kept, rfl⟩ := List.getLast?_eq_some_iff.1 (beq_iff_eq.1 hlast)
      rw [List.dropLast_concat] at h
      exact .inl (h ▸ rfl)
    . next hlast =>
      subst h
      exact .inr ⟨rfl, by simpa using hlast⟩
  . rintro (rfl | ⟨rfl, hlast⟩)
    . simp
    . simp [hlast]

theorem candidate_snd_eq_iff (request : Request) (line : List Char) :
    (candidate request.stripTabs line).2 = request.delimiter.toList ↔
      request.IsDelimiterLine line := by
  have hcandidate : (candidate request.stripTabs line).2 =
      withoutReturn (request.afterTabs line) := by
    unfold candidate Request.afterTabs
    split <;> rfl
  rw [hcandidate, withoutReturn_eq_iff]
  rfl

theorem candidate_fst (request : Request) (line : List Char) :
    (candidate request.stripTabs line).1 = request.tabsBefore line := by
  unfold candidate Request.tabsBefore
  split <;> rfl

/-- Lines that are no delimiters are passed over. -/
theorem delimiterLine?_append_of_not (h : ∀ line ∈ before, ¬ request.IsDelimiterLine line)
    (start : Nat) (after : List (List Char)) :
    delimiterLine? request start (before ++ after) =
      delimiterLine? request (start + byteLength (unlines before)) after := by
  induction before generalizing start with
  | nil => rfl
  | cons line before ih =>
    obtain ⟨hline, hbefore⟩ := List.forall_mem_cons.1 h
    rw [← candidate_snd_eq_iff] at hline
    rw [List.cons_append, delimiterLine?]
    simp only [beq_iff_eq, hline, if_false]
    rw [ih hbefore]
    congr 1
    simp [unlines, show '\n'.utf8Size = 1 from rfl]
    omega

theorem delimiterLine?_of_isDelimiterLine (h : request.IsDelimiterLine line) (start : Nat)
    (after : List (List Char)) :
    delimiterLine? request start (line :: after) =
      some (start, .ofWidth (start + request.tabsBefore line) request.delimiter.utf8ByteSize) := by
  rw [← candidate_snd_eq_iff] at h
  rw [delimiterLine?]
  simp only [h, candidate_fst, beq_self_eq_true, if_true, utf8ByteSize_eq_byteLength]

theorem scanBody_of_delimiterLine? (htail : src.tail? start = some cs) {place : Nat}
    {delimiter : Span} (hle : start ≤ place)
    (h : delimiterLine? request start (lines cs) = some (place, delimiter)) :
    scanBody src start request = .ok ⟨⟨start, place, hle⟩, some delimiter⟩ := by
  unfold scanBody Span.between
  simp only [htail, h, hle, dite_true]
  rfl

theorem scanBody_of_none (htail : src.tail? start = some cs) (hle : start ≤ src.size)
    (h : delimiterLine? request start (lines cs) = none) :
    scanBody src start request = .ok ⟨⟨start, src.size, hle⟩, none⟩ := by
  unfold scanBody Span.between
  simp only [htail, h, hle, dite_true]
  rfl

theorem spells_delimiter (h : request.IsDelimiterLine line) {stop : Nat}
    (hline : src.Spells start stop line) :
    src.Spells (start + request.tabsBefore line)
      (start + request.tabsBefore line + request.delimiter.utf8ByteSize)
      request.delimiter.toList := by
  obtain ⟨tabs, after, heq, -, hlen⟩ := candidate_eq request.stripTabs line
  rw [(candidate_snd_eq_iff request line).2 h] at heq
  rw [candidate_fst] at hlen
  rw [heq, List.append_assoc] at hline
  have hafter := ((Source.spells_append tabs).1 hline).2
  rw [hlen] at hafter
  rw [utf8ByteSize_eq_byteLength]
  exact hafter.trim _ (List.prefix_append _ _)

/-- The body runs up to the first line that is the delimiter, and to the end of the text where there
is none. Reading goes on behind what the body ends with. -/
theorem scanBody_first_delimiter (request : Request) (htail : src.tail? start = some cs) :
    (∀ before line after, linesBetween cs = before ++ line :: after →
      (∀ other ∈ before, ¬ request.IsDelimiterLine other) → request.IsDelimiterLine line →
      ∃ body delimiter, scanBody src start request = .ok ⟨body, some delimiter⟩ ∧
        body.start = start ∧ body.stop = start + byteLength (unlines before) ∧
        src.textOf? body = some (String.ofList (unlines before)) ∧
        delimiter.start = body.stop + request.tabsBefore line ∧
        src.textOf? delimiter = some request.delimiter ∧
        Extent.resumeAt ⟨body, some delimiter⟩ = delimiter.stop) ∧
    ((∀ line ∈ linesBetween cs, ¬ request.IsDelimiterLine line) →
      ∃ body, scanBody src start request = .ok ⟨body, none⟩ ∧
        body.start = start ∧ body.stop = src.size ∧
        Extent.resumeAt ⟨body, none⟩ = src.size) := by
  have hspells := Source.tail?_eq_some_iff.1 htail
  rw [← lines_eq_linesBetween]
  constructor
  . intro before line after hlines hbefore hline
    obtain ⟨rest, hcs⟩ := eq_unlines_append hlines
    rw [hcs] at hspells
    obtain ⟨hbody, hrest⟩ := (Source.spells_append _).1 hspells
    have hdelimiter := spells_delimiter hline ((Source.spells_append line).1 hrest).1
    have hfound : delimiterLine? request start (lines cs) =
        some (start + byteLength (unlines before),
          .ofWidth (start + byteLength (unlines before) + request.tabsBefore line)
            request.delimiter.utf8ByteSize) := by
      rw [hlines, delimiterLine?_append_of_not hbefore,
        delimiterLine?_of_isDelimiterLine hline]
    refine ⟨_, _, scanBody_of_delimiterLine? htail hbody.le hfound, rfl, rfl, ?_, rfl, ?_, rfl⟩
    . exact hbody.slice?
    . exact hdelimiter.textOf?_eq
  . intro hnone
    have hnone' : delimiterLine? request start (lines cs) = none := by
      have := delimiterLine?_append_of_not hnone start []
      rwa [List.append_nil] at this
    exact ⟨_, scanBody_of_none htail hspells.le hnone', rfl, rfl, rfl⟩

/-- Tabs and one carriage return around the delimiter do not count, and what comes behind its line
is left. -/
theorem scanBody_tabs_return :
    let src := Source.ofString "a\n\tx\n\t\tE\r\nE"
    let request : Request := ⟨"E", true, false, 0⟩
    src.tail? 2 = some "\tx\n\t\tE\r\nE".toList ∧
      ∃ body delimiter, scanBody src 2 request = .ok ⟨body, some delimiter⟩ ∧
        body.start = 2 ∧ body.stop = 5 ∧ src.textOf? body = some "\tx\n" ∧
        delimiter.start = body.stop + 2 ∧ src.textOf? delimiter = some "E" ∧
        Extent.resumeAt ⟨body, some delimiter⟩ = delimiter.stop := by
  intro src request
  have htail : src.tail? 2 = some "\tx\n\t\tE\r\nE".toList := by decide
  refine ⟨htail, ?_⟩
  exact (scanBody_first_delimiter request htail).1 ["\tx".toList] "\t\tE\r".toList ["E".toList]
    (by decide) (by decide) (by decide)

end Heredoc
end ShellTree
