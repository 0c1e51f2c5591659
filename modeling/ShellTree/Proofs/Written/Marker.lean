import ShellTree.Proofs.Written.Heredoc

/-!
This module contains markers of here-documents between double quotes. The scanner takes such a
marker up to its closing quote, whatever text is quoted. The delimiter is that text only if nothing
in it needs a backslash, since a backslash between quotes stands for itself there.
-/

namespace ShellTree

/-- The characters that a backslash hides from the end of a marker between double quotes. -/
def isMarkerSpecial (c : Char) : Bool := c == '"' || c == '\\'

def markerOf (d : String) : String :=
  "\"" ++ String.ofList (escape isMarkerSpecial d.toList) ++ "\""

theorem toList_markerOf (d : String) :
    (markerOf d).toList = '"' :: (escape isMarkerSpecial d.toList ++ ['"']) := by
  simp [markerOf]

theorem isMarkerSpecial_eq_false_iff {c : Char} :
    isMarkerSpecial c = false ↔ c ≠ '"' ∧ c ≠ '\\' := by
  simp [isMarkerSpecial]

namespace Lexer

/-- A backslash stands before each quote but the last. -/
theorem heredocMarker_double (cs after : List Char) :
    Lexeme.heredocMarker .double (escape isMarkerSpecial cs ++ '"' :: after) =
      escape isMarkerSpecial cs ++ '"' :: Lexeme.heredocMarker .bare after := by
  induction cs with
  | nil => simp [escape, heredocMarker_cons, Lexeme.Quoting.escapes, Lexeme.Quoting.next]
  | cons c cs ih =>
    cases hc : isMarkerSpecial c with
    | true =>
      rw [escape_of_isSpecial hc, List.cons_append, List.cons_append, Lexeme.heredocMarker.eq_def]
      simp [Lexeme.Quoting.escapes, ih]
    | false =>
      obtain ⟨hquote, hbackslash⟩ := isMarkerSpecial_eq_false_iff.1 hc
      rw [escape_of_not_isSpecial hc, List.cons_append,
        heredocMarker_cons (by simp [hbackslash])]
      simp [Lexeme.Quoting.next, hquote, ih]

theorem heredocMarker_markerOf (d : String) {after : List Char} (hafter : EndsWord after) :
    Lexeme.heredocMarker .bare ((markerOf d).toList ++ after) = (markerOf d).toList := by
  rw [toList_markerOf]
  exact heredocMarker_enclosed (.inr rfl) hafter (heredocMarker_double d.toList after)

end Lexer

namespace Heredoc

/-- What a marker names between its quotes. -/
def named (cs : List Char) : List Char :=
  unquote (some '"') (escape isMarkerSpecial cs ++ ['"'])

theorem named_of_not_isSpecial {c : Char} (hc : isMarkerSpecial c = false) (cs : List Char) :
    named (c :: cs) = c :: named cs := by
  have hquote := (isMarkerSpecial_eq_false_iff.1 hc).1
  unfold named
  rw [escape_of_not_isSpecial hc, List.cons_append, unquote.eq_def]
  simp [hquote]

/-- The quote that a backslash hides from the scanner ends the quotes here. -/
theorem named_quote (cs : List Char) : ∃ rest, named ('"' :: cs) = '\\' :: rest := by
  unfold named
  rw [escape_of_isSpecial rfl, List.cons_append, unquote.eq_def]
  exact ⟨_, rfl⟩

theorem named_backslash (cs : List Char) : named ('\\' :: cs) = '\\' :: '\\' :: named cs := by
  simp [named, escape_of_isSpecial, isMarkerSpecial, unquote]

/-- Once a backslash was taken twice, a backslash of the text is always compared with one before
it. -/
theorem replicate_append_named_ne (n : Nat) (cs : List Char) :
    List.replicate (n + 1) '\\' ++ named cs ≠ cs := by
  induction cs generalizing n with
  | nil => simp
  | cons c cs ih =>
    intro heq
    rw [List.replicate_succ, List.cons_append] at heq
    obtain ⟨rfl, hrest⟩ := List.cons.inj heq
    rw [named_backslash] at hrest
    apply ih (n + 1)
    rw [List.replicate_succ', List.replicate_succ']
    simpa using hrest

theorem named_eq_iff (cs : List Char) :
    named cs = cs ↔ ∀ c ∈ cs, isMarkerSpecial c = false := by
  induction cs with
  | nil => simp [named, escape, unquote]
  | cons c cs ih =>
    rw [List.forall_mem_cons]
    cases hc : isMarkerSpecial c with
    | false =>
      rw [named_of_not_isSpecial hc, List.cons.injEq, ih]
      simp
    | true =>
      suffices h : named (c :: cs) ≠ c :: cs by simpa using h
      intro heq
      by_cases hquote : c = '"'
      . subst hquote
        obtain ⟨rest, hnamed⟩ := named_quote cs
        rw [hnamed] at heq
        simp at heq
      . obtain rfl : c = '\\' := by simpa [isMarkerSpecial, hquote] using hc
        rw [named_backslash] at heq
        exact replicate_append_named_ne 0 cs (List.cons.inj heq).2

/-- What a marker between double quotes asks for. -/
theorem ofMarker_markerOf (d : String) (stripTabs : Bool) (start : Nat) :
    Request.ofMarker (markerOf d) stripTabs start =
      ⟨String.ofList (named d.toList), stripTabs, true, start⟩ := by
  have hdelimiter : unquote none (markerOf d).toList = named d.toList := by
    rw [toList_markerOf, unquote.eq_def]
    rfl
  have hquoted : isQuoted (markerOf d).toList = true := by
    rw [toList_markerOf]
    rfl
  unfold Request.ofMarker
  rw [hdelimiter, hquoted]

end Heredoc

/-- The marker of any text is read up to its closing quote. It names that text exactly where the
text has neither double quotes nor backslashes. -/
theorem nextHeredocMarker_markerOf (d rest : String) :
    Lexer.nextHeredocMarker (.ofString (markerOf d ++ "\n" ++ rest)) 0 =
        (some ⟨.word, .ofWidth 0 (markerOf d).utf8ByteSize, markerOf d, true⟩, []) ∧
      ∀ stripTabs start,
        (Heredoc.Request.ofMarker (markerOf d) stripTabs start).quoted = true ∧
          ((Heredoc.Request.ofMarker (markerOf d) stripTabs start).delimiter = d ↔
            ∀ c ∈ d.toList, c ≠ '"' ∧ c ≠ '\\') := by
  constructor
  . have htail : (Source.ofString (markerOf d ++ "\n" ++ rest)).tail? 0 =
        some ((markerOf d).toList ++ '\n' :: rest.toList) := by
      rw [Source.tail?_eq]
      simp [Source.ofString, tailAt?]
    have hsolid : (markerOf d).toList.head?.any Lexer.isSolid := by
      rw [toList_markerOf]
      rfl
    refine Lexer.nextHeredocMarker_of_marker htail hsolid (Lexer.heredocMarker_markerOf d ?_)
    intro c hc
    obtain rfl : '\n' = c := by simpa using hc
    rfl
  . intro stripTabs start
    rw [Heredoc.ofMarker_markerOf]
    refine ⟨rfl, ?_⟩
    rw [← String.toList_inj, String.toList_ofList, Heredoc.named_eq_iff]
    simp only [isMarkerSpecial_eq_false_iff]

/-- The delimiter of the marker of a text with a double quote has the backslash in its place. -/
theorem ofMarker_markerOf_quote :
    markerOf "a\"b" = "\"a\\\"b\"" ∧
      (Heredoc.Request.ofMarker (markerOf "a\"b") false 0).delimiter = "a\\b" ∧
      (Heredoc.Request.ofMarker (markerOf "a\"b") false 0).delimiter ≠ "a\"b" := by
  decide +kernel

end ShellTree
