import ShellTree.Diagnostic
import ShellTree.Lexer
import ShellTree.Proofs.Behind.Moves
import ShellTree.Proofs.Text

/-!
This module contains what a text behind another has in common with itself: the characters and tokens
are the same, at moved offsets. Behind a line the reports are the same as well.
-/

namespace ShellTree

/-- The inner source is what is left of the outer behind the text before. Where it begins, a `#`
opens a comment in both, or there is no `#`. -/
structure Source.Behind (before : List Char) (inner outer : Source) : Prop where
  text_eq : outer.text.toList = before ++ inner.text.toList
  fresh : Trivia.opensComment outer (byteLength before) ∨ inner.text.toList.head? = some '('

/-- The text before is nothing or ends a line. -/
def EndsLine (before : List Char) : Prop := before = [] ∨ ∃ front, before = front ++ ['\n']

/-- The report of a text behind another. -/
def Diagnostic.behind (before : List Char) (diagnostic : Diagnostic) : Diagnostic :=
  { diagnostic with
    span := moved (byteLength before) diagnostic.span
    line := diagnostic.line + before.count '\n' }

theorem tailAt?_append_add (before after : List Char) (n : Nat) :
    tailAt? (before ++ after) (n + byteLength before) = tailAt? after n := by
  induction before with
  | nil => rfl
  | cons c cs ih =>
    have := c.utf8Size_pos
    obtain ⟨m, hm⟩ : ∃ m, n + (c.utf8Size + byteLength cs) = m + 1 :=
      ⟨_, (Nat.succ_pred_eq_of_pos (by omega)).symm⟩
    rw [List.cons_append, byteLength_cons, hm, tailAt?, if_pos (by omega), ← ih]
    congr 1
    omega

theorem Source.lineColumn.go_append (before after : List Char)
    {offset place line lineStart : Nat} (hplace : place + byteLength before ≤ offset) :
    ∃ lineStart', go offset (before ++ after) place line lineStart =
      go offset after (place + byteLength before) (line + before.count '\n') lineStart' := by
  induction before generalizing place line lineStart with
  | nil => exact ⟨lineStart, by simp⟩
  | cons c cs ih =>
    have hpos := c.utf8Size_pos
    rw [byteLength_cons] at hplace
    rw [List.cons_append, go, if_neg (by omega)]
    split
    . next hc =>
      rw [beq_iff_eq] at hc
      subst hc
      have hsize : '\n'.utf8Size = 1 := rfl
      obtain ⟨lineStart', heq⟩ :=
        @ih (place + 1) (line + 1) (place + 1) (by omega)
      refine ⟨lineStart', ?_⟩
      rw [heq, List.count_cons_self, byteLength_cons, hsize]
      congr 1 <;> omega
    . next hc =>
      obtain ⟨lineStart', heq⟩ :=
        @ih (place + c.utf8Size) line lineStart (by omega)
      refine ⟨lineStart', ?_⟩
      rw [heq, List.count_cons_of_ne (by simpa using hc), byteLength_cons]
      congr 1
      omega

theorem Source.lineColumn.go_moved (cs : List Char)
    (offset place line lineStart width lines : Nat) :
    go (offset + width) cs (place + width) (line + lines) (lineStart + width) =
      ((go offset cs place line lineStart).1 + lines, (go offset cs place line lineStart).2) := by
  induction cs generalizing place line lineStart with
  | nil =>
    rw [go, go, Nat.add_sub_add_right]
  | cons c cs ih =>
    simp only [go, Nat.add_le_add_iff_right]
    split
    . rw [Nat.add_sub_add_right]
    . split
      . rw [← ih, Nat.add_right_comm, Nat.add_right_comm line]
      . rw [← ih, Nat.add_right_comm]

namespace Source.Behind

variable {before : List Char} {inner outer : Source}

theorem size_eq (h : Behind before inner outer) : outer.size = inner.size + byteLength before := by
  rw [size_eq_byteLength, size_eq_byteLength, h.text_eq, byteLength_append, Nat.add_comm]

theorem tail?_eq (h : Behind before inner outer) (offset : Nat) :
    outer.tail? (offset + byteLength before) = inner.tail? offset := by
  rw [Source.tail?_eq, Source.tail?_eq, h.text_eq, tailAt?_append_add]

theorem char?_eq (h : Behind before inner outer) (offset : Nat) :
    outer.char? (offset + byteLength before) = inner.char? offset := by
  rw [char?, char?, h.tail?_eq]

theorem nextBoundary_eq (h : Behind before inner outer) (offset : Nat) :
    outer.nextBoundary (offset + byteLength before) =
      inner.nextBoundary offset + byteLength before := by
  have htail : ∀ n, outer.tail? (offset + byteLength before + n) = inner.tail? (offset + n) := by
    intro n
    rw [← h.tail?_eq]
    congr 1
    omega
  unfold nextBoundary
  simp only [h.tail?_eq, htail, h.size_eq, ge_iff_le, Nat.add_le_add_iff_right]
  split
  . rfl
  . split
    . omega
    . split <;> omega

/-- Only before a parenthesis it may be that a `#` would open a comment in one of the two. -/
theorem opensComment_eq_or (h : Behind before inner outer) (offset : Nat) :
    Trivia.opensComment outer (offset + byteLength before) = Trivia.opensComment inner offset ∨
      ∃ cs, inner.tail? offset = some ('(' :: cs) := by
  cases offset with
  | succ n =>
    have hsub : n + 1 + byteLength before - 1 = n + byteLength before := by omega
    exact .inl (by simp [Trivia.opensComment, hsub, h.char?_eq])
  | zero =>
    obtain hopens | hhead := h.fresh
    . rw [Nat.zero_add, hopens]
      exact .inl rfl
    . obtain ⟨cs, hcs⟩ := List.head?_eq_some_iff.1 hhead
      refine .inr ⟨cs, ?_⟩
      rw [Source.tail?_eq, hcs]
      rfl

end Source.Behind

section

variable {before : List Char} {inner outer : Source}

/-- A `#` opens a comment at the start of a text as it does after a line break. -/
theorem EndsLine.behind (h : EndsLine before)
    (htext : outer.text.toList = before ++ inner.text.toList) : inner.Behind before outer := by
  refine ⟨htext, .inl ?_⟩
  unfold Trivia.opensComment
  cases h with
  | inl hnil => simp [hnil]
  | inr hline =>
    obtain ⟨front, rfl⟩ := hline
    have hlast : outer.char? (byteLength front) = some '\n' := by
      rw [Source.char?, Source.tail?_eq, htext, List.append_assoc, tailAt?_append]
      rfl
    have hwidth : byteLength (front ++ ['\n']) = byteLength front + 1 := by
      rw [byteLength_append]
      rfl
    rw [hwidth, Nat.add_sub_cancel, hlast]
    rfl

theorem EndsLine.lineColumn_eq (hline : EndsLine before) (h : inner.Behind before outer)
    (offset : Nat) : outer.lineColumn (offset + byteLength before) =
      ((inner.lineColumn offset).1 + before.count '\n', (inner.lineColumn offset).2) := by
  have hmoved := Source.lineColumn.go_moved inner.text.toList offset 0 1 0 (byteLength before)
    (before.count '\n')
  unfold Source.lineColumn
  rw [← hmoved, h.text_eq]
  cases hline with
  | inl hnil => simp [hnil]
  | inr hline =>
    obtain ⟨front, hfront⟩ := hline
    have hwidth : byteLength before = byteLength front + 1 := by
      rw [hfront, byteLength_append]
      rfl
    have hcount : before.count '\n' = front.count '\n' + 1 := by
      rw [hfront, List.count_append]
      rfl
    obtain ⟨lineStart, heq⟩ := @Source.lineColumn.go_append front ('\n' :: inner.text.toList)
      (offset + byteLength before) 0 1 0 (by omega)
    rw [hcount, hwidth] at *
    rw [hfront, List.append_assoc, List.singleton_append, heq, Source.lineColumn.go,
      if_neg (by omega)]
    simp only [beq_self_eq_true, if_true]
    congr 1

end

end ShellTree
