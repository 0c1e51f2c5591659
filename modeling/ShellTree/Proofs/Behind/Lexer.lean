import ShellTree.Grammar.LineBreak
import ShellTree.Heredoc
import ShellTree.Proofs.Behind.Moves
import ShellTree.Proofs.Behind.Source

/-!
This module contains the scanners on a text that stands behind another: what they find is moved.
-/

namespace ShellTree

variable {before : List Char} {inner outer : Source} {width : Nat}

/-! ### Trivia -/

namespace Trivia

theorem skipFrom_moved (rules : Rules) (fresh : Bool) (offset : Nat) (cs : List Char) :
    skipFrom rules fresh (offset + width) cs = moved width (skipFrom rules fresh offset cs) := by
  apply skipFrom.induct rules
    (fun fresh offset cs =>
      skipFrom rules fresh (offset + width) cs = moved width (skipFrom rules fresh offset cs))
    (fun start length cs =>
      skipComment rules (start + width) length cs = moved width (skipComment rules start length cs))
  case case1 =>
    intro fresh offset
    rw [skipFrom, skipFrom]
    rfl
  case case2 =>
    intro fresh offset cs ih
    rw [skipFrom, skipFrom, Nat.add_right_comm, ih]
  case case3 =>
    intro fresh offset cs ih
    rw [skipFrom, skipFrom, Nat.add_right_comm, ih]
  case case4 =>
    intro fresh offset c cs hlf hcrlf hskip ih
    rw [skipFrom, if_pos hskip, skipFrom, if_pos hskip, Nat.add_right_comm, ih]
    all_goals assumption
  case case5 =>
    intro fresh offset c cs hlf hcrlf hskip hcomment ih
    rw [skipFrom, if_neg hskip, if_pos hcomment, skipFrom, if_neg hskip, if_pos hcomment, ih]
    all_goals assumption
  case case6 =>
    intro fresh offset c cs hlf hcrlf hskip hcomment
    rw [skipFrom, if_neg hskip, if_neg hcomment, skipFrom, if_neg hskip, if_neg hcomment]
    . rfl
    all_goals assumption
  case case7 =>
    intro start length
    rw [skipComment, skipComment, ← moved_ofWidth, Nat.add_right_comm]
    rfl
  case case8 =>
    intro start length c cs hlf hnewlines offset comments hskip ih
    have hstart : start + width + length + 1 = start + length + 1 + width := by omega
    rw [skipComment, if_pos hlf, if_pos hnewlines, skipComment, if_pos hlf, if_pos hnewlines,
      hstart, ih, ← moved_ofWidth]
    rfl
  case case9 =>
    intro start length c cs hlf hnewlines
    rw [skipComment, if_pos hlf, if_neg hnewlines, skipComment, if_pos hlf, if_neg hnewlines,
      ← moved_ofWidth, Nat.add_right_comm]
    rfl
  case case10 =>
    intro start length c cs hlf ih
    rw [skipComment, if_neg hlf, skipComment, if_neg hlf, ih]

theorem skipFrom_parenthesis (rules : Rules) (fresh : Bool) (offset : Nat) (cs : List Char) :
    skipFrom rules fresh offset ('(' :: cs) = (offset, []) := by
  simp [skipFrom, isBlank]

theorem skip_moved (h : inner.Behind before outer) (offset : Nat) (rules : Rules) :
    skip outer (offset + byteLength before) rules =
      moved (byteLength before) (skip inner offset rules) := by
  unfold skip
  rw [h.tail?_eq]
  obtain hopens | ⟨cs, htail⟩ := h.opensComment_eq_or offset
  . rw [hopens]
    cases inner.tail? offset with
    | none => rfl
    | some cs => exact skipFrom_moved ..
  . rw [htail]
    dsimp only
    rw [skipFrom_parenthesis, skipFrom_parenthesis]
    rfl

end Trivia

/-! ### Tokens -/

namespace Lexer

theorem skipTrivia_moved (h : inner.Behind before outer) (offset : Nat) (mode : Mode)
    (flags : Flags) : skipTrivia outer (offset + byteLength before) mode flags =
      moved (byteLength before) (skipTrivia inner offset mode flags) :=
  Trivia.skip_moved h offset _

theorem next_moved (h : inner.Behind before outer) (offset : Nat) (mode : Mode) (flags : Flags) :
    next outer (offset + byteLength before) mode flags =
      (next inner offset mode flags).map (moved (byteLength before)) := by
  unfold next
  rw [skipTrivia_moved h]
  generalize skipTrivia inner offset mode flags = place
  obtain ⟨start, comments⟩ := place
  simp only [moved_pair, moved_nat, h.tail?_eq, h.size_eq, Nat.add_le_add_iff_right, moved_beq]
  cases inner.tail? start with
  | some cs =>
    dsimp only
    rw [← moved_ofWidth]
    rfl
  | none =>
    dsimp only
    split <;> rfl

theorem charactersFrom_moved (h : inner.Behind before outer) (offset : Nat) :
    charactersFrom outer (offset + byteLength before) = charactersFrom inner offset := by
  unfold charactersFrom
  rw [h.nextBoundary_eq, h.tail?_eq]

theorem nonempty?_moved (h : inner.Behind before outer) (kind : TokenKind) (offset start : Nat)
    (taken : List Char) :
    nonempty? outer kind (offset + byteLength before) (start + byteLength before) taken =
      moved (byteLength before) (nonempty? inner kind offset start taken) := by
  unfold nonempty?
  simp only [h.nextBoundary_eq, Nat.add_sub_add_right, moved_beq]
  split
  . rfl
  . rw [← moved_ofWidth]
    rfl

theorem nextHeredocMarker_moved (h : inner.Behind before outer) (offset : Nat) :
    nextHeredocMarker outer (offset + byteLength before) =
      moved (byteLength before) (nextHeredocMarker inner offset) := by
  unfold nextHeredocMarker
  rw [skipTrivia_moved h]
  obtain ⟨start, comments⟩ := skipTrivia inner offset .heredocPending {}
  simp only [moved_pair, moved_nat, charactersFrom_moved h, nonempty?_moved h]

theorem nextRegex_moved (h : inner.Behind before outer) (offset : Nat) (inExpansion : Bool) :
    nextRegex outer (offset + byteLength before) inExpansion =
      (nextRegex inner offset inExpansion).map (moved (byteLength before)) := by
  have hstart : (if inExpansion then (offset + byteLength before, [])
      else skipTrivia outer (offset + byteLength before) .doubleTest {}) =
      moved (byteLength before)
        (if inExpansion then (offset, []) else skipTrivia inner offset .doubleTest {}) := by
    split
    . rfl
    . exact skipTrivia_moved h ..
  unfold nextRegex
  rw [hstart]
  generalize (if inExpansion then (offset, []) else skipTrivia inner offset .doubleTest {}) = place
  obtain ⟨start, comments⟩ := place
  simp only [moved_pair, moved_nat, charactersFrom_moved h, nonempty?_moved h, h.nextBoundary_eq,
    ne_eq, Nat.add_right_cancel_iff]
  generalize charactersFrom inner start = cs
  have hregex : ∀ kind, (do
      let taken ← Lexeme.regex inExpansion .bare 0 cs
      return (moved (byteLength before) (nonempty? inner kind offset start taken),
        moved (byteLength before) comments)) =
      (do
        let taken ← Lexeme.regex inExpansion .bare 0 cs
        return (nonempty? inner kind offset start taken, comments)).map
          (moved (byteLength before)) := by
    intro kind
    cases Lexeme.regex inExpansion .bare 0 cs <;> rfl
  cases inExpansion with
  | true => exact hregex .regex
  | false =>
    simp only [Bool.not_false, if_true]
    split
    . rfl
    . split
      . rfl
      . exact hregex .regex

end Lexer

/-! ### Here-documents -/

namespace Heredoc

theorem delimiterLine?_moved (request : Request) (start : Nat) (lines : List (List Char)) :
    delimiterLine? (moved width request) (start + width) lines =
      moved width (delimiterLine? request start lines) := by
  induction lines generalizing start with
  | nil => rfl
  | cons line rest ih =>
    have hnext : start + width + byteLength line + 1 = start + byteLength line + 1 + width := by
      omega
    unfold delimiterLine?
    rw [hnext, ih, moved_stripTabs, moved_delimiter]
    generalize candidate request.stripTabs line = found
    obtain ⟨tabs, text⟩ := found
    dsimp only
    rw [Nat.add_right_comm start, ← moved_ofWidth]
    split <;> rfl

theorem scanBody_moved (h : inner.Behind before outer) (start : Nat) (request : Request) :
    scanBody outer (start + byteLength before) (moved (byteLength before) request) =
      (scanBody inner start request).map (moved (byteLength before)) := by
  unfold scanBody
  rw [h.tail?_eq, h.size_eq]
  cases inner.tail? start with
  | none =>
    simp only [Nat.add_lt_add_iff_right]
    split <;> rfl
  | some cs =>
    dsimp only
    rw [delimiterLine?_moved]
    cases delimiterLine? request start (lines cs) with
    | none =>
      dsimp only [moved_none]
      rw [between_moved]
      cases Span.between start inner.size <;> rfl
    | some found =>
      obtain ⟨line, delimiter⟩ := found
      dsimp only [moved_some, moved_pair, moved_nat]
      rw [between_moved]
      cases Span.between start line <;> rfl

end Heredoc

theorem Grammar.afterLineBreak_moved (h : inner.Behind before outer) (offset : Nat) :
    afterLineBreak outer (offset + byteLength before) =
      afterLineBreak inner offset + byteLength before := by
  unfold afterLineBreak
  rw [h.tail?_eq]
  split
  . omega
  . omega
  . rfl

end ShellTree
