import ShellTree.Grammar.Function
import ShellTree.Proofs.Parse.Token

/-!
This module contains the kinds of the compound commands, which are those of the bodies of functions.
-/

namespace ShellTree
namespace Grammar

open Parse

variable {inner : Nested}

def IsCompound (node : Node) : Prop := node.kind.isCompound

theorem compound_returns {kind : NodeKind} {children : List Node} (h : kind.isCompound) :
    Returns (node kind children) IsCompound :=
  kind_returns.mono fun node hkind => by rw [IsCompound, hkind, h]

theorem braceGroup_returns : Returns (braceGroup inner) (·.kind = .compoundStatement) := by
  unfold braceGroup
  iterate 4 apply returns_bind; intro
  exact kind_returns

theorem subshell_returns : Returns (subshell inner) IsCompound := by
  unfold subshell
  iterate 4 apply returns_bind; intro
  exact compound_returns rfl

theorem whileLoop_returns : Returns (whileLoop inner) IsCompound := by
  unfold whileLoop
  iterate 4 apply returns_bind; intro
  exact compound_returns rfl

theorem headerLoop_returns (keyword : Node) (start : Nat) :
    Returns (headerLoop inner keyword start) IsCompound := by
  unfold headerLoop
  iterate 6 apply returns_bind; intro
  exact compound_returns rfl

theorem valueLoop_returns (keyword : Node) (construct : Construct) (start : Nat) :
    Returns (valueLoop inner keyword construct start) IsCompound := by
  unfold valueLoop
  iterate 5 apply returns_bind; intro
  exact compound_returns rfl

theorem forLoop_returns : Returns (forLoop inner) IsCompound := by
  unfold forLoop
  iterate 2 apply returns_bind; intro
  split
  . exact valueLoop_returns _ _ _
  . apply returns_bind
    intro opener
    split
    . exact headerLoop_returns _ _
    . exact valueLoop_returns _ _ _

theorem ifStatement_returns : Returns (ifStatement inner) IsCompound := by
  unfold ifStatement
  iterate 7 apply returns_bind; intro
  exact compound_returns rfl

theorem caseStatement_returns : Returns (caseStatement inner) IsCompound := by
  unfold caseStatement
  iterate 9 apply returns_bind; intro
  exact compound_returns rfl

theorem testCommand_returns : Returns (testCommand inner) IsCompound := by
  unfold testCommand
  iterate 3 apply returns_bind; intro
  exact compound_returns rfl

theorem arithmeticCommand_returns : Returns (arithmeticCommand inner) IsCompound := by
  unfold arithmeticCommand
  iterate 3 apply returns_bind; intro
  exact compound_returns rfl

theorem compoundOf?_returns {text : String} {compound : Parse Node}
    (h : compoundOf? inner text = some compound) : Returns compound IsCompound := by
  unfold compoundOf? at h
  split at h
  all_goals cases h
  . exact braceGroup_returns.mono fun node hkind => by rw [IsCompound, hkind]; rfl
  . exact testCommand_returns
  . exact testCommand_returns
  . exact ifStatement_returns
  . exact whileLoop_returns
  . exact whileLoop_returns
  . exact forLoop_returns
  . exact forLoop_returns
  . exact caseStatement_returns

theorem functionBody_returns :
    Returns (functionBody inner) fun result => ∀ body ∈ result, IsCompound body := by
  have hsome : ∀ {p : Parse Node}, Returns p IsCompound →
      Returns (do return some (← p)) fun result => ∀ body ∈ result, IsCompound body :=
    fun h => h.bind fun node hnode => returns_pure (by simpa using hnode)
  unfold functionBody
  apply returns_bind
  intro tok
  split
  . exact hsome subshell_returns
  . exact hsome arithmeticCommand_returns
  . apply returns_bind
    intro src
    split
    . next compound hcompound =>
      split at hcompound
      . exact hsome (compoundOf?_returns hcompound)
      . cases hcompound
    . exact returns_pure (by simp)
  . exact returns_pure (by simp)

end Grammar
end ShellTree
