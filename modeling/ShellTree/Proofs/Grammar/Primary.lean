import ShellTree.Grammar.Statement
import ShellTree.Proofs.Grammar.Compound
import ShellTree.Proofs.Operand

/-!
This module contains the kinds of the statements without operators: none of them is put together
from other statements.
-/

namespace ShellTree
namespace Grammar

open Parse

variable {inner : Nested}

theorem node_returns {kind : NodeKind} {children : List Node} (h : kind.isAtomic) :
    Returns (node kind children) Node.IsAtomic :=
  kind_returns.mono fun node hkind => by rw [Node.IsAtomic, hkind, h]

theorem isAtomic_returns {p : Parse Node} (h : Returns p Node.IsAtomic) :
    Returns (do return some (← p)) fun result => ∀ node ∈ result, node.IsAtomic := by
  refine h.bind fun node hnode => returns_pure ?_
  simpa using hnode

theorem IsCompound.isAtomic {node : Node} (h : IsCompound node) : node.IsAtomic := by
  unfold IsCompound at h
  unfold Node.IsAtomic
  cases hkind : node.kind <;> first | rfl | simp [hkind, NodeKind.isCompound] at h

theorem compound_isAtomic {p : Parse Node} (h : Returns p IsCompound) : Returns p Node.IsAtomic :=
  h.mono fun _ => IsCompound.isAtomic

/-! ### Commands and definitions -/

theorem functionFrom_returns (head : List Node) :
    Returns (functionFrom inner head) Node.IsAtomic := by
  unfold functionFrom
  iterate 2 apply returns_bind; intro
  split
  . apply returns_bind
    intro targets
    exact node_returns rfl
  . iterate 2 apply returns_bind; intro
    exact node_returns rfl

theorem keywordFunction_returns : Returns (keywordFunction inner) Node.IsAtomic := by
  unfold keywordFunction
  iterate 4 apply returns_bind; intro
  exact functionFrom_returns _

theorem plainFunction?_returns :
    Returns (plainFunction? inner) fun result => ∀ node ∈ result, node.IsAtomic := by
  unfold plainFunction?
  apply returns_bind
  intro head
  split
  . exact isAtomic_returns (functionFrom_returns _)
  . exact returns_pure (by simp)

theorem negation_returns : Returns (negation inner) Node.IsAtomic := by
  unfold negation
  iterate 3 apply returns_bind; intro
  exact node_returns rfl

theorem declaration_returns : Returns (declaration inner) Node.IsAtomic := by
  unfold declaration
  iterate 3 apply returns_bind; intro
  exact node_returns rfl

theorem unset_returns : Returns (unset inner) Node.IsAtomic := by
  unfold unset
  iterate 3 apply returns_bind; intro
  exact node_returns rfl

theorem namelessCommand_returns (head : List Node) (tok : Token) :
    Returns (namelessCommand head tok) Node.IsAtomic := by
  unfold namelessCommand
  split
  . next hassignments =>
    split
    . next only =>
      simp only [List.isEmpty_cons, Bool.not_false, List.all_cons, List.all_nil, Bool.and_true,
        Bool.true_and, beq_iff_eq] at hassignments
      apply returns_pure
      rw [Node.IsAtomic, hassignments]
      rfl
    . exact node_returns rfl
  . dsimp only
    split
    . apply returns_bind
      intro
      exact node_returns rfl
    . exact node_returns rfl

theorem command_returns : Returns (command inner) Node.IsAtomic := by
  unfold command
  iterate 3 apply returns_bind; intro
  split
  . iterate 2 apply returns_bind; intro
    exact node_returns rfl
  . exact namelessCommand_returns _ _

theorem wordStatement_returns (text : String) :
    Returns (wordStatement inner text) fun result => ∀ node ∈ result, node.IsAtomic := by
  unfold wordStatement
  split
  . next compound hcompound =>
    exact isAtomic_returns (compound_isAtomic (compoundOf?_returns hcompound))
  . split
    . exact isAtomic_returns keywordFunction_returns
    . split
      . exact isAtomic_returns negation_returns
      . split
        . exact returns_pure (by simp)
        . split
          . exact isAtomic_returns declaration_returns
          . split
            . exact isAtomic_returns unset_returns
            . refine plainFunction?_returns.bind fun result hresult => ?_
              split
              . exact returns_pure hresult
              . exact isAtomic_returns command_returns

theorem primaryBody_returns :
    Returns (primaryBody inner) fun result => ∀ node ∈ result, node.IsAtomic := by
  unfold primaryBody
  apply returns_bind
  intro tok
  split
  . apply returns_bind
    intro src
    split
    . exact wordStatement_returns _
    . exact isAtomic_returns command_returns
  . exact isAtomic_returns command_returns
  . exact isAtomic_returns (compound_isAtomic subshell_returns)
  . exact isAtomic_returns (compound_isAtomic arithmeticCommand_returns)
  . split
    . exact isAtomic_returns command_returns
    . exact returns_pure (by simp)

theorem primaryStatement_returns :
    Returns (primaryStatement inner) fun result => ∀ node ∈ result, node.IsAtomic := by
  unfold primaryStatement nest
  apply returns_bind
  intro entered
  split
  . refine primaryBody_returns.bind fun result hresult => ?_
    apply returns_bind
    intro
    exact returns_pure hresult
  . refine isAtomic_returns ?_
    unfold haltedNode
    apply returns_bind
    intro offset
    exact returns_pure rfl

end Grammar
end ShellTree
