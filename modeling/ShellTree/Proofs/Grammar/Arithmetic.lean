import ShellTree.Grammar.Arithmetic
import ShellTree.Proofs.Grammar.Literal

/-!
This module contains the correctness of arithmetic expressions. Every operator that is climbed over
is taken, so that climbing comes to an end.
-/

namespace ShellTree
namespace Grammar

open Parse Source

variable {env : Env} {level room : Nat} {inner : Nested} {s s₁ s' : State} {nodes : List Node}
variable {tok : Token}

theorem reportOperand_meets (h : Sound env s) (op : String) :
    Meets env s (reportOperand op) fun _ s' => Stays env s s' := by
  unfold reportOperand
  apply (peek_meets h).bind
  intro tok s₁ hpeek
  apply (report_meets hpeek.stays.sound hpeek.next.stop_le_size rfl).mono
  intro _ s₂ hreport
  exact hpeek.stays.trans hreport

theorem operandAfter_reads {operand : Parse (Option Node)}
    (h : Meets env s operand (ReadsOption env s)) (op : String) :
    Meets env s (operandAfter op operand) fun nodes s' => Reads env s nodes s' := by
  unfold operandAfter
  apply h.bind
  intro result s₁ hresult
  cases result with
  | some node => exact hresult
  | none =>
    apply (reportOperand_meets hresult.sound op).bind
    intro _ s₂ hreport
    exact (hresult.trans hreport).reads

abbrev Joins (env : Env) (s₁ s : State) (joined : Node) (s' : State) : Prop :=
  Reads env s₁ [joined] s' ∧ s'.remaining env < s.remaining env

theorem conditional_joins (hinner : inner.Fits env level) (hwithin : Within env (level + 1) room s)
    {condition : Node} (h : Reads env s₁ [condition] s) (hnext : Next env s tok) {op : String}
    (hop : tok.kind = .operator op) :
    Meets env s (conditional inner condition tok) (Joins env s₁ s) := by
  have hkind : tok.kind ≠ .eof := by simp [hop]
  unfold conditional
  apply (tokenLeaf_opens hwithin.sound hnext hop).bind
  rintro questionLeaf s₂ ⟨hquestion, _⟩
  have hwithin₂ := hwithin.taken hnext hkind hquestion
  apply (operandAfter_reads (hinner.arithmetic hwithin₂) _).bind
  intro whenTrue s₃ htrue
  apply (peek_meets htrue.sound).bind
  intro colon s₄ hcolon
  have htrue₄ := htrue.stays hcolon.stays
  split
  . next hop =>
    apply (tokenLeaf_meets hcolon.stays.sound hcolon.next fun _ =>
      isWhole_of_isOperator hop).bind
    intro colonLeaf s₅ hcolonLeaf
    have hwithin₅ := (hwithin₂.reads htrue₄).reads hcolonLeaf.toReads
    apply (operandAfter_reads (hinner.arithmetic hwithin₅) _).bind
    intro whenFalse s₆ hfalse
    have hmore := htrue₄.trans (hcolonLeaf.toReads.trans hfalse)
    exact hquestion.node_joins h hnext hkind hmore _ (.of_isLoose rfl (by simp))
  . apply (report_meets hcolon.stays.sound hcolon.next.stop_le_size rfl).bind
    intro _ s₅ hreport
    exact hquestion.node_joins h hnext hkind (htrue₄.stays hreport) _
      (.of_isLoose rfl (by simp))

/-! ### Operands -/

theorem arithmeticSubscript_reads (hinner : inner.Fits env level) (hwithin : Within env level 2 s)
    {name : Node} (h : Reads env s₁ [name] s) {cs : List Char}
    (hcs : env.source.Spells s.pos env.source.size ('[' :: cs)) :
    Meets env s (arithmeticSubscript inner name) fun node s' => Reads env s₁ [node] s' := by
  unfold arithmeticSubscript
  apply (peek_meets hwithin.sound).bind
  intro opener s₂ hpeek
  have hwhole : s₂.diagnostics = [] → opener.IsWhole := fun hclean =>
    isWhole_of_head hpeek.next (hpeek.stays.sound.running_of_clean hclean)
      (hpeek.stays.pos_eq ▸ hcs) (fun _ => rfl) (by decide)
  apply (tokenLeaf_meets hpeek.stays.sound hpeek.next hwhole).bind
  intro leaf s₃ hleaf
  have hwithin₃ := (hwithin.stays hpeek.stays).reads hleaf.toReads
  apply (operandAfter_reads (hinner.arithmetic hwithin₃) _).bind
  intro index s₄ hindex
  apply (expectOperator_meets hindex.sound _ _ (start_le_size_of_reads h)).bind
  intro close s₅ hclose
  have hopener := (h.stays hpeek.stays).trans hleaf.toReads
  exact node_reads ((hopener.trans hindex).trans hclose.toReads) .subscript
    (.mk rfl trivial fun hclean _ => (hclose.ends hclean).append (leaf :: index))

theorem parenthesizedArithmetic_reads (hinner : inner.Fits env level)
    (hwithin : Within env (level + 1) room s) (hnext : Next env s tok)
    (hop : tok.kind = .operator "(") :
    Meets env s (parenthesizedArithmetic inner tok) fun node s' => Reads env s [node] s' := by
  unfold parenthesizedArithmetic
  apply (tokenLeaf_opens hwithin.sound hnext hop).bind
  rintro leaf s₂ ⟨hleaf, _⟩
  have hwithin₂ := hwithin.taken hnext (by simp [hop]) hleaf
  apply (operandAfter_reads (hinner.arithmetic hwithin₂) _).bind
  intro content s₃ hcontent
  apply (expectOperator_meets hcontent.sound _ _ hnext.start_le_size).bind
  intro close s₄ hclose
  exact node_reads ((hleaf.toReads.trans hcontent).trans hclose.toReads)
    .parenthesizedArithmeticExpression
    (.mk rfl trivial fun hclean _ => (hclose.ends hclean).append content)

theorem arithmeticWord_reads (hinner : inner.Fits env level)
    (hwithin : Within env (level + 1) room s) (hnext : Next env s tok) (hkind : tok.kind ≠ .eof) :
    Meets env s (arithmeticWord inner tok) fun node s' => Reads env s [node] s' := by
  unfold arithmeticWord
  split
  . exact (hnext.leafAt_meets hwithin.sound hkind rfl).mono fun _ _ htaken => htaken.toReads
  . obtain ⟨cs, htail, hcs⟩ := hnext.spells.right.exists_tail?
    rw [meets_bind_charactersAt htail]
    split
    . next hbracket =>
      rw [beq_iff_eq, List.head?_eq_some_iff] at hbracket
      obtain ⟨cs, rfl⟩ := hbracket
      apply (hnext.leafAt_meets hwithin.sound hkind rfl).bind
      intro name s₂ hname
      exact arithmeticSubscript_reads hinner (hwithin.taken hnext hkind hname) hname.toReads
        (hname.pos_eq ▸ hcs)
    . exact (hnext.leafAt_meets hwithin.sound hkind rfl).mono fun _ _ htaken => htaken.toReads

theorem arithmeticPrimary_meets (hinner : inner.Fits env level)
    (hwithin : Within env (level + 1) (room + 1) s) :
    Meets env s (arithmeticPrimary inner) (ReadsOption env s) := by
  unfold arithmeticPrimary
  apply (peek_meets hwithin.sound).bind
  intro tok s₁ hpeek
  have hwithin₁ := hwithin.stays hpeek.stays
  split
  . next hkind =>
    apply (arithmeticWord_reads hinner hwithin₁ hpeek.next (by simp [hkind])).bind
    intro node s₂ hnode
    exact hpeek.stays.reads.trans hnode
  . next hkind =>
    apply (parenthesizedArithmetic_reads hinner hwithin₁ hpeek.next hkind).bind
    intro node s₂ hnode
    exact hpeek.stays.reads.trans hnode
  . next hkind =>
    have hwhole : tok.IsWhole := by simp [Token.IsWhole, hkind]
    apply (tokenLeaf_meets hwithin₁.sound hpeek.next fun _ => hwhole).bind
    intro node s₂ hnode
    exact hpeek.stays.reads.trans hnode.toReads
  . apply (fragment_meets hinner hwithin₁).mono
    intro result s₂ hresult
    exact hresult.readsOption.after hpeek.stays

theorem arithmeticPostfix_meets (hinner : inner.Fits env level)
    (hwithin : Within env (level + 1) (room + 1) s) :
    Meets env s (arithmeticPostfix inner) (ReadsOption env s) := by
  unfold arithmeticPostfix
  apply (arithmeticPrimary_meets hinner hwithin).bind
  intro result s₁ hresult
  cases result with
  | none => exact hresult
  | some operand =>
    have hoperand : Reads env s [operand] s₁ := hresult
    apply (peek_meets hoperand.sound).bind
    intro tok s₂ hpeek
    have hoperand₂ := hoperand.stays hpeek.stays
    split
    . next hpostfix =>
      simp only [Bool.and_eq_true] at hpostfix
      apply (tokenLeaf_meets hpeek.stays.sound hpeek.next fun _ =>
        isWhole_of_isOneOf hpostfix.2).bind
      intro op s₃ hop
      apply (node_reads (hoperand₂.trans hop.toReads) .postfixArithmeticExpression
        (.of_isLoose rfl (by simp))).bind
      intro node s₄ hnode
      exact hnode
    . exact hoperand₂

theorem arithmeticUnary_reads (hinner : inner.Fits env level)
    (hwithin : Within env (level + 1) (room + 1) s) (hnext : Next env s tok)
    (hsign : tok.isOneOf Operator.arithmeticPrefixes) :
    Meets env s (arithmeticUnary inner tok) fun node s' => Reads env s [node] s' := by
  unfold arithmeticUnary
  apply (tokenLeaf_meets hwithin.sound hnext fun _ => isWhole_of_isOneOf hsign).bind
  intro op s₂ hop
  -- the operator makes room for two levels, of which the operand takes one before it is read
  have hlt := hop.pos_lt hnext (ne_eof_of_isOneOf hsign)
  have hroom : Room env level 3 s₂.pos s₂.depth :=
    hop.depth_eq ▸ (hwithin.toRoom.pred hlt).of_le (Nat.le_add_left 3 room)
  have hnested := nest_readsOption ⟨hroom, hop.sound⟩ fun _ h => hinner.arithmeticOperand h
  apply (operandAfter_reads hnested _).bind
  intro operand s₃ hoperand
  exact node_reads (hop.toReads.trans hoperand) .unaryArithmeticExpression
    (.of_isLoose rfl (by simp))

theorem arithmeticOperand_meets (hinner : inner.Fits env level)
    (hwithin : Within env (level + 1) (room + 1) s) :
    Meets env s (arithmeticOperand inner) (ReadsOption env s) := by
  unfold arithmeticOperand
  apply (peek_meets hwithin.sound).bind
  intro tok s₁ hpeek
  have hwithin₁ := hwithin.stays hpeek.stays
  split
  . next hop =>
    apply (arithmeticUnary_reads hinner hwithin₁ hpeek.next hop).bind
    intro node s₂ hnode
    exact hpeek.stays.reads.trans hnode
  . apply (arithmeticPostfix_meets hinner hwithin₁).mono
    intro result s₂ hresult
    exact hresult.after hpeek.stays

/-! ### Expressions -/

theorem exists_operator_of_infixRow? {minRow : Nat} {result : Nat × String}
    (h : infixRow? tok minRow = some result) : ∃ op, tok.kind = .operator op := by
  unfold infixRow? at h
  split at h
  . next op hkind => exact ⟨op, hkind⟩
  . contradiction

theorem arithmeticStep_grows (hinner : inner.Fits env level)
    (hwithin : Within env (level + 1) room s) (minRow : Nat) {left : Node}
    (h : Reads env s₁ [left] s) :
    Meets env s (arithmeticStep inner minRow left) (Grows env s₁ s fun node => [node]) := by
  unfold arithmeticStep
  apply (peek_meets hwithin.sound).bind
  intro tok s₂ hpeek
  have hleft := h.stays hpeek.stays
  have hwithin₂ := hwithin.stays hpeek.stays
  apply Meets.mono _ (GrowsUpTo.of_stays hpeek.stays)
  cases hrow : infixRow? tok minRow with
  | none => exact hleft
  | some found =>
    obtain ⟨row, op⟩ := found
    obtain ⟨_, hoperator⟩ := exists_operator_of_infixRow? hrow
    have hkind : tok.kind ≠ .eof := by simp [hoperator]
    dsimp only
    split
    . apply (conditional_joins hinner hwithin₂ hleft hpeek.next hoperator).bind
      intro node s₃ hnode
      exact hnode
    . apply (tokenLeaf_opens hwithin₂.sound hpeek.next hoperator).bind
      rintro leaf s₃ ⟨hleaf, _⟩
      have hwithin₃ := hwithin₂.taken hpeek.next hkind hleaf
      apply (operandAfter_reads (hinner.arithmetic hwithin₃) _).bind
      intro right s₄ hright
      apply (hleaf.node_joins hleft hpeek.next hkind hright .binaryArithmeticExpression
        (.of_isLoose rfl (by simp))).bind
      intro node s₅ hnode
      exact hnode

theorem arithmeticClimb_meets (hinner : inner.Fits env level)
    (hwithin : Within env (level + 1) (room + 1) s) (minRow : Nat) :
    Meets env s (arithmeticClimb inner minRow) (ReadsOption env s) := by
  unfold arithmeticClimb
  apply (arithmeticOperand_meets hinner hwithin).bind
  intro result s₁ hresult
  cases result with
  | none => exact hresult
  | some left =>
    have hclimb := repeatStep_reads (fun node => [node]) hresult fun left s₂ hleft =>
      arithmeticStep_grows hinner (hwithin.reads hleft) minRow hleft
    apply hclimb.bind
    intro node s₂ hnode
    exact hnode

theorem arithmetic_meets (hinner : inner.Fits env level)
    (hwithin : Within env (level + 1) 2 s) (minRow : Nat) :
    Meets env s (arithmetic inner minRow) (ReadsOption env s) :=
  nest_readsOption hwithin fun _ h => arithmeticClimb_meets hinner h minRow

end Grammar
end ShellTree
