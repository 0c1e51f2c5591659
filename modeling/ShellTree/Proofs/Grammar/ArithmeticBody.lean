import ShellTree.Grammar.ArithmeticBody
import ShellTree.Proofs.Parse.Nested

/-!
This module contains the correctness of the inside of double parentheses. Where they are found to
close, the next token is the first of the two.
-/

namespace ShellTree
namespace Grammar

open Parse Source

variable {env : Env} {level : Nat} {inner : Nested} {s s₁ s' : State} {nodes : List Node}

def ClosesArithmetic (env : Env) (s : State) : Prop :=
  env.source.Spells (s.token env s.flags).span.start ((s.token env s.flags).span.start + 2)
    [')', ')']

theorem atArithmeticClose_meets (h : Sound env s) :
    Meets env s atArithmeticClose fun closes s' =>
      Stays env s s' ∧ (closes = true → ClosesArithmetic env s') := by
  unfold atArithmeticClose
  apply (peek_meets h).bind
  intro tok s₁ hpeek
  split
  . next hop =>
    obtain ⟨cs, htail, hcs⟩ := hpeek.next.spells.right.exists_tail?
    rw [meets_bind_charactersAt htail]
    refine ⟨hpeek.stays, ?_⟩
    intro hhead
    rw [beq_iff_eq, List.head?_eq_some_iff] at hhead
    obtain ⟨cs, rfl⟩ := hhead
    simp only [Token.isOperator, beq_iff_eq] at hop
    have hspells := hpeek.next.spells
    rw [hpeek.next.operator_eq _ hop] at hspells
    have hboth := hspells.append (hcs.trim [')'] ⟨cs, rfl⟩)
    have htoken : s₁.token env s₁.flags = tok := by
      rw [hpeek.stays.token_eq, hpeek.stays.flags_eq, hpeek.eq_token]
    unfold ClosesArithmetic
    rw [htoken]
    rwa [hboth.stop_eq] at hboth
  . exact ⟨hpeek.stays, by simp⟩

theorem requiredExpression_reads (hinner : inner.Fits env level) (hwithin : Within env level 2 s) :
    Meets env s (requiredExpression inner) fun nodes s' => Reads env s nodes s' := by
  unfold requiredExpression
  apply (hinner.arithmetic hwithin).bind
  intro result s₂ hresult
  cases result with
  | some expression => exact hresult
  | none =>
    apply (peek_meets hresult.sound).bind
    intro tok s₃ hpeek
    have hstays := hresult.trans hpeek.stays
    dsimp only
    split
    . apply (report_meets hstays.sound hpeek.next.stop_le_size rfl).bind
      intro _ s₄ hreport
      exact (hstays.trans hreport).reads
    . exact hstays.reads

/-- Junk is read up to the closing parentheses, or their absence is reported. -/
def ReadsUpToClose (env : Env) (s₁ : State) (junk : List Node × Bool) (s : State) : Prop :=
  ReadsJunk env s₁ junk.1 s ∧ if junk.2 then ClosesArithmetic env s else s.diagnostics ≠ []

theorem arithmeticJunkStep_meets (construct : Construct) {start : Nat}
    (hstart : start ≤ env.source.size) (junk : List Node × Bool) (s : State)
    (h : ReadsJunk env s₁ junk.1 s) :
    Meets env s (arithmeticJunkStep construct start junk)
      (Steps (fun junk s => ReadsJunk env s₁ junk.1 s) (ReadsUpToClose env s₁)
        (fun _ s => s.remaining env) junk s) := by
  unfold arithmeticJunkStep
  apply (atArithmeticClose_meets h.sound).bind
  intro closes s₂ hcloses
  obtain ⟨hstays, hcloses⟩ := hcloses
  have hjunk := h.stays hstays
  cases closes with
  | true => exact ⟨hjunk, hcloses rfl⟩
  | false =>
    rw [if_neg (by simp)]
    apply (peek_meets hjunk.sound).bind
    intro tok s₃ hpeek
    have hjunk₃ := hjunk.stays hpeek.stays
    split
    . apply (reportUnclosed_reports hjunk₃.sound _ hstart rfl).bind
      intro _ s₄ hreport
      exact ⟨hjunk₃.stays hreport.toStays, hreport.ne_nil⟩
    . next heof =>
      have hkind := mt isEof_iff.2 heof
      have htake : ∀ s₄, Stays env s₃ s₄ →
          (junk.1 = [] → tok.kind ≠ .error → ReportedAt s₄.diagnostics tok.span.start) →
          Meets env s₄ (do return .yield (junk.1 ++ [← tokenLeaf tok], false))
            (Steps (fun junk s => ReadsJunk env s₁ junk.1 s) (ReadsUpToClose env s₁)
              (fun _ s => s.remaining env) junk s) := by
        intro s₄ hreport hfirst
        apply ((hjunk₃.stays hreport).takeToken (hreport.next hpeek.next) hkind hfirst).bind
        intro leaf s₅ hleaf
        have hle := ((hstays.trans hpeek.stays).trans hreport).reads.remaining_le
        exact ⟨hleaf.1, Nat.lt_of_lt_of_le hleaf.2 hle⟩
      dsimp only
      split
      . apply (report_reports hjunk₃.sound hpeek.next.stop_le_size rfl).bind
        intro _ s₄ hreport
        have hreported := hreport.reportedAt rfl (hpeek.next.running hkind)
          (hpeek.next.start_lt_stop hkind)
        exact htake s₄ hreport.toStays fun _ _ => hreported
      . next hunreported =>
        apply htake s₃ (.refl hjunk₃.sound)
        intro hempty herror
        simp [hempty, herror] at hunreported

theorem arithmeticClose_reads (h : Sound env s) (construct : Construct) {start : Nat}
    (hstart : start ≤ env.source.size) :
    Meets env s (arithmeticClose construct start) (ReadsUpTo env "))" s) := by
  unfold arithmeticClose
  apply (repeatStep_consumes (fun junk s' => ReadsJunk env s junk.1 s') (.refl h)
    (arithmeticJunkStep_meets construct hstart)).bind
  intro junk s₂ hjunk
  obtain ⟨junk, closed⟩ := junk
  obtain ⟨hjunk, hcloses⟩ := hjunk
  apply (hjunk.errorAround s₂).bind
  intro errors s₃ herrors
  obtain ⟨herrors, rfl⟩ := herrors
  cases closed with
  | false => exact ⟨herrors, fun hclean => absurd hclean hcloses⟩
  | true =>
    rw [if_pos rfl]
    apply (peek_meets herrors.sound).bind
    intro tok s₄ hpeek
    have hspells : ClosesArithmetic env s₃ := hcloses
    unfold ClosesArithmetic at hspells
    rw [← hpeek.eq_token] at hspells
    have hclose : Meets env s₄ (leafAt (.token "))") (.ofWidth tok.span.start 2))
        (Taken env s₄ (.ofWidth tok.span.start 2)) :=
      textLeaf_meets hpeek.stays.sound hpeek.next.skips hspells (by decide)
    apply (hclose.and_returns (leafAt_returns _ _)).bind
    intro close s₅ hclose
    have hends : EndsWith "))" [close] := endsWith_singleton (by rw [hclose.2]; rfl)
    exact (herrors.stays hpeek.stays).upTo ⟨hclose.1.toReads, fun _ => hends⟩

theorem arithmeticBody_reads (hinner : inner.Fits env level) (hwithin : Within env level 2 s)
    (construct : Construct) {start : Nat} (hstart : start ≤ env.source.size) :
    Meets env s (arithmeticBody inner construct start) (ReadsUpTo env "))" s) := by
  unfold arithmeticBody
  apply (atArithmeticClose_meets hwithin.sound).bind
  intro closes s₂ hcloses
  have hstays := hcloses.1
  have hrest : ∀ expression s₃, Reads env s expression s₃ →
      Meets env s₃ (do return expression ++ (← arithmeticClose construct start))
        (ReadsUpTo env "))" s) := by
    intro expression s₃ hexpression
    apply (arithmeticClose_reads hexpression.sound construct hstart).bind
    intro close s₄ hclose
    exact hexpression.upTo hclose
  dsimp only
  split
  . exact hrest [] s₂ hstays.reads
  . apply (requiredExpression_reads hinner (hwithin.stays hstays)).bind
    intro expression s₃ hexpression
    exact hrest expression s₃ (hstays.reads.trans hexpression)

end Grammar
end ShellTree
