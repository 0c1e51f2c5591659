import ShellTree.Grammar.Assignment
import ShellTree.Proofs.Grammar.Expansion

/-!
This module contains the correctness of assignments and arrays.
-/

namespace ShellTree
namespace Grammar

open Parse Source

variable {env : Env} {level : Nat} {inner : Nested} {s s₁ s' : State} {nodes : List Node}

theorem arrayStep_grows (hinner : inner.Fits env level) (hwithin : Within env level 2 s)
    {start : Nat} (hstart : start ≤ env.source.size) (h : Reads env s₁ nodes s) :
    Meets env s (arrayStep inner start nodes) (GrowsUpTo env (ReadsUpTo env ")" s₁) s₁ s id) := by
  unfold arrayStep
  apply closerStep_grows hwithin.sound hstart h
  intro tok s₂ hpeek heof hnodes
  apply (hinner.literal (hwithin.stays hpeek.stays)).bind
  intro result s₃ hliteral
  cases result with
  | some element => exact hnodes.grows hliteral.toTakes
  | none =>
    have hnext := hliteral.1.next hpeek.next
    apply (report_meets hliteral.1.sound hnext.stop_le_size rfl).bind
    intro _ s₄ hreport
    exact hnodes.take (hliteral.1.trans hreport) hpeek.next (mt isEof_iff.2 heof)
      (hpeek.isWhole hliteral heof)

theorem array_reads (hinner : inner.Fits env level) (hwithin : Within env level 2 s)
    {cs : List Char} (hcs : env.source.Spells s.pos env.source.size ('(' :: cs)) :
    Meets env s (array inner) fun node s' => Reads env s [node] s' := by
  unfold array
  rw [meets_bind_position]
  apply (takeText_meets hwithin.sound "(" hcs ⟨cs, rfl⟩ (by decide)).bind
  intro opener s₁ hopener
  have hwithin₁ := hwithin.reads hopener.toReads
  apply Meets.bind (hwithin₁.withFlags ?_)
  . intro parts s₂ hparts
    exact node_reads (hopener.toReads.trans hparts.toReads) .array
      (.mk rfl trivial fun hclean _ => hparts.ends hclean)
  . intro s₂ hwithin₂ _
    apply collect_reads (.refl hwithin₂.sound)
    intro parts s₃ hparts
    exact arrayStep_grows hinner (hwithin₂.reads hparts) hwithin.sound.pos_le_size hparts

theorem assignedValue_reads (hinner : inner.Fits env level) (hwithin : Within env level 2 s) :
    Meets env s (assignedValue inner) fun nodes s' => Reads env s nodes s' := by
  obtain ⟨cs, htail, hcs⟩ := hwithin.sound.boundary.exists_tail?
  unfold assignedValue
  rw [meets_bind_upcoming htail]
  split
  . next hparenthesis =>
    rw [beq_iff_eq, List.head?_eq_some_iff] at hparenthesis
    obtain ⟨cs, rfl⟩ := hparenthesis
    apply (array_reads hinner hwithin hcs).bind
    intro node s₁ hnode
    exact hnode
  . apply (peek_meets hwithin.sound).bind
    intro tok s₁ hpeek
    split
    . apply (hinner.literal (hwithin.stays hpeek.stays)).bind
      intro result s₂ hresult
      exact hpeek.stays.reads.trans hresult.readsOption.reads
    . exact hpeek.stays.reads

theorem assignmentOperator?_isPrefix {cs : List Char} {op : String}
    (h : assignmentOperator? cs = some op) : op.toList <+: cs ∧ op.toList ≠ [] := by
  unfold assignmentOperator? at h
  split at h
  . next cs =>
    cases h
    exact ⟨⟨cs, rfl⟩, by decide⟩
  . next cs =>
    cases h
    exact ⟨⟨_, rfl⟩, by decide⟩
  . cases h

theorem assignmentOperator?_eq_or {cs : List Char} {op : String}
    (h : assignmentOperator? cs = some op) : op = "=" ∨ op = "+=" := by
  unfold assignmentOperator? at h
  split at h <;> simp_all

theorem assignmentOperator?_isSome {cs : List Char} (h : Lexeme.opensAssignment cs) :
    (assignmentOperator? cs).isSome := by
  unfold Lexeme.opensAssignment at h
  split at h
  . rfl
  . rfl
  . contradiction

/-- What an assignment sets. The operator is behind a name, but where the lexer has found it behind
a subscript it may be inside of the one that is read. -/
def IsTarget (target : Node) (cs : List Char) : Prop :=
  target.kind = .subscript ∨ target.kind = .variableName ∧ (assignmentOperator? cs).isSome

theorem assignmentFrom_meets (hinner : inner.Fits env level) (hwithin : Within env level 2 s)
    {target : Node} (h : Reads env s₁ [target] s) {cs : List Char}
    (htail : env.source.tail? s.pos = some cs) (htarget : IsTarget target cs) :
    Meets env s (do
      match assignmentOperator? (← upcoming) with
      | some op =>
        let leaf ← takeText op
        let value ← assignedValue inner
        node .variableAssignment (target :: leaf :: value)
      | none =>
        let tok ← peek
        report .expectedEqualsInAssignment tok.span
        node .variableAssignment [target])
      fun node s' => Reads env s₁ [node] s' ∧ s.pos ≤ s'.pos := by
  rw [meets_bind_upcoming htail]
  cases hop : assignmentOperator? cs with
  | some op =>
    obtain ⟨hspelled, hne⟩ := assignmentOperator?_isPrefix hop
    have hcs := tail?_eq_some_iff.1 htail
    apply ((takeText_meets hwithin.sound op hcs hspelled hne).and_returns
      (takeText_returns op)).bind
    rintro leaf s₂ ⟨hleaf, hkind⟩
    apply (assignedValue_reads hinner (hwithin.reads hleaf.toReads)).bind
    intro value s₃ hvalue
    have hmore := hleaf.toReads.trans hvalue
    have hoperator : Node.HasOperator (target :: leaf :: value) := by
      refine ⟨target, leaf, value, rfl, ?_⟩
      rw [hkind]
      exact (assignmentOperator?_eq_or hop).imp (congrArg _) (congrArg _)
    apply (node_made (h.trans hmore) .variableAssignment
      (.of_assigns (by simp) fun _ => .inl hoperator)).mono
    intro node s₄ hmade
    exact ⟨hmade.toReads, by rw [hmade.eq]; exact hmore.pos_le⟩
  | none =>
    have hkind : target.kind = .subscript := htarget.resolve_right (by simp [hop])
    apply (peek_meets hwithin.sound).bind
    intro tok s₂ hpeek
    apply (report_reports hpeek.stays.sound hpeek.next.stop_le_size rfl).bind
    intro _ s₃ hreport
    have hstays := hpeek.stays.trans hreport.toStays
    have hlacks (hrunning : s₃.halted = false) : Node.LacksOperator s₃.diagnostics [target] := by
      obtain ⟨diagnostic, hmem, hcause, hspan⟩ :=
        hreport.mem (hreport.toStays.halted_eq ▸ hrunning)
      refine ⟨target, rfl, hkind, diagnostic, hmem, hcause, ?_⟩
      have hstop : target.span.stop ≤ s.pos := (tiles_cons.1 h.tiles).2.2.le
      have hstart := hpeek.next.offset_le
      rw [hpeek.stays.pos_eq] at hstart
      rw [hspan]
      omega
    apply (node_made (h.stays hstays) .variableAssignment
      (.of_assigns (by simp) fun hrunning => .inr (hlacks hrunning))).mono
    intro node s₄ hmade
    exact ⟨hmade.toReads, by rw [hmade.eq]; exact hstays.reads.pos_le⟩

theorem assignment_meets (hinner : inner.Fits env level)
    (h : Opens env level assignmentFlags s)
    (hkind : (s.token env assignmentFlags).kind = .variableName) :
    Meets env s (assignment inner) fun node s' =>
      Reads env s [node] s' ∧ (s.token env assignmentFlags).span.stop ≤ s'.pos := by
  unfold assignment
  apply (peekAssignment_meets h.sound).bind
  intro tok s₁ hpeek
  rw [← hpeek.eq_token] at hkind
  apply ((hpeek.next.leafAt_meets hpeek.stays.sound (hpeek.ne_eof h) rfl).and_returns
    (leafAt_returns _ _)).bind
  rintro name s₂ ⟨hname, rfl⟩
  have hwithin := h.taken hpeek hname
  have hname₂ := hpeek.stays.reads.trans hname.toReads
  have hpos : (s.token env assignmentFlags).span.stop = s₂.pos := by
    rw [hname.pos_eq, hpeek.eq_token]
  obtain ⟨cs, htail, hcs⟩ := hwithin.sound.boundary.exists_tail?
  rw [meets_bind_upcoming htail, hpos]
  dsimp only
  split
  . next hbracket =>
    rw [beq_iff_eq, List.head?_eq_some_iff] at hbracket
    obtain ⟨cs, rfl⟩ := hbracket
    apply ((subscript_reads hinner hwithin.succ hname₂ hcs).and_returns
      (subscript_returns _ _)).bind
    rintro target s₃ ⟨⟨htarget, hle⟩, hsubscript⟩
    have hroom : Room env level 2 s₃.pos s₃.depth := by
      rw [htarget.depth_eq, ← hname₂.depth_eq]
      exact hwithin.toRoom.mono hle
    obtain ⟨after, hafter, _⟩ := htarget.sound.boundary.exists_tail?
    apply (assignmentFrom_meets hinner ⟨hroom, htarget.sound⟩ htarget hafter
      (.inl hsubscript)).mono
    intro node s₄ hnode
    exact ⟨hnode.1, Nat.le_trans hle hnode.2⟩
  . next hbracket =>
    have hadmits := hpeek.next.admits cs (by rwa [← hname.pos_eq])
    rw [hkind] at hadmits
    have hopens := hadmits.resolve_left (by simpa using hbracket)
    exact assignmentFrom_meets hinner hwithin hname₂ htail
      (.inr ⟨rfl, assignmentOperator?_isSome hopens⟩)

end Grammar
end ShellTree
