import ShellTree.Parse.Context
import ShellTree.Parse.Token
import ShellTree.Proofs.Genuine
import ShellTree.Proofs.Lexer
import ShellTree.Proofs.Parse.Meets

/-!
This module contains partial correctness: what holds of the result of a computation, if there is
one. Nothing has to be known of the state that it starts from.
-/

namespace ShellTree

namespace Lexer

/-- The end of the input comes next only where nothing but trivia is left. -/
theorem size_le_of_next_eof {src : Source} {offset : Nat} {mode : Mode} {flags : Flags}
    {tok : Token} {comments : List Span} (h : next src offset mode flags = .ok (tok, comments))
    (hkind : tok.kind = .eof) : src.size ≤ (skipTrivia src offset mode flags).1 := by
  unfold next at h
  dsimp only at h
  split at h
  . next cs htail =>
    cases h
    rw [(tokenOf_tokenOf mode flags cs).eof_iff.1 hkind] at htail
    exact Nat.le_of_eq (Source.tail?_eq_some_iff.1 htail).stop_eq
  . split at h
    . next hsize => exact hsize
    . cases h

end Lexer

namespace Parse

variable {α β : Type} {env : Env} {s s' : State}

/-- Whatever the computation returns from the state meets the condition. -/
def Ensures (env : Env) (s : State) (m : Parse α) (post : α → State → Prop) : Prop :=
  ∀ a s', m env s = .ok (a, s') → post a s'

theorem Ensures.mono {m : Parse α} {post post' : α → State → Prop} (h : Ensures env s m post)
    (hpost : ∀ a s', post a s' → post' a s') : Ensures env s m post' :=
  fun a s' hrun => hpost a s' (h a s' hrun)

theorem Ensures.bind {m : Parse α} {f : α → Parse β} {post : α → State → Prop}
    {post' : β → State → Prop} (h : Ensures env s m post)
    (hf : ∀ a s', post a s' → Ensures env s' (f a) post') : Ensures env s (m >>= f) post' := by
  intro b s₂ hrun
  obtain ⟨a, s₁, hm, hfa⟩ := bind_run.1 hrun
  exact hf a s₁ (h a s₁ hm) b s₂ hfa

theorem ensures_bind {m : Parse α} {f : α → Parse β} {post : β → State → Prop}
    (hf : ∀ a s', Ensures env s' (f a) post) : Ensures env s (m >>= f) post := by
  have hany : Ensures env s m fun _ _ => True := fun _ _ _ => trivial
  exact hany.bind fun a s' _ => hf a s'

theorem ensures_pure {a : α} {post : α → State → Prop} (h : post a s) :
    Ensures env s (pure a) post := by
  rintro _ _ ⟨⟩
  exact h

theorem Returns.ensures {m : Parse α} {p : α → Prop} (h : Returns m p) :
    Ensures env s m fun a _ => p a := fun a s' hrun => h env s a s' hrun

theorem Meets.and_ensures {m : Parse α} {post post' : α → State → Prop} (h : Meets env s m post)
    (h' : Ensures env s m post') : Meets env s m fun a s' => post a s' ∧ post' a s' := by
  unfold Meets at h ⊢
  split
  . next a s' hrun =>
    rw [hrun] at h
    exact ⟨h, h' a s' hrun⟩
  . next fault hrun =>
    rw [hrun] at h
    exact h

theorem ensures_inMode {mode : Mode} {m : Parse α} {post : α → State → Prop}
    (h : ∀ s, Ensures env s m fun a s' => ∀ modes, post a { s' with modes := modes }) :
    Ensures env s (inMode mode m) post := by
  unfold inMode
  apply ensures_bind
  intro _ s₁
  refine (h s₁).bind ?_
  rintro a s₂ hpost b s₃ ⟨⟩
  exact hpost _

theorem ensures_withFlags {flags : Flags} {m : Parse α} {post : α → State → Prop}
    (h : ∀ s, Ensures env s m fun a s' => ∀ flags, post a { s' with flags := flags }) :
    Ensures env s (withFlags flags m) post := by
  unfold withFlags
  iterate 2
    apply ensures_bind
    intro _ _
  refine (h _).bind ?_
  rintro a s₂ hpost b s₃ ⟨⟩
  exact hpost _

theorem ensures_withinBackticks {m : Parse α} {post : α → State → Prop}
    (h : ∀ s, Ensures env s m fun a s' => ∀ inBacktick,
      post a { s' with inBacktick := inBacktick }) :
    Ensures env s (withinBackticks m) post := by
  unfold withinBackticks
  iterate 2
    apply ensures_bind
    intro _ _
  refine (h _).bind ?_
  rintro a s₂ hpost b s₃ ⟨⟩
  exact hpost _

/-- What holds of the result of a step that is the last. -/
def Finishes (post : α → State → Prop) : ForInStep α → State → Prop
  | .done a, s' => post a s'
  | .yield _, _ => True

theorem ensures_repeatStep {step : α → Parse (ForInStep α)} {left : α → Parse Nat} {a : α}
    {post : α → State → Prop} (hstep : ∀ a s, Ensures env s (step a) (Finishes post)) :
    Ensures env s (repeatStep step a left) post := by
  have hrepeat : ∀ fuel a s, Ensures env s (repeatUpTo step left fuel a) post := by
    intro fuel
    induction fuel with
    | zero =>
      intro a s b s' hrun
      cases hrun
    | succ fuel ih =>
      intro a s
      unfold repeatUpTo
      apply ensures_bind
      intro before s₁
      refine (hstep a s₁).bind fun result s₂ hresult => ?_
      cases result with
      | done a' => exact ensures_pure hresult
      | yield a' =>
        apply ensures_bind
        intro after s₃
        split
        . exact ih a' s₃
        . intro b s' hrun
          cases hrun
  unfold repeatStep
  apply ensures_bind
  intro src s₁
  exact hrepeat _ a s₁

/-! ### Places -/

/-- Nothing but trivia is left, or the parse has halted. -/
def AtEnd (env : Env) (s : State) : Prop :=
  s.halted = true ∨
    ∃ mode flags, env.source.size ≤ (Lexer.skipTrivia env.source s.pos mode flags).1

/-- The parse is where it was. -/
structure Waits (s s' : State) : Prop where
  pos_eq : s'.pos = s.pos
  halted_eq : s'.halted = s.halted

theorem Waits.atEnd (h : Waits s s') (hend : AtEnd env s) : AtEnd env s' := by
  unfold AtEnd
  rw [h.pos_eq, h.halted_eq]
  exact hend

theorem atEnd_of_tail? (h : env.source.tail? s.pos = some []) : AtEnd env s := by
  refine .inr ⟨.command, {}, ?_⟩
  simp only [Lexer.skipTrivia, Trivia.skip, h, Trivia.skipFrom]
  exact Nat.le_of_eq (Source.tail?_eq_some_iff.1 h).stop_eq

/-- The parse has halted, or something is reported. -/
def Blemished (s : State) : Prop := s.halted = true ∨ s.diagnostics ≠ []

/-- The input has ended where the parse did not expect it. -/
def GivesUp (env : Env) (s : State) : Prop := AtEnd env s ∧ Blemished s

/-- The parse goes on where the node ends, or what lacks its closer is to blame. -/
def Ends (env : Env) (node : Node) (s : State) : Prop :=
  node.span.stop = s.pos ∨ node.IsOpenSubstitution env.source ∨ GivesUp env s

theorem report_waits (cause : Cause) (span : Span) :
    Ensures env s (report cause span) fun _ s' => Waits s s' ∧ Blemished s' := by
  rintro _ s' hrun
  unfold report at hrun
  obtain ⟨halted, _, ⟨⟩, hrun⟩ := bind_run.1 hrun
  split at hrun
  . cases hrun
    exact ⟨⟨rfl, rfl⟩, .inr (by simp)⟩
  . next hhalted =>
    cases hrun
    exact ⟨⟨rfl, rfl⟩, .inl (by simpa using hhalted)⟩

theorem reportUnclosed_waits (what : Unclosed) (start : Nat) :
    Ensures env s (reportUnclosed what start) fun _ s' => Waits s s' ∧ Blemished s' := by
  intro _ s' hrun
  unfold reportUnclosed at hrun
  obtain ⟨_, _, ⟨⟩, hrun⟩ := bind_run.1 hrun
  obtain ⟨span, s₁, hspan, hreport⟩ := bind_run.1 hrun
  rw [spanBetween_run hspan] at hreport
  exact report_waits _ _ _ _ hreport

theorem ensures_bind_setPosition {offset : Nat} {f : PUnit → Parse β} {post : β → State → Prop} :
    Ensures env s (setPosition offset >>= f) post ↔
      Ensures env { s with pos := offset } (f ⟨⟩) post := Iff.rfl

theorem charactersAt_ensures (offset : Nat) :
    Ensures env s (charactersAt offset) fun cs s' =>
      s' = s ∧ env.source.tail? offset = some cs := by
  intro cs s' hrun
  unfold charactersAt at hrun
  obtain ⟨_, _, ⟨⟩, hrun⟩ := bind_run.1 hrun
  cases htail : env.source.tail? offset with
  | none =>
    rw [htail] at hrun
    cases hrun
  | some ds =>
    rw [htail] at hrun
    cases hrun
    exact ⟨rfl, rfl⟩

theorem upcoming_ensures : Ensures env s upcoming fun cs s' =>
    s' = s ∧ env.source.tail? s.pos = some cs := charactersAt_ensures s.pos

theorem enter_ensures :
    Ensures env s enter fun entered s' => entered = false → s'.halted = true := by
  intro entered s' hrun
  unfold enter at hrun
  obtain ⟨_, _, ⟨⟩, hrun⟩ := bind_run.1 hrun
  obtain ⟨_, _, ⟨⟩, hrun⟩ := bind_run.1 hrun
  obtain ⟨_, _, ⟨⟩, hrun⟩ := bind_run.1 hrun
  split at hrun
  . next hhalted =>
    cases hrun
    exact fun _ => hhalted
  . split at hrun
    . obtain ⟨_, s₁, hhalt, hfalse⟩ := bind_run.1 hrun
      cases hfalse
      unfold halt at hhalt
      obtain ⟨_, _, ⟨⟩, hhalt⟩ := bind_run.1 hhalt
      obtain ⟨_, _, ⟨⟩, hhalt⟩ := bind_run.1 hhalt
      obtain ⟨_, _, _, hhalt⟩ := bind_run.1 hhalt
      obtain ⟨_, _, _, hmodify⟩ := bind_run.1 hhalt
      cases hmodify
      exact fun _ => rfl
    . cases hrun
      exact fun hfalse => absurd hfalse (by decide)

theorem ensures_nest {body : Parse (Option Node)} {post : Option Node → State → Prop}
    (hbody : ∀ s, Ensures env s body fun result s' =>
      ∀ depth, post result { s' with depth := depth })
    (hhalted : ∀ result s', s'.halted = true → post result s') :
    Ensures env s (nest body) post := by
  unfold nest
  refine enter_ensures.bind fun entered s₁ hentered => ?_
  split
  . refine (hbody s₁).bind ?_
    rintro result s₂ hpost _ s₃ ⟨⟩
    exact hpost _
  . next hfalse =>
    rintro _ s₂ ⟨⟩
    exact hhalted _ _ (hentered (by simpa using hfalse))

theorem peekWith_run {flags : Flags} {tok : Token} (hrun : peekWith flags env s = .ok (tok, s')) :
    Waits s s' ∧ (s.halted = true ∧ tok = .endAt s.pos false ∨ s.halted = false ∧
      ∃ comments, Lexer.next env.source s.pos s.mode
        { flags with stopAtBacktick := flags.stopAtBacktick || s.inBacktick } =
          .ok (tok, comments)) := by
  unfold peekWith at hrun
  obtain ⟨_, _, ⟨⟩, hrun⟩ := bind_run.1 hrun
  dsimp only at hrun
  by_cases hhalted : s.halted = true
  . rw [if_pos hhalted] at hrun
    cases hrun
    exact ⟨⟨rfl, rfl⟩, .inl ⟨hhalted, rfl⟩⟩
  . rw [if_neg hhalted] at hrun
    obtain ⟨_, _, ⟨⟩, hrun⟩ := bind_run.1 hrun
    obtain ⟨⟨tok', comments⟩, s₁, hnext, hremember⟩ := bind_run.1 hrun
    obtain ⟨hnext, rfl⟩ := liftM_run hnext
    cases hremember
    exact ⟨⟨rfl, rfl⟩, .inr ⟨by simpa using hhalted, _, hnext⟩⟩

theorem peek_ensures : Ensures env s peek fun tok s' =>
    Waits s s' ∧ (tok.kind = .eof → AtEnd env s') := by
  intro tok s' hrun
  unfold peek at hrun
  obtain ⟨_, _, ⟨⟩, hrun⟩ := bind_run.1 hrun
  obtain ⟨hwaits, hnext⟩ := peekWith_run hrun
  refine ⟨hwaits, fun hkind => hwaits.atEnd ?_⟩
  obtain ⟨hhalted, _⟩ | ⟨_, comments, hnext⟩ := hnext
  . exact .inl hhalted
  . exact .inr ⟨s.mode, _, Lexer.size_le_of_next_eof hnext hkind⟩

theorem leafAt_ensures (kind : NodeKind) (span : Span) :
    Ensures env s (leafAt kind span) fun leaf s' =>
      leaf = .leaf kind span ∧ s'.pos = span.stop := by
  rintro _ _ ⟨⟩
  exact ⟨rfl, rfl⟩

theorem tokenLeaf_ensures (tok : Token) : Ensures env s (tokenLeaf tok) fun leaf s' =>
    leaf = .leaf (kindOf tok.kind) tok.span ∧ s'.pos = tok.span.stop := by
  unfold tokenLeaf
  intro leaf s' hrun
  obtain ⟨_, _, ⟨⟩, hrun⟩ := bind_run.1 hrun
  split at hrun
  . obtain ⟨_, s₁, hreport, hrun⟩ := bind_run.1 hrun
    cases hrun
    exact ⟨rfl, (report_waits _ _ _ _ hreport).1.pos_eq⟩
  . cases hrun
    exact ⟨rfl, rfl⟩

theorem node_ensures (kind : NodeKind) (children : List Node) :
    Ensures env s (node kind children) fun node s' => s' = s ∧ node.kind = kind ∧
      node.children = children ∧ ∀ last ∈ children.getLast?, node.span.stop = last.span.stop := by
  unfold node
  split
  . next first last hfirst hlast =>
    intro node s' hrun
    obtain ⟨span, s₁, hspan, hnode⟩ := bind_run.1 hrun
    rw [spanBetween_run hspan] at hnode
    cases hnode
    refine ⟨rfl, rfl, rfl, fun last' hlast' => ?_⟩
    obtain ⟨hspan, _⟩ := liftM_run hspan
    unfold Span.between at hspan
    split at hspan
    . cases hspan
      rw [Option.mem_unique hlast' hlast]
    . cases hspan
  . next hnone =>
    rintro node s' ⟨⟩
    refine ⟨rfl, rfl, rfl, fun last hlast => ?_⟩
    cases children with
    | nil => simp at hlast
    | cons first rest => exact absurd hlast (hnone first last rfl)

end Parse
end ShellTree
