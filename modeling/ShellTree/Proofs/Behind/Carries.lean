import ShellTree.Parse.Context
import ShellTree.Parse.Report
import ShellTree.Proofs.Behind.Lexer
import ShellTree.Proofs.Parse.State

/-!
This module contains the parse of a text that stands behind another, beside the parse of the text
by itself. The outer parse does what the inner one does as long as that does not halt: its limits
are no tighter, it is nested no deeper, and it has read and reported something before. Where the
limits and the nesting are the same, a halt of one is a halt of the other.
-/

namespace ShellTree
namespace Parse

/-- What is known of the nesting of two parses that go in and out together, of which the second is
never the deeper one. -/
structure DepthRelation where
  Depths : Nat → Nat → Prop
  depths_refl : ∀ depth, Depths depth depth
  depths_le : ∀ depth depth', Depths depth depth' → depth' ≤ depth
  depths_succ : ∀ depth depth', Depths depth depth' → Depths (depth + 1) (depth' + 1)
  depths_pred : ∀ depth depth', Depths depth depth' → Depths (depth - 1) (depth' - 1)

namespace DepthRelation

def same : DepthRelation where
  Depths := Eq
  depths_refl _ := rfl
  depths_le _ _ h := Nat.le_of_eq h.symm
  depths_succ _ _ := congrArg (· + 1)
  depths_pred _ _ := congrArg (· - 1)

def shallower : DepthRelation where
  Depths depth depth' := depth' ≤ depth
  depths_refl := Nat.le_refl
  depths_le _ _ := id
  depths_succ _ _ := Nat.succ_le_succ
  depths_pred _ _ h := Nat.sub_le_sub_right h 1

end DepthRelation

/-- A parse of a text by itself and a parse that comes to the text behind another. -/
structure Embedding extends DepthRelation where
  before : List Char
  inner : Env
  outer : Env
  behind : inner.source.Behind before outer.source
  /-- The reports and the statement boundaries of the text before. -/
  reports : List Diagnostic
  boundaries : Nat
  maxDepth_le : inner.options.maxDepth ≤ outer.options.maxDepth
  statements_le : ∀ limit ∈ outer.options.maxStatements, ∃ limit' ∈ inner.options.maxStatements,
    limit' + boundaries ≤ limit
  cancelled_eq : outer.cancelled = inner.cancelled
  /-- What is known of the comments that the two have seen. -/
  Logs : CommentLog → CommentLog → Prop
  insertAll : ∀ log log' comments, Logs log log' →
    Logs (log.insertAll comments) (log'.insertAll (moved (byteLength before) comments))

/-- What the state of the outer parse does not share with that of the inner one. -/
structure Apart where
  comments : CommentLog := {}
  depth : Nat := 0

namespace Embedding

variable (E : Embedding)

/-- By how much the offsets of the outer parse are greater. -/
def width : Nat := byteLength E.before

/-- The report of the outer parse at a report of the inner one. -/
def report (diagnostic : Diagnostic) : Diagnostic :=
  { diagnostic with
    span := moved E.width diagnostic.span
    line := (E.outer.source.lineColumn (diagnostic.span.start + E.width)).1
    column := (E.outer.source.lineColumn (diagnostic.span.start + E.width)).2 }

/-- The state of the outer parse at a state of the inner one. -/
def state (s : State) (own : Apart) : State :=
  { s with
    pos := s.pos + E.width
    pending := moved E.width s.pending
    diagnostics := E.reports ++ s.diagnostics.map E.report
    depth := own.depth
    boundaries := s.boundaries + E.boundaries
    comments := own.comments }

structure Pairs (s : State) (own : Apart) : Prop where
  logs : E.Logs s.comments own.comments
  depths : E.Depths s.depth own.depth

/-- The outer parse has the limits and the nesting of the inner one. -/
structure IsTight : Prop where
  options_eq : E.outer.options = E.inner.options
  boundaries_eq : E.boundaries = 0
  depths_eq : ∀ depth depth', E.Depths depth depth' → depth' = depth

/-- The outer parse does what the inner one has done to come to the state. -/
def Follows (s : State) : Prop := E.IsTight ∨ s.halted = false

end Embedding

variable {α β : Type} {E : Embedding}

variable [Moves α] [Moves β]

/-- A halt is for good, and what the inner parse does without one, the outer parse does as well. A
parse with the same limits fails where the inner one does. -/
structure Carries (E : Embedding) (m m' : Parse α) : Prop where
  halted : ∀ s a s', m E.inner s = .ok (a, s') → s.halted = true → s'.halted = true
  run : ∀ s a s', m E.inner s = .ok (a, s') → E.Follows s' →
    ∀ own, E.Pairs s own → ∃ own', E.Pairs s' own' ∧
      m' E.outer (E.state s own) = .ok (moved E.width a, E.state s' own')
  fails : ∀ s, m E.inner s = .error .splitCharacter → E.IsTight →
    ∀ own, E.Pairs s own → m' E.outer (E.state s own) = .error .splitCharacter

theorem carries_of_fault {fault : Fault} {m m' : Parse α} (h : ∀ s, m E.inner s = .error fault)
    (h' : fault = .splitCharacter → ∀ s, m' E.outer s = .error fault) : Carries E m m' := by
  refine ⟨fun s a s' heq => ?_, fun s a s' heq => ?_, fun s heq _ own _ => ?_⟩
  . rw [h s] at heq
    cases heq
  . rw [h s] at heq
    cases heq
  . rw [h s] at heq
    cases heq
    exact h' rfl _

theorem carries_pure {a a' : α} (h : a' = moved E.width a) :
    Carries E (pure a) (pure a') := by
  constructor
  . rintro s b s' ⟨⟩
    exact id
  . rintro s b s' ⟨⟩ _ own hown
    exact ⟨own, hown, by rw [h]; rfl⟩
  . rintro s ⟨⟩

theorem Carries.running {m m' : Parse α} {s s' : State} {a : α} (h : Carries E m m')
    (hrun : m E.inner s = .ok (a, s')) (hs' : s'.halted = false) : s.halted = false := by
  rw [← Bool.not_eq_true] at hs' ⊢
  exact mt (h.halted s a s' hrun) hs'

theorem Carries.follows {m m' : Parse α} {s s' : State} {a : α} (h : Carries E m m')
    (hrun : m E.inner s = .ok (a, s')) (hs' : E.Follows s') : E.Follows s :=
  hs'.imp_right (h.running hrun)

theorem Carries.bind {m m' : Parse α} {f f' : α → Parse β} (h : Carries E m m')
    (hf : ∀ a, Carries E (f a) (f' (moved E.width a))) : Carries E (m >>= f) (m' >>= f') := by
  constructor
  . intro s b s' heq hs
    obtain ⟨a, s₁, hm, hfa⟩ := bind_run.1 heq
    exact (hf a).halted s₁ b s' hfa (h.halted s a s₁ hm hs)
  . intro s b s' heq hs' own hown
    obtain ⟨a, s₁, hm, hfa⟩ := bind_run.1 heq
    -- no halt in between that counts, since the end would be halted as well
    obtain ⟨own₁, hown₁, hm'⟩ := h.run s a s₁ hm ((hf a).follows hfa hs') own hown
    obtain ⟨own₂, hown₂, hfa'⟩ := (hf a).run s₁ b s' hfa hs' own₁ hown₁
    exact ⟨own₂, hown₂, bind_run.2 ⟨_, _, hm', hfa'⟩⟩
  . intro s heq hE own hown
    obtain hm | ⟨a, s₁, hm, hfa⟩ := bind_fault.1 heq
    . exact bind_fault.2 (.inl (h.fails s hm hE own hown))
    . obtain ⟨own₁, hown₁, hm'⟩ := h.run s a s₁ hm (.inl hE) own hown
      exact bind_fault.2 (.inr ⟨_, _, hm', (hf a).fails s₁ hfa hE own₁ hown₁⟩)

theorem Carries.bindOption {m m' : Parse (Option α)} {f f' : Option α → Parse β}
    (h : Carries E m m') (hnone : Carries E (f none) (f' none))
    (hsome : ∀ a, Carries E (f (some a)) (f' (some (moved E.width a)))) :
    Carries E (m >>= f) (m' >>= f') := by
  apply h.bind
  intro result
  cases result with
  | none => exact hnone
  | some a => exact hsome a

/-- What a parse with the same limits has for a result is that of the inner one. -/
theorem Carries.run_of_outer {m m' : Parse α} {s s'' : State} {a' : α} {own : Apart}
    {post : α → State → Prop} (h : Carries E m m') (hE : E.IsTight)
    (hmeets : Meets E.inner s m post) (hown : E.Pairs s own)
    (houter : m' E.outer (E.state s own) = .ok (a', s'')) :
    ∃ a s' own', m E.inner s = .ok (a, s') ∧ a' = moved E.width a ∧ s'' = E.state s' own' := by
  unfold Meets at hmeets
  cases hrun : m E.inner s with
  | error fault =>
    -- the one fault that there can be would be one of the outer parse
    rw [hrun] at hmeets
    obtain ⟨rfl, _⟩ := hmeets
    cases houter.symm.trans (h.fails s hrun hE own hown)
  | ok result =>
    obtain ⟨a, s'⟩ := result
    obtain ⟨own', _, hrun'⟩ := h.run s a s' hrun (.inl hE) own hown
    cases houter.symm.trans hrun'
    exact ⟨a, s', own', rfl, rfl, rfl⟩

theorem carries_ite {p p' : Prop} [Decidable p] [Decidable p'] {m m' n n' : Parse α}
    (hp : p' ↔ p) (h : p → Carries E m m') (h' : ¬p → Carries E n n') :
    Carries E (if p then m else n) (if p' then m' else n') := by
  split
  . next hpos =>
    rw [if_pos (hp.2 hpos)]
    exact h hpos
  . next hneg =>
    rw [if_neg (mt hp.1 hneg)]
    exact h' hneg

theorem carries_ite_bind {p p' : Prop} [Decidable p] [Decidable p'] {m m' : Parse Unit}
    {f f' : Unit → Parse β} (hp : p' ↔ p) (hm : Carries E m m')
    (hf : Carries E (f ()) (f' ())) :
    Carries E (if p then m >>= f else f ()) (if p' then m' >>= f' else f' ()) :=
  carries_ite hp (fun _ => hm.bind fun _ => hf) fun _ => hf

theorem carries_ite_binds {p p' : Prop} [Decidable p] [Decidable p'] {m m' n n' : Parse α}
    {f f' : α → Parse β} (hp : p' ↔ p) (hm : Carries E m m') (hn : Carries E n n')
    (hf : ∀ a, Carries E (f a) (f' (moved E.width a))) :
    Carries E (if p then m >>= f else n >>= f) (if p' then m' >>= f' else n' >>= f') :=
  carries_ite hp (fun _ => hm.bind hf) fun _ => hn.bind hf

/-! ### The environment and the state -/

theorem carries_bind_get {f f' : State → Parse β}
    (hf : ∀ s own, Carries E (f s) (f' (E.state s own))) :
    Carries E (get >>= f) (get >>= f') :=
  ⟨fun s => (hf s {}).halted s, fun s b s' heq hs' own => (hf s own).run s b s' heq hs' own,
    fun s heq hE own => (hf s own).fails s heq hE own⟩

theorem carries_bind_read {f f' : Env → Parse β} (hf : Carries E (f E.inner) (f' E.outer)) :
    Carries E (read >>= f) (read >>= f') := ⟨hf.halted, hf.run, hf.fails⟩

theorem carries_bind_source {f f' : Source → Parse β}
    (hf : Carries E (f E.inner.source) (f' E.outer.source)) :
    Carries E (source >>= f) (source >>= f') := ⟨hf.halted, hf.run, hf.fails⟩

theorem carries_bind_isHalted {f f' : Bool → Parse β} (hf : ∀ b, Carries E (f b) (f' b)) :
    Carries E (isHalted >>= f) (isHalted >>= f') :=
  ⟨fun s => (hf s.halted).halted s, fun s => (hf s.halted).run s,
    fun s => (hf s.halted).fails s⟩

theorem position_carries : Carries E position position := by
  constructor
  . rintro s offset s' ⟨⟩
    exact id
  . rintro s offset s' ⟨⟩ _ own hown
    exact ⟨own, hown, rfl⟩
  . rintro s ⟨⟩

theorem carries_modify {g g' : State → State}
    (hhalted : ∀ s, s.halted = true → (g s).halted = true)
    (h : ∀ s own, E.Pairs s own → ∃ own', E.Pairs (g s) own' ∧
      g' (E.state s own) = E.state (g s) own') :
    Carries E (modify g) (modify g') := by
  constructor
  . rintro s a s' ⟨⟩
    exact hhalted s
  . rintro s a s' ⟨⟩ _ own hown
    obtain ⟨own', hown', heq⟩ := h s own hown
    exact ⟨own', hown', congrArg (fun s => Except.ok (PUnit.unit, s)) heq⟩
  . rintro s ⟨⟩

/-- A change of the state that leaves the comments and the nesting alone. -/
theorem modify_carries {g g' : State → State}
    (h : ∀ s own, (s.halted = true → (g s).halted = true) ∧ (g s).comments = s.comments ∧
      (g s).depth = s.depth ∧ g' (E.state s own) = E.state (g s) own) :
    Carries E (modify g) (modify g') := by
  apply carries_modify
  . exact fun s => (h s {}).1
  . intro s own hown
    obtain ⟨_, hcomments, hdepth, heq⟩ := h s own
    refine ⟨own, ⟨?_, ?_⟩, heq⟩
    . rw [hcomments]
      exact hown.logs
    . rw [hdepth]
      exact hown.depths

theorem carries_bind_modify {g g' : State → State} {f f' : PUnit → Parse β}
    (h : ∀ s own, (s.halted = true → (g s).halted = true) ∧ (g s).comments = s.comments ∧
      (g s).depth = s.depth ∧ g' (E.state s own) = E.state (g s) own)
    (hf : Carries E (f ⟨⟩) (f' ⟨⟩)) : Carries E (modify g >>= f) (modify g' >>= f') :=
  (modify_carries h).bind fun _ => hf

theorem setPosition_carries (offset : Nat) :
    Carries E (setPosition offset) (setPosition (offset + E.width)) :=
  modify_carries fun _ _ => ⟨id, rfl, rfl, rfl⟩

theorem liftM_carries {x x' : Except Fault α} (h : x' = x.map (moved E.width)) :
    Carries E (liftM x) (liftM x') := by
  subst h
  cases x with
  | error fault => exact carries_of_fault (fun _ => rfl) fun _ _ => rfl
  | ok a => exact carries_pure rfl

theorem spanBetween_carries (start stop : Nat) :
    Carries E (spanBetween start stop) (spanBetween (start + E.width) (stop + E.width)) :=
  liftM_carries (between_moved start stop)

theorem carries_bind_charactersAt {offset : Nat} {f f' : List Char → Parse β}
    (hf : ∀ cs, Carries E (f cs) (f' cs)) :
    Carries E (charactersAt offset >>= f) (charactersAt (offset + E.width) >>= f') := by
  unfold charactersAt
  rw [bind_assoc, bind_assoc]
  apply carries_bind_source
  rw [Embedding.width, E.behind.tail?_eq]
  cases E.inner.source.tail? offset with
  | some cs => exact hf cs
  | none => exact carries_of_fault (fun _ => rfl) fun _ _ => rfl

theorem carries_bind_upcoming {f f' : List Char → Parse β}
    (hf : ∀ cs, Carries E (f cs) (f' cs)) :
    Carries E (upcoming >>= f) (upcoming >>= f') := by
  unfold upcoming
  rw [bind_assoc, bind_assoc]
  exact position_carries.bind fun offset => carries_bind_charactersAt hf

/-! ### Loops -/

/-- What is left to read is the same for both, and to ask for it changes nothing. -/
def SameLeft (E : Embedding) (left left' : Parse Nat) : Prop :=
  ∀ s own, ∃ n, left E.inner s = .ok (n, s) ∧
    left' E.outer (E.state s own) = .ok (n, E.state s own)

theorem SameLeft.carries_bind {left left' : Parse Nat} {f f' : Nat → Parse β}
    (h : SameLeft E left left') (hf : ∀ n, Carries E (f n) (f' n)) :
    Carries E (left >>= f) (left' >>= f') := by
  have hrun : ∀ s own, ∃ n, (left >>= f) E.inner s = f n E.inner s ∧
      (left' >>= f') E.outer (E.state s own) = f' n E.outer (E.state s own) := by
    intro s own
    obtain ⟨n, hleft, hleft'⟩ := h s own
    refine ⟨n, ?_, ?_⟩
    . simp only [Bind.bind, ReaderT.bind, StateT.bind, Except.bind, hleft]
    . simp only [Bind.bind, ReaderT.bind, StateT.bind, Except.bind, hleft']
  constructor
  . intro s b s' heq
    obtain ⟨n, hfn, _⟩ := hrun s {}
    rw [hfn] at heq
    exact (hf n).halted s b s' heq
  . intro s b s' heq hs' own hown
    obtain ⟨n, hfn, hfn'⟩ := hrun s own
    rw [hfn] at heq
    rw [hfn']
    exact (hf n).run s b s' heq hs' own hown
  . intro s heq hE own hown
    obtain ⟨n, hfn, hfn'⟩ := hrun s own
    rw [hfn] at heq
    rw [hfn']
    exact (hf n).fails s heq hE own hown

variable {step step' : α → Parse (ForInStep α)} {left left' : α → Parse Nat}

theorem repeatUpTo_carries (hleft : ∀ a, SameLeft E (left a) (left' (moved E.width a)))
    (hstep : ∀ a, Carries E (step a) (step' (moved E.width a))) {fuel fuel' : Nat}
    (hle : fuel ≤ fuel') (a : α) :
    Carries E (repeatUpTo step left fuel a) (repeatUpTo step' left' fuel' (moved E.width a)) := by
  -- the inner loop faults where its fuel ends, so that the outer loop may go on
  induction fuel generalizing a fuel' with
  | zero => exact carries_of_fault (fun _ => rfl) (by simp)
  | succ fuel ih =>
    obtain ⟨fuel', rfl⟩ : ∃ n, fuel' = n + 1 := ⟨fuel' - 1, by omega⟩
    apply (hleft a).carries_bind
    intro n
    apply (hstep a).bind
    intro result
    cases result with
    | done a => exact carries_pure rfl
    | yield a =>
      apply (hleft a).carries_bind
      intro n'
      apply carries_ite Iff.rfl
      . intro _
        exact ih (Nat.le_of_succ_le_succ hle) a
      . intro _
        exact carries_of_fault (fun _ => rfl) (by simp)

theorem repeatStep_carries {a a' : α} (ha : a' = moved E.width a)
    (hleft : ∀ a, SameLeft E (left a) (left' (moved E.width a)))
    (hstep : ∀ a, Carries E (step a) (step' (moved E.width a))) :
    Carries E (repeatStep step a left) (repeatStep step' a' left') := by
  unfold repeatStep
  apply carries_bind_source
  rw [ha, E.behind.size_eq]
  exact repeatUpTo_carries hleft hstep (by omega) a

end Parse

end ShellTree
