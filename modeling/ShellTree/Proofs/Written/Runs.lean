import ShellTree.Parse.Nested
import ShellTree.Proofs.Parse.Meets
import ShellTree.Proofs.Written.Phrase

/-!
This module contains runs of the parsing monad that go through without a report or a comment: what a
computation returns, where it stops, and which here-documents wait there for the next line break.
-/

namespace ShellTree
namespace Parse

/-- What such a run depends on besides its place: the modes of the open constructs and the nesting
level. -/
structure Setting where
  mode : Mode := .command
  outer : List Mode := []
  depth : Nat := 0

namespace Setting

def state (c : Setting) (place boundaries : Nat) : State :=
  { pos := place, modes := c.mode :: c.outer, depth := c.depth, boundaries := boundaries }

def waiting (c : Setting) (place boundaries : Nat) (requests : List Heredoc.Request) : State :=
  { c.state place boundaries with pending := requests }

def deeper (c : Setting) : Setting := { c with depth := c.depth + 1 }

def inside (c : Setting) (mode : Mode) : Setting :=
  { c with mode := mode, outer := c.mode :: c.outer }

end Setting

variable {α β : Type} {env : Env} {c : Setting} {p q r : Nat}
variable {before after later : List Heredoc.Request}

/-- The computation returns the value and leads the parse from `p` to `q`, and from the
here-documents that wait before it to those after it. It counts statement boundaries only where
nothing limits them. -/
def Leads (env : Env) (c : Setting) (p : Nat) (before : List Heredoc.Request) (m : Parse α) (a : α)
    (q : Nat) (after : List Heredoc.Request) : Prop :=
  ∀ n, ∃ n', m env (c.waiting p n before) = .ok (a, c.waiting q n' after) ∧
    (n' = n ∨ env.options.maxStatements = none)

namespace Leads

variable {m : Parse α} {a : α}

theorem of_eq (h : ∀ n, m env (c.waiting p n before) = .ok (a, c.waiting q n after)) :
    Leads env c p before m a q after :=
  fun n => ⟨n, h n, .inl rfl⟩

theorem bind {f : α → Parse β} {b : β} (h : Leads env c p before m a q after)
    (hf : Leads env c q after (f a) b r later) : Leads env c p before (m >>= f) b r later := by
  intro n
  obtain ⟨n₁, hm, hn₁⟩ := h n
  obtain ⟨n₂, hfa, hn₂⟩ := hf n₁
  refine ⟨n₂, bind_run.2 ⟨a, _, hm, hfa⟩, ?_⟩
  obtain rfl | hnone := hn₂
  . exact hn₁
  . exact .inr hnone

theorem pure (a : α) : Leads env c p before (pure a) a p before :=
  of_eq fun _ => rfl

theorem map (h : Leads env c p before m a q after) (f : α → β) :
    Leads env c p before (m >>= fun a => Pure.pure (f a)) (f a) q after := h.bind (pure _)

end Leads

/-- The computation runs where no here-document waits. -/
abbrev Runs (env : Env) (c : Setting) (p : Nat) (m : Parse α) (a : α) (q : Nat) : Prop :=
  Leads env c p [] m a q []

theorem leads_source : Leads env c p before source env.source p before :=
  .of_eq fun _ => rfl

theorem leads_position : Leads env c p before position p p before :=
  .of_eq fun _ => rfl

theorem leads_isHalted : Leads env c p before isHalted false p before :=
  .of_eq fun _ => rfl

theorem leads_setPosition (q : Nat) : Leads env c p before (setPosition q) () q before :=
  .of_eq fun _ => rfl

theorem leads_spanBetween (h : p ≤ q) :
    Leads env c r before (spanBetween p q) ⟨p, q, h⟩ r before := by
  unfold spanBetween Span.between
  rw [dif_pos h]
  exact .of_eq fun _ => rfl

theorem leads_charactersAt {cs : List Char} (h : env.source.tail? q = some cs) :
    Leads env c p before (charactersAt q) cs p before := by
  unfold charactersAt
  refine leads_source.bind ?_
  rw [h]
  exact Leads.pure cs

/-! ### Context -/

theorem Leads.inMode {mode : Mode} {m : Parse α} {a : α}
    (h : Leads env (c.inside mode) p before m a q after) :
    Leads env c p before (inMode mode m) a q after := by
  intro n
  obtain ⟨n', hm, hn⟩ := h n
  exact ⟨n', bind_run.2 ⟨(), _, rfl, bind_run.2 ⟨a, _, hm, rfl⟩⟩, hn⟩

theorem Leads.withFlags {m : Parse α} {a : α} (h : Leads env c p before m a q after) :
    Leads env c p before (withFlags {} m) a q after := by
  intro n
  obtain ⟨n', hm, hn⟩ := h n
  exact ⟨n', bind_run.2 ⟨_, _, rfl, bind_run.2 ⟨(), _, rfl, bind_run.2 ⟨a, _, hm, rfl⟩⟩⟩, hn⟩

theorem runs_attempt_none {m : Parse (Option α)} (h : Runs env c p m none q) :
    Runs env c p (attempt m) none p := by
  intro n
  obtain ⟨n', hm, hn⟩ := h n
  exact ⟨n', bind_run.2 ⟨_, _, rfl, bind_run.2 ⟨none, _, hm, rfl⟩⟩, hn⟩

theorem runs_attempt_some {m : Parse (Option α)} {a : α} (h : Runs env c p m (some a) q) :
    Runs env c p (attempt m) (some a) q := by
  intro n
  obtain ⟨n', hm, hn⟩ := h n
  exact ⟨n', bind_run.2 ⟨_, _, rfl, bind_run.2 ⟨some a, _, hm, rfl⟩⟩, hn⟩

theorem runs_lookAhead {m : Parse α} {a : α} (h : Runs env c p m a q) :
    Runs env c p (lookAhead m) a p := by
  intro n
  obtain ⟨n', hm, hn⟩ := h n
  exact ⟨n', bind_run.2 ⟨_, _, rfl, bind_run.2 ⟨a, _, hm, rfl⟩⟩, hn⟩

theorem enter_state (hdepth : c.depth < env.options.maxDepth) (p n : Nat) :
    enter env (c.state p n) = .ok (true, c.deeper.state p n) := by
  have hlimit : ¬(c.state p n).depth + 1 > env.options.maxDepth := Nat.not_lt.2 hdepth
  unfold enter
  refine bind_run.2 ⟨_, _, rfl, bind_run.2 ⟨_, _, rfl, bind_run.2 ⟨false, _, rfl, ?_⟩⟩⟩
  rw [if_neg Bool.false_ne_true, if_neg hlimit]
  rfl

theorem runs_nest (hdepth : c.depth < env.options.maxDepth) {m : Parse (Option Node)}
    {result : Option Node} (h : Runs env c.deeper p m result q) :
    Runs env c p (nest m) result q := by
  intro n
  obtain ⟨n', hm, hn⟩ := h n
  exact ⟨n', bind_run.2 ⟨true, _, enter_state hdepth p n, bind_run.2 ⟨result, _, hm, rfl⟩⟩, hn⟩

/-- Nothing limits the number of statements, and nobody cancels the parse. -/
structure Env.Unlimited (env : Env) : Prop where
  maxStatements_eq : env.options.maxStatements = none
  cancelled_eq : env.cancelled = false

theorem tick_run {n : Nat} (hcancelled : env.cancelled = false)
    (hlimit : ∀ limit ∈ env.options.maxStatements, n < limit) :
    tick env (c.state p n) = .ok (true, c.state p (n + 1)) := by
  unfold tick
  refine bind_run.2 ⟨false, _, rfl, ?_⟩
  rw [if_neg Bool.false_ne_true]
  refine bind_run.2 ⟨env, _, rfl, ?_⟩
  rw [hcancelled, if_neg Bool.false_ne_true]
  refine bind_run.2 ⟨_, _, rfl, bind_run.2 ⟨(), _, rfl, bind_run.2 ⟨env, _, rfl, ?_⟩⟩⟩
  cases hmax : env.options.maxStatements with
  | none => rfl
  | some limit =>
    have hle : ¬(c.state p n).boundaries + 1 > limit := Nat.not_lt.2 (hlimit limit hmax)
    dsimp only
    rw [if_neg hle]
    rfl

theorem runs_tick (h : env.Unlimited) : Runs env c p tick true p :=
  fun n => ⟨n + 1, tick_run h.cancelled_eq (by simp [h.maxStatements_eq]), .inr h.maxStatements_eq⟩

/-- What is left of the levels and of the nesting suffices for what comes at the place: a construct
takes something of the text before the constructs in it. -/
structure Enough (env : Env) (c : Setting) (level place : Nat) : Prop where
  size_lt : env.source.size < place + level
  depth_le : c.depth ≤ place
  size_le : env.source.size ≤ env.options.maxDepth

namespace Enough

variable {level start place : Nat}

theorem mono (h : Enough env c level start) (hle : start ≤ place) : Enough env c level place := by
  obtain ⟨hsize, hdepth, hmax⟩ := h
  exact ⟨by omega, by omega, hmax⟩

theorem deeper (h : Enough env c (level + 1) start) (hlt : start < place) :
    Enough env c.deeper level place := by
  obtain ⟨hsize, hdepth, hmax⟩ := h
  exact ⟨by omega, Nat.succ_le_of_lt (Nat.lt_of_le_of_lt hdepth hlt), hmax⟩

/-- A construct nests without another one in it, as far as the levels go. -/
theorem nesting (h : Enough env c level start) (hlt : start < place) :
    Enough env c.deeper level place := by
  obtain ⟨hsize, hdepth, hmax⟩ := h
  exact ⟨by omega, Nat.succ_le_of_lt (Nat.lt_of_le_of_lt hdepth hlt), hmax⟩

theorem depth_lt (h : Enough env c level place) (hlt : place < env.source.size) :
    c.depth < env.options.maxDepth := by
  obtain ⟨_, hdepth, hmax⟩ := h
  omega

theorem inside (h : Enough env c level place) (mode : Mode) :
    Enough env (c.inside mode) level place := ⟨h.size_lt, h.depth_le, h.size_le⟩

/-- There is a level for what is inside a construct. -/
theorem exists_level (h : Enough env c level start) (hlt : start < place)
    (hle : place ≤ env.source.size) : ∃ inside, level = inside + 1 ∧
      Enough env c.deeper inside place := by
  have hsize := h.size_lt
  obtain ⟨inside, rfl⟩ : ∃ n, level = n + 1 := ⟨level - 1, by omega⟩
  exact ⟨inside, rfl, h.deeper hlt⟩

end Enough

/-! ### Loops -/

section

variable {step : α → Parse (ForInStep α)} {left : α → Parse Nat} {a a' b : α} {fuel m n : Nat}

theorem Leads.repeatUpTo_done (hleft : Leads env c p before (left a) m p before)
    (hstep : Leads env c p before (step a) (.done b) q after) :
    Leads env c p before (repeatUpTo step left (fuel + 1) a) b q after := by
  unfold repeatUpTo
  exact hleft.bind (hstep.bind (.pure b))

theorem Leads.repeatUpTo_yield (hleft : Leads env c p before (left a) m p before)
    (hstep : Leads env c p before (step a) (.yield a') q after)
    (hleft' : Leads env c q after (left a') n q after) (hlt : n < m)
    (hrest : Leads env c q after (repeatUpTo step left fuel a') b r later) :
    Leads env c p before (repeatUpTo step left (fuel + 1) a) b r later := by
  unfold repeatUpTo
  refine hleft.bind (hstep.bind (hleft'.bind ?_))
  rw [if_pos hlt]
  exact hrest

theorem leads_remaining :
    Leads env c p before remaining (env.source.size - p + 1) p before :=
  .of_eq fun _ => rfl

end

/-- Steps of a loop lead from one value to another; each of them takes something. -/
inductive Rounds (env : Env) (c : Setting) (step : α → Parse (ForInStep α)) :
    Nat → α → Nat → α → Prop where
  | refl (p : Nat) (a : α) : Rounds env c step p a p a
  | head {p p' q : Nat} {a a' b : α} (hstep : Runs env c p (step a) (.yield a') p')
    (hlt : p < p') (hrounds : Rounds env c step p' a' q b) : Rounds env c step p a q b

namespace Rounds

variable {step : α → Parse (ForInStep α)} {a b : α} {d : α}

theorem le (h : Rounds env c step p a q b) : p ≤ q := by
  induction h with
  | refl => exact Nat.le_refl _
  | head _ hlt _ ih => omega

theorem trans (h : Rounds env c step p a q b) (h' : Rounds env c step q b r d) :
    Rounds env c step p a r d := by
  induction h with
  | refl => exact h'
  | head hstep hlt _ ih => exact .head hstep hlt (ih h')

theorem single (h : Runs env c p (step a) (.yield b) q) (hlt : p < q) :
    Rounds env c step p a q b := .head h hlt (.refl q b)

theorem repeatUpTo {stop : Nat} (h : Rounds env c step p a q b)
    (hdone : Runs env c q (step b) (.done d) stop) (hle : q ≤ env.source.size) {fuel : Nat}
    (hfuel : env.source.size - p < fuel) :
    Runs env c p (repeatUpTo step (fun _ => remaining) fuel a) d stop := by
  -- Each round takes something, so that a unit of fuel for each place left is enough.
  induction h generalizing fuel with
  | refl =>
    obtain ⟨fuel, rfl⟩ : ∃ n, fuel = n + 1 := ⟨fuel - 1, by omega⟩
    exact Leads.repeatUpTo_done leads_remaining hdone
  | head hstep hlt hrounds ih =>
    have hle' := hrounds.le
    obtain ⟨fuel, rfl⟩ : ∃ n, fuel = n + 1 := ⟨fuel - 1, by omega⟩
    exact Leads.repeatUpTo_yield leads_remaining hstep leads_remaining (by omega)
      (ih hdone hle (by omega))

/-- A loop runs through the rounds and ends with the step that is done. -/
theorem repeatStep {stop : Nat} (h : Rounds env c step p a q b)
    (hdone : Runs env c q (step b) (.done d) stop) (hle : q ≤ env.source.size) :
    Runs env c p (repeatStep step a) d stop := by
  unfold Parse.repeatStep
  exact leads_source.bind (h.repeatUpTo hdone hle (by omega))

end Rounds

/-- A loop whose first step goes on and takes something. -/
theorem repeatUpTo_run_yield {step : α → Parse (ForInStep α)} {a a' : α} {n n' fuel : Nat}
    (h : step a env (c.state p n) = .ok (.yield a', c.state q n')) (hlt : p < q)
    (hle : q ≤ env.source.size) {result : α × State}
    (hrest : repeatUpTo step (fun _ => remaining) fuel a' env (c.state q n') = .ok result) :
    repeatUpTo step (fun _ => remaining) (fuel + 1) a env (c.state p n) = .ok result := by
  have htakes : env.source.size - q + 1 < env.source.size - p + 1 := by omega
  unfold Parse.repeatUpTo
  refine bind_run.2 ⟨env.source.size - p + 1, _, rfl, bind_run.2 ⟨_, _, h, ?_⟩⟩
  refine bind_run.2 ⟨env.source.size - q + 1, _, rfl, ?_⟩
  rw [if_pos htakes]
  exact hrest

theorem repeatUpTo_run_done {step : α → Parse (ForInStep α)} {a d : α} {s s' : State} {fuel : Nat}
    (h : step a env s = .ok (.done d, s')) :
    repeatUpTo step (fun _ => remaining) (fuel + 1) a env s = .ok (d, s') := by
  unfold Parse.repeatUpTo
  exact bind_run.2 ⟨_, _, rfl, bind_run.2 ⟨_, _, h, rfl⟩⟩

/-- A loop whose first step is done. -/
theorem repeatStep_run {step : α → Parse (ForInStep α)} {a d : α} {s s' : State}
    (h : step a env s = .ok (.done d, s')) :
    repeatStep step a (fun _ => remaining) env s = .ok (d, s') := by
  unfold Parse.repeatStep
  exact bind_run.2 ⟨_, _, rfl, repeatUpTo_run_done h⟩

end Parse

end ShellTree
