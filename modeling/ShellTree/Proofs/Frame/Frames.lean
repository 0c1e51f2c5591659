import ShellTree.Grammar.Text
import ShellTree.Parse.Report
import ShellTree.Proofs.Levels
import ShellTree.Proofs.Parse.Meets

/-!
This module contains what a computation leaves as it found it, from whatever state it starts: the
modes, flags and levels around it, and the reports of a parse that has halted. With the levels
around it, it also says how deep the constructs lie in what it returns.
-/

namespace ShellTree

/-- Data that can hold nodes. -/
class HasNodes (α : Type) where
  /-- The nodes that are not below others. -/
  nodesOf : α → List Node

export HasNodes (nodesOf)

section

variable {α β : Type} [HasNodes α] [HasNodes β]

instance : HasNodes Unit := ⟨fun _ => []⟩

instance : HasNodes Bool := ⟨fun _ => []⟩

instance : HasNodes Nat := ⟨fun _ => []⟩

instance : HasNodes Span := ⟨fun _ => []⟩

instance : HasNodes Token := ⟨fun _ => []⟩

instance : HasNodes Heredoc.Extent := ⟨fun _ => []⟩

instance : HasNodes Node := ⟨fun node => [node]⟩

instance : HasNodes Grammar.TextRun := ⟨Grammar.TextRun.parts⟩

instance : HasNodes (Option α) := ⟨fun a => a.toList.flatMap nodesOf⟩

instance : HasNodes (List α) := ⟨fun as => as.flatMap nodesOf⟩

instance : HasNodes (α × β) := ⟨fun (a, b) => nodesOf a ++ nodesOf b⟩

instance : HasNodes (ForInStep α) := ⟨fun result => nodesOf result.value⟩

end

namespace Parse

/-! ### Depth -/

section

variable {α β : Type} [HasNodes α] [HasNodes β] {env : Env} {depth extra more : Nat}

/-- The constructs in the data take no more levels than are left at the depth. -/
def Shallow (env : Env) (depth extra : Nat) (a : α) : Prop :=
  depth ≤ env.options.maxDepth →
    Node.levelsAll (nodesOf a) + depth ≤ env.options.maxDepth + extra

theorem Shallow.mono {a : α} (h : Shallow env depth extra a) (hle : extra ≤ more) :
    Shallow env depth more a := fun hdepth =>
  Nat.le_trans (h hdepth) (Nat.add_le_add_left hle _)

theorem Shallow.any {a : α} (h : Shallow env depth 0 a) : Shallow env depth extra a :=
  h.mono (Nat.zero_le extra)

theorem shallow_of_eq_nil {a : α} (h : nodesOf a = []) : Shallow env depth extra a := by
  intro hdepth
  rw [h, Node.levelsAll, Nat.zero_add]
  exact Nat.le_trans hdepth (Nat.le_add_right _ _)

theorem shallow_iff_of_append {γ : Type} [HasNodes γ] {a : α} {b : β} {c : γ}
    (h : nodesOf c = nodesOf a ++ nodesOf b) :
    Shallow env depth extra c ↔ Shallow env depth extra a ∧ Shallow env depth extra b := by
  unfold Shallow
  rw [h, Node.levelsAll_append]
  omega

@[simp]
theorem shallow_unit (a : Unit) : Shallow env depth extra a := shallow_of_eq_nil rfl

@[simp]
theorem shallow_bool (a : Bool) : Shallow env depth extra a := shallow_of_eq_nil rfl

@[simp]
theorem shallow_nat (a : Nat) : Shallow env depth extra a := shallow_of_eq_nil rfl

@[simp]
theorem shallow_nil : Shallow env depth extra ([] : List α) := shallow_of_eq_nil rfl

@[simp]
theorem shallow_cons {a : α} {as : List α} : Shallow env depth extra (a :: as) ↔
    Shallow env depth extra a ∧ Shallow env depth extra as := shallow_iff_of_append rfl

@[simp]
theorem shallow_append {as bs : List α} : Shallow env depth extra (as ++ bs) ↔
    Shallow env depth extra as ∧ Shallow env depth extra bs :=
  shallow_iff_of_append List.flatMap_append

@[simp]
theorem shallow_pair {a : α} {b : β} : Shallow env depth extra (a, b) ↔
    Shallow env depth extra a ∧ Shallow env depth extra b := shallow_iff_of_append rfl

@[simp]
theorem shallow_none : Shallow env depth extra (none : Option α) := shallow_of_eq_nil rfl

@[simp]
theorem shallow_some {a : α} : Shallow env depth extra (some a) ↔ Shallow env depth extra a := by
  have hnodes : nodesOf (some a) = nodesOf a := List.append_nil _
  unfold Shallow
  rw [hnodes]

@[simp]
theorem shallow_toList {a : Option α} :
    Shallow env depth extra a.toList ↔ Shallow env depth extra a := Iff.rfl

@[simp]
theorem shallow_done {a : α} :
    Shallow env depth extra (ForInStep.done a) ↔ Shallow env depth extra a := Iff.rfl

@[simp]
theorem shallow_yield {a : α} :
    Shallow env depth extra (ForInStep.yield a) ↔ Shallow env depth extra a := Iff.rfl

theorem shallow_iff_of_node {kind : NodeKind} {span : Span} {children : List Node} :
    Shallow env depth extra (⟨kind, span, children⟩ : Node) ↔ (depth ≤ env.options.maxDepth →
      kind.takesLevel.toNat + Node.levelsAll children + depth ≤ env.options.maxDepth + extra) := by
  have hnodes : nodesOf (⟨kind, span, children⟩ : Node) = [⟨kind, span, children⟩] := rfl
  unfold Shallow
  rw [hnodes, Node.levelsAll, Node.levelsAll, Node.levels, Nat.max_zero]

theorem shallow_iff_of_nodes {nodes : List Node} : Shallow env depth extra nodes ↔
    (depth ≤ env.options.maxDepth →
      Node.levelsAll nodes + depth ≤ env.options.maxDepth + extra) := by
  have hnodes : nodesOf nodes = nodes := List.flatMap_singleton' nodes
  unfold Shallow
  rw [hnodes]

/-- A node takes one level more than its children at most. -/
theorem Shallow.node {kind : NodeKind} {span : Span} {children : List Node}
    (h : Shallow env depth extra children) :
    Shallow env depth (extra + 1) (⟨kind, span, children⟩ : Node) := by
  rw [shallow_iff_of_nodes] at h
  rw [shallow_iff_of_node]
  intro hdepth
  have hchildren := h hdepth
  have hkind := kind.takesLevel.toNat_le
  omega

theorem Shallow.plainNode {kind : NodeKind} (hkind : kind.takesLevel = false) {span : Span}
    {children : List Node} (h : Shallow env depth extra children) :
    Shallow env depth extra (⟨kind, span, children⟩ : Node) := by
  rw [shallow_iff_of_nodes] at h
  rw [shallow_iff_of_node, hkind, Bool.toNat_false, Nat.zero_add]
  exact h

theorem Shallow.children {node : Node} (h : Shallow env depth extra node) :
    Shallow env depth extra node.children := by
  obtain ⟨kind, span, children⟩ := node
  rw [shallow_iff_of_node] at h
  rw [shallow_iff_of_nodes]
  intro hdepth
  have hnode := h hdepth
  dsimp only
  omega

theorem shallow_leaf {kind : NodeKind} (hkind : kind.takesLevel = false) (span : Span) :
    Shallow env depth extra (Node.leaf kind span) := Shallow.plainNode hkind shallow_nil

end

/-! ### States -/

/-- A report of the kind stops the parse. -/
def EndsParse (env : Env) (kind : ErrorKind) : Prop :=
  kind = .limitExceeded ∨ kind = .cancelled ∧ env.cancelled = true

/-- The second state is as the first where a computation changes things for a part of the input
only. Reports are added to the ones before. After a halt nothing is reported, so that the report of
the halt itself is the last one. -/
structure Framed (env : Env) (s s' : State) : Prop where
  modes_eq : s.modes ≠ [] → s'.modes = s.modes
  flags_eq : s'.flags = s.flags
  inBacktick_eq : s'.inBacktick = s.inBacktick
  depth_eq : s'.depth = s.depth
  reports : s.diagnostics <+: s'.diagnostics
  halted : s.halted = true → s'.halted = true ∧ s'.diagnostics = s.diagnostics
  halts : s.halted = false → s'.halted = true →
    ∃ last ∈ s'.diagnostics.getLast?, EndsParse env last.kind

variable {env : Env} {s s₁ s₂ s₃ s' : State}

namespace Framed

theorem refl (env : Env) (s : State) : Framed env s s where
  modes_eq _ := rfl
  flags_eq := rfl
  inBacktick_eq := rfl
  depth_eq := rfl
  reports := List.prefix_refl _
  halted hs := ⟨hs, rfl⟩
  halts hs hs' := by simp [hs] at hs'

theorem trans (h : Framed env s₁ s₂) (h' : Framed env s₂ s₃) : Framed env s₁ s₃ where
  modes_eq hmodes := by
    have hmodes₂ := h.modes_eq hmodes
    rw [h'.modes_eq (hmodes₂ ▸ hmodes), hmodes₂]
  flags_eq := h'.flags_eq.trans h.flags_eq
  inBacktick_eq := h'.inBacktick_eq.trans h.inBacktick_eq
  depth_eq := h'.depth_eq.trans h.depth_eq
  reports := h.reports.trans h'.reports
  halted hs := by
    obtain ⟨hs₂, hreports⟩ := h.halted hs
    obtain ⟨hs₃, hreports'⟩ := h'.halted hs₂
    exact ⟨hs₃, hreports'.trans hreports⟩
  halts hs hs₃ := by
    cases hs₂ : s₂.halted with
    | true =>
      rw [(h'.halted hs₂).2]
      exact h.halts hs hs₂
    | false => exact h'.halts hs₂ hs₃

/-- What a speculation takes back are its own reports. -/
theorem restore (h : Framed env s s₁) : Framed env s
    { s₁ with
      pos := s.pos
      diagnostics :=
        if s₁.halted then s₁.diagnostics else s₁.diagnostics.take s.diagnostics.length
      pending := s.pending } where
  modes_eq := h.modes_eq
  flags_eq := h.flags_eq
  inBacktick_eq := h.inBacktick_eq
  depth_eq := h.depth_eq
  reports := by
    dsimp only
    split
    . exact h.reports
    . have heq := List.prefix_iff_eq_take.1 h.reports
      exact ⟨[], (List.append_nil _).trans heq⟩
  halted hs := by
    obtain ⟨hs₁, hreports⟩ := h.halted hs
    exact ⟨hs₁, (if_pos hs₁).trans hreports⟩
  halts hs hs₁ := by
    have hhalted : s₁.halted = true := hs₁
    dsimp only
    rw [if_pos hhalted]
    exact h.halts hs hhalted

end Framed

/-- Whatever the computation returns from whatever state at the depth, it leaves the frame. -/
def Frames (env : Env) (depth extra : Nat) {α : Type} [HasNodes α] (m : Parse α) : Prop :=
  ∀ s a s', m env s = .ok (a, s') → s.depth = depth →
    Framed env s s' ∧ Shallow env depth extra a

variable {α β : Type} [HasNodes α] [HasNodes β] {depth extra more : Nat}

theorem frames_of_fault {m : Parse α} {fault : Fault} (h : ∀ s, m env s = .error fault) :
    Frames env depth extra m := by
  intro s a s' hrun _
  rw [h s] at hrun
  cases hrun

theorem frames_pure {a : α} (h : Shallow env depth extra a) :
    Frames env depth extra (pure a) := by
  rintro s a s' ⟨⟩ _
  exact ⟨.refl env s, h⟩

theorem Frames.bind {m : Parse α} {f : α → Parse β} (h : Frames env depth extra m)
    (hf : ∀ a, Shallow env depth extra a → Frames env depth more (f a)) :
    Frames env depth more (m >>= f) := by
  intro s b s' hrun hdepth
  obtain ⟨a, s₁, hm, hfa⟩ := bind_run.1 hrun
  obtain ⟨hframed, ha⟩ := h s a s₁ hm hdepth
  obtain ⟨hframed', hb⟩ := hf a ha s₁ b s' hfa (hframed.depth_eq.trans hdepth)
  exact ⟨hframed.trans hframed', hb⟩

theorem Frames.mono {m : Parse α} (h : Frames env depth extra m) (hle : extra ≤ more) :
    Frames env depth more m := by
  intro s a s' hrun hdepth
  obtain ⟨hframed, ha⟩ := h s a s' hrun hdepth
  exact ⟨hframed, ha.mono hle⟩

theorem Frames.framed {m : Parse α} {a : α} (h : Frames env depth 0 m)
    (hrun : m env s = .ok (a, s')) (hdepth : s.depth = depth) : Framed env s s' :=
  (h s a s' hrun hdepth).1

theorem Frames.any {m : Parse α} (h : Frames env depth 0 m) : Frames env depth extra m :=
  h.mono (Nat.zero_le extra)

/-- What takes no more levels than are left at the depth can be a part of anything. -/
theorem Frames.seq {m : Parse α} {f : α → Parse β} (h : Frames env depth 0 m)
    (hf : ∀ a, (∀ extra, Shallow env depth extra a) → Frames env depth more (f a)) :
    Frames env depth more (m >>= f) :=
  h.bind fun a ha => hf a fun _ => ha.any

theorem Frames.map {m : Parse α} {f : α → β} (h : Frames env depth extra m)
    (hf : ∀ a, Shallow env depth extra a → Shallow env depth extra (f a)) :
    Frames env depth extra (m >>= fun a => pure (f a)) :=
  h.bind fun a ha => frames_pure (hf a ha)

theorem Frames.inList {m : Parse α} (h : Frames env depth extra m) :
    Frames env depth extra (do return [← m]) := h.map fun _ ha => by simp [ha]

theorem frames_ite {p : Prop} [Decidable p] {m n : Parse α} (h : p → Frames env depth extra m)
    (h' : ¬p → Frames env depth extra n) : Frames env depth extra (if p then m else n) := by
  split
  . next hp => exact h hp
  . next hp => exact h' hp

theorem frames_ite_seq {p : Prop} [Decidable p] {m : Parse Unit} {f : Unit → Parse β}
    (hm : Frames env depth 0 m) (hf : Frames env depth extra (f ())) :
    Frames env depth extra (if p then m >>= f else f ()) :=
  frames_ite (fun _ => hm.seq fun _ _ => hf) fun _ => hf

theorem frames_ite_seqs {p : Prop} [Decidable p] {m n : Parse α} {f : α → Parse β}
    (hm : Frames env depth 0 m) (hn : Frames env depth 0 n)
    (hf : ∀ a, (∀ extra, Shallow env depth extra a) → Frames env depth more (f a)) :
    Frames env depth more (if p then m >>= f else n >>= f) :=
  frames_ite (fun _ => hm.seq hf) fun _ => hn.seq hf

/-! ### The environment and the state -/

theorem frames_bind_get {f : State → Parse β} (h : ∀ s, Frames env depth extra (f s)) :
    Frames env depth extra (get >>= f) := fun s => h s s

theorem frames_bind_read {f : Env → Parse β} (h : Frames env depth extra (f env)) :
    Frames env depth extra (read >>= f) := h

theorem frames_bind_source {f : Source → Parse β} (h : Frames env depth extra (f env.source)) :
    Frames env depth extra (source >>= f) := h

theorem frames_bind_isHalted {f : Bool → Parse β} (h : ∀ b, Frames env depth extra (f b)) :
    Frames env depth extra (isHalted >>= f) := fun s => h s.halted s

theorem frames_bind_position {f : Nat → Parse β} (h : ∀ n, Frames env depth extra (f n)) :
    Frames env depth extra (position >>= f) := fun s => h s.pos s

theorem frames_modify {g : State → State} (h : ∀ s, Framed env s (g s)) :
    Frames env depth extra (modify g) := by
  rintro s a s' ⟨⟩ _
  exact ⟨h s, shallow_unit _⟩

theorem frames_bind_liftM {γ : Type} {x : Except Fault γ} {f : γ → Parse β}
    (h : ∀ a, Frames env depth extra (f a)) : Frames env depth extra (liftM x >>= f) := by
  cases x with
  | error fault => exact frames_of_fault fun _ => rfl
  | ok a => exact h a

theorem frames_bind_charactersAt {offset : Nat} {f : List Char → Parse β}
    (h : ∀ cs, Frames env depth extra (f cs)) :
    Frames env depth extra (charactersAt offset >>= f) := by
  unfold charactersAt
  rw [bind_assoc]
  apply frames_bind_source
  cases env.source.tail? offset with
  | none => exact frames_of_fault fun _ => rfl
  | some cs => exact h cs

theorem frames_bind_upcoming {f : List Char → Parse β} (h : ∀ cs, Frames env depth extra (f cs)) :
    Frames env depth extra (upcoming >>= f) := by
  unfold upcoming
  rw [bind_assoc]
  exact frames_bind_position fun _ => frames_bind_charactersAt h

theorem setPosition_frames (offset : Nat) : Frames env depth extra (setPosition offset) :=
  frames_modify fun s => { Framed.refl env s with }

/-! ### Loops -/

theorem repeatUpTo_frames {step : α → Parse (ForInStep α)} {left : α → Parse Nat}
    (hleft : ∀ a, Frames env depth 0 (left a))
    (hstep : ∀ a, Shallow env depth extra a → Frames env depth extra (step a)) {a : α}
    (ha : Shallow env depth extra a) (fuel : Nat) :
    Frames env depth extra (repeatUpTo step left fuel a) := by
  induction fuel generalizing a with
  | zero => exact frames_of_fault fun _ => rfl
  | succ fuel ih =>
    apply (hleft a).seq
    intro before _
    apply (hstep a ha).bind
    intro result hresult
    cases result with
    | done a => exact frames_pure hresult
    | yield a =>
      apply (hleft a).seq
      intro after _
      apply frames_ite
      . intro _
        exact ih hresult
      . intro _
        exact frames_of_fault fun _ => rfl

theorem repeatStep_frames {step : α → Parse (ForInStep α)} {left : α → Parse Nat} {a : α}
    (ha : Shallow env depth extra a) (hleft : ∀ a, Frames env depth 0 (left a))
    (hstep : ∀ a, Shallow env depth extra a → Frames env depth extra (step a)) :
    Frames env depth extra (repeatStep step a left) :=
  frames_bind_source (repeatUpTo_frames hleft hstep ha _)

theorem remaining_frames : Frames env depth extra remaining :=
  frames_bind_isHalted fun _ => frames_bind_source <| frames_bind_position fun _ =>
    frames_pure (shallow_nat _)

theorem loop_frames {step : α → Parse (ForInStep α)} {a : α} (ha : Shallow env depth extra a)
    (hstep : ∀ a, Shallow env depth extra a → Frames env depth extra (step a)) :
    Frames env depth extra (repeatStep step a) :=
  repeatStep_frames ha (fun _ => remaining_frames) hstep

end Parse
end ShellTree
