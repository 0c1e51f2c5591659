import ShellTree.Proofs.Parse.Token

/-!
This module contains the correctness of what surrounds a construct: the modes, flags and levels that
are entered and left again, speculation, which takes back what it has read, and the loops that
collect nodes.
-/

namespace ShellTree
namespace Parse

variable {α : Type} {env : Env} {s s₁ s₂ s' : State} {nodes : List Node}

/-! ### Modes, flags and levels -/

theorem Sound.with_mode (h : Sound env s) (mode : Mode) :
    Sound env { s with modes := mode :: s.modes } := { h with modes_ne_nil := by simp }

theorem Sound.with_flags (h : Sound env s) (flags : Flags) : Sound env { s with flags := flags } :=
  { h with }

theorem Sound.with_inBacktick (h : Sound env s) (inBacktick : Bool) :
    Sound env { s with inBacktick := inBacktick } := { h with }

section

variable {level room : Nat}

theorem Within.with_mode (h : Within env level room s) (mode : Mode) :
    Within env level room { s with modes := mode :: s.modes } :=
  ⟨h.toRoom, h.sound.with_mode mode⟩

theorem Within.with_flags (h : Within env level room s) (flags : Flags) :
    Within env level room { s with flags := flags } := ⟨h.toRoom, h.sound.with_flags flags⟩

theorem Within.with_inBacktick (h : Within env level room s) (inBacktick : Bool) :
    Within env level room { s with inBacktick := inBacktick } :=
  ⟨h.toRoom, h.sound.with_inBacktick inBacktick⟩

theorem Within.with_depth (h : Within env level (room + 1) s) :
    Within env level room { s with depth := s.depth + 1 } := by
  have := h.depth_le
  exact ⟨⟨h.size_lt, by dsimp only; omega⟩, h.sound.with_depth _⟩

end

theorem Reached.leave_mode (hs : Sound env s) {mode : Mode}
    (h : Reached env { s with modes := mode :: s.modes } s') :
    Reached env s { s' with modes := s.modes } :=
  { h with
    sound := { h.sound with modes_ne_nil := hs.modes_ne_nil }
    modes_eq := rfl }

theorem Yields.leave_mode (hs : Sound env s) {mode : Mode}
    (h : Yields env { s with modes := mode :: s.modes } nodes s')
    (hflat : s.ClosesBackticks → Node.AllFlat nodes) :
    Yields env s nodes { s' with modes := s.modes } :=
  ⟨h.toReached.leave_mode hs, h.bound, h.genuine, h.accounts, hflat⟩

theorem Yields.flat_of_mode {mode : Mode}
    (h : Yields env { s with modes := mode :: s.modes } nodes s') (hmode : mode ≠ .arithmetic)
    (hcloses : s.ClosesBackticks) : Node.AllFlat nodes :=
  h.flat ⟨hcloses.1, by simpa using hmode⟩

theorem inMode_meets (hs : Sound env s) {mode : Mode} {body : Parse α}
    {post : α → State → Prop}
    (hbody : Meets env { s with modes := mode :: s.modes } body fun a s' =>
      s'.modes = mode :: s.modes ∧ post a { s' with modes := s.modes }) :
    Meets env s (inMode mode body) post := by
  unfold inMode pushMode popMode
  rw [meets_bind_modify]
  apply hbody.bind
  intro a s' h
  obtain ⟨hmodes, hpost⟩ := h
  rw [meets_bind_modify, hmodes, List.tail_cons, if_neg]
  . exact hpost
  . simpa using hs.modes_ne_nil

theorem Within.inMode {level room : Nat} (h : Within env level room s) {mode : Mode}
    (hmode : mode ≠ .arithmetic) {text : String} {body : Parse (List Node)}
    (hbody : ∀ s₁, Within env level room s₁ → s₁.flags = s.flags →
      Meets env s₁ body (ReadsUpTo env text s₁)) :
    Meets env s (Parse.inMode mode body) (ReadsUpTo env text s) := by
  apply inMode_meets h.sound
  apply (hbody _ (h.with_mode mode) rfl).mono
  intro nodes s' hreads
  have hyields := hreads.toYields.leave_mode h.sound (hreads.flat_of_mode hmode)
  exact ⟨hreads.modes_eq, ⟨⟨hyields, hreads.tiles⟩, hreads.ends⟩⟩

/-! ### Arithmetic

Where an expression is read a backtick opens, wherever the expression stands. What it makes is flat
only with the node around it, and until then read in its mode. -/

def State.inArithmetic (s : State) : State := { s with modes := .arithmetic :: s.modes }

theorem Within.inArithmetic {level room : Nat} (h : Within env level room s) {text : String}
    {body : Parse (List Node)}
    (hbody : ∀ s₁, Within env level room s₁ → s₁.flags = s.flags →
      Meets env s₁ body (ReadsUpTo env text s₁)) :
    Meets env s (Parse.inMode .arithmetic body) fun nodes s' =>
      ReadsUpTo env text s.inArithmetic nodes s'.inArithmetic := by
  apply inMode_meets h.sound
  apply (hbody _ (h.with_mode .arithmetic) rfl).mono
  intro nodes s' hreads
  have hmodes : s'.modes = .arithmetic :: s.modes := hreads.modes_eq
  have heq : State.inArithmetic { s' with modes := s.modes } = s' := by
    unfold State.inArithmetic
    dsimp only
    rw [← hmodes]
  exact ⟨hmodes, by rw [heq]; exact hreads⟩

theorem Reads.inArithmetic (h : Reads env s nodes s') :
    Reads env s.inArithmetic nodes s'.inArithmetic := by
  have hreached : Reached env s.inArithmetic s'.inArithmetic :=
    { h.toReached with
      sound := h.sound.with_mode .arithmetic
      modes_eq := congrArg (Mode.arithmetic :: ·) h.modes_eq }
  exact ⟨⟨hreached, h.bound, h.genuine, h.accounts, fun hcloses => absurd rfl hcloses.2⟩, h.tiles⟩

theorem Reached.leave_arithmetic (hs : Sound env s)
    (h : Reached env s.inArithmetic s'.inArithmetic) : Reached env s s' := by
  have hmodes : s'.modes = s.modes := (List.cons.inj h.modes_eq).2
  have hreached := Reached.leave_mode hs h
  rwa [← hmodes] at hreached

theorem Reads.leave_arithmetic (hs : Sound env s)
    (h : Reads env s.inArithmetic nodes s'.inArithmetic) (hflat : Node.AllFlat nodes) :
    Reads env s nodes s' :=
  ⟨⟨h.toReached.leave_arithmetic hs, h.bound, h.genuine, h.accounts, fun _ => hflat⟩, h.tiles⟩

theorem node_arithmetic (hs : Sound env s) (h : Reads env s.inArithmetic nodes s'.inArithmetic)
    (hne : nodes ≠ []) (kind : NodeKind) (hkind : Composes env kind nodes s')
    (harithmetic : ∀ span, Node.HoldsArithmetic ⟨kind, span, nodes⟩) :
    Meets env s' (node kind nodes) (Made env s nodes s') := by
  obtain ⟨first, hfirst⟩ := Option.ne_none_iff_exists'.1 (mt List.head?_eq_none_iff.1 hne)
  obtain ⟨last, hlast⟩ := Option.ne_none_iff_exists'.1 (mt List.getLast?_eq_none_iff.1 hne)
  unfold Parse.node
  simp only [hfirst, hlast]
  rw [meets_bind_spanBetween (h.tiles.first_le_last hfirst hlast)]
  have hnode := h.wrap hfirst hlast rfl (.inr hkind.isPlain) hkind.binds (hkind.isGenuine _)
    (fun hcloses => absurd rfl hcloses.2) fun hrunning => hkind.settled hrunning h.genuine _
  exact ⟨hnode.leave_arithmetic hs (Node.allFlat_singleton.2 (harithmetic _).flat), rfl, rfl,
    by simp [hfirst]⟩

theorem Within.withFlags {level room : Nat} (h : Within env level room s) {flags : Flags}
    {text : String} {body : Parse (List Node)}
    (hbody : ∀ s₁, Within env level room s₁ → s₁.flags = flags →
      Meets env s₁ body (ReadsUpTo env text s₁)) :
    Meets env s (Parse.withFlags flags body) (ReadsUpTo env text s) := by
  unfold Parse.withFlags
  rw [meets_bind_get, meets_bind_modify]
  apply (hbody _ (h.with_flags flags) rfl).bind
  intro nodes s' hreads
  rw [meets_bind_modify]
  have hreached : Reached env s { s' with flags := s.flags } :=
    { hreads.toReached with
      sound := hreads.sound.with_flags s.flags
      flags_eq := rfl }
  exact ⟨⟨⟨hreached, hreads.bound, hreads.genuine, hreads.accounts, hreads.flat⟩, hreads.tiles⟩,
    hreads.ends⟩

/-- What is read between backticks is flat wherever they stand. -/
theorem Within.betweenBackticks {level room : Nat} (h : Within env level room s) {text : String}
    {body : Parse (List Node)}
    (hbody : ∀ s₁, Within env level room s₁ → s₁.flags = {} →
      Meets env s₁ body (ReadsUpTo env text s₁)) :
    Meets env s (Parse.inMode .command <| Parse.withFlags {} <| Parse.withinBackticks body)
      fun nodes s' => ReadsUpTo env text s nodes s' ∧ Node.AllFlat nodes := by
  have hwithin := ((h.with_mode .command).with_flags {}).with_inBacktick true
  apply inMode_meets h.sound
  unfold Parse.withFlags Parse.withinBackticks
  simp only [meets_bind_assoc, meets_bind_get, meets_bind_modify]
  apply (hbody _ hwithin rfl).bind
  intro nodes s' hreads
  have hreached : Reached env s
      { s' with inBacktick := s.inBacktick, flags := s.flags, modes := s.modes } :=
    { hreads.toReached with
      sound := { hreads.sound with modes_ne_nil := h.sound.modes_ne_nil }
      modes_eq := rfl
      flags_eq := rfl
      inBacktick_eq := rfl }
  have hflat : Node.AllFlat nodes := hreads.flat ⟨rfl, by simp⟩
  refine ⟨hreads.modes_eq, ⟨⟨⟨hreached, ?_, ?_, ?_, fun _ => hflat⟩, ?_⟩, hreads.ends⟩, hflat⟩
  . exact hreads.bound
  . exact hreads.genuine
  . exact hreads.accounts
  . exact hreads.tiles

theorem Reads.leave (h : Reads env { s with depth := s.depth + 1 } nodes s') :
    Reads env s nodes { s' with depth := s'.depth - 1 } := by
  have hreached : Reached env s { s' with depth := s'.depth - 1 } :=
    { h.toReached with
      sound := h.sound.with_depth _
      depth_eq := by rw [h.depth_eq]; rfl }
  exact ⟨⟨hreached, h.bound, h.genuine, h.accounts, h.flat⟩, h.tiles⟩

theorem Stays.leave (h : Stays env { s with depth := s.depth + 1 } s') :
    Stays env s { s' with depth := s'.depth - 1 } := by
  refine ⟨h.sound.with_depth _, ?_, h.reports, h.missingEnds_eq, h.missingBodies_eq, h.comments⟩
  rw [h.eq]
  rfl

/-! ### Speculation -/

/-- The state after a speculation that began in the first state and came to the second. -/
def restored (s s' : State) : State :=
  { s' with
    pos := s.pos
    diagnostics := if s'.halted then s'.diagnostics else s'.diagnostics.take s.diagnostics.length
    pending := s.pending }

theorem restored_diagnostics (h : Reached env s s') :
    s'.halted = true ∧ (restored s s').diagnostics = s'.diagnostics ∨
      s'.halted = false ∧ (restored s s').diagnostics = s.diagnostics := by
  unfold restored
  cases hhalted : s'.halted with
  | true => simp
  | false =>
    obtain ⟨more, hmore⟩ := h.reports
    simp [← hmore]

theorem restored_reads (hs : Sound env s) (h : Reached env s s') :
    Reads env s [] (restored s s') := by
  have htiles : Tiles env.source (restored s s').comments.spans [] s.pos s.pos :=
    tiles_nil.2 (.done hs.boundary)
  obtain ⟨hhalted, hreports⟩ | ⟨hrunning, hreports⟩ := restored_diagnostics h
  . have hsound : Sound env (restored s s') := by
      refine ⟨hs.boundary, h.sound.modes_ne_nil, hs.pending, h.sound.comments, ?_, ?_, ?_⟩
      all_goals rw [hreports]
      . exact h.sound.reports
      . exact h.sound.running
      . exact h.sound.halted
    have hreached : Reached env s (restored s s') :=
      { h with
        sound := hsound
        reports := hreports ▸ h.reports }
    exact ⟨hreached.yields fun hrunning => by simp [restored, hhalted] at hrunning, htiles⟩
  . have hs' := h.running hrunning
    have hsound : Sound env (restored s s') := by
      refine ⟨hs.boundary, h.sound.modes_ne_nil, hs.pending, h.sound.comments, ?_, ?_, ?_⟩
      . rw [hreports]
        exact hs.reports
      . rw [hreports]
        exact fun _ => hs.running hs'
      . intro hhalted
        simp [restored, hrunning] at hhalted
    have hreached : Reached env s (restored s s') :=
      { h with
        sound := hsound
        reports := hreports ▸ List.prefix_refl _ }
    exact ⟨hreached.yields fun _ => ⟨.nil, .nil (by rw [hreports]) (by rw [hreports])⟩, htiles⟩

/-- A speculation that is taken back has taken nothing, unless it has halted the parse. -/
theorem restored_stays_of_running (hs : Sound env s) (h : Reached env s s')
    (hrunning : s'.halted = false) : Stays env s (restored s s') := by
  have hreads := restored_reads hs h
  have hreports : (restored s s').diagnostics = s.diagnostics := by
    obtain ⟨hhalted, _⟩ | ⟨_, hreports⟩ := restored_diagnostics h
    . simp [hhalted] at hrunning
    . exact hreports
  refine ⟨hreads.sound, ?_, hreads.reports, by rw [hreports], by rw [hreports], hreads.comments⟩
  have hhalted := (h.running hrunning).trans hrunning.symm
  cases s'
  cases hhalted
  cases h.modes_eq
  cases h.flags_eq
  cases h.inBacktick_eq
  cases h.depth_eq
  rfl

theorem attempt_meets {body : Parse (Option α)} {post post' : Option α → State → Prop}
    (hbody : Meets env s body post) (hsome : ∀ a s', post (some a) s' → post' (some a) s')
    (hnone : ∀ s', post none s' → post' none (restored s s')) :
    Meets env s (attempt body) post' := by
  unfold attempt checkpoint
  simp only [meets_bind_assoc, meets_bind_get, meets_bind_pure]
  apply hbody.bind
  intro result s' h
  cases result with
  | some a => exact hsome a s' h
  | none => exact hnone s' h

theorem restored_stays (hs : Sound env s) {offset : Nat}
    (h : Stays env { s with pos := offset } s') : Stays env s (restored s s') := by
  have hreached : Reached env s s' := { h.reached with }
  have hreads := restored_reads hs hreached
  have hmissing : missingEnds (restored s s').diagnostics = missingEnds s.diagnostics ∧
      missingBodies (restored s s').diagnostics = missingBodies s.diagnostics := by
    obtain ⟨_, hreports⟩ | ⟨_, hreports⟩ := restored_diagnostics hreached
    . rw [hreports]
      exact ⟨h.missingEnds_eq, h.missingBodies_eq⟩
    . simp [hreports]
  refine ⟨hreads.sound, ?_, hreads.reports, hmissing.1, hmissing.2, hreads.comments⟩
  unfold restored
  rw [h.eq]

theorem lookAhead_meets {body : Parse α} {post : α → State → Prop}
    (hbody : Meets env s body fun a s' => post a (restored s s')) :
    Meets env s (lookAhead body) post := by
  unfold lookAhead checkpoint
  simp only [meets_bind_assoc, meets_bind_get, meets_bind_pure]
  apply hbody.bind
  intro a s' h
  exact h

/-! ### Loops -/

/-- The nodes are read, which leaves less to read. -/
structure Takes (env : Env) (s : State) (nodes : List Node) (s' : State) : Prop
    extends Reads env s nodes s' where
  less : s'.remaining env < s.remaining env

theorem Reads.takes (h : Reads env s nodes s') (hpos : s.pos < s'.pos) : Takes env s nodes s' :=
  ⟨h, h.remaining_lt_of_pos hpos⟩

theorem Taken.takes {tok : Token} {node : Node} (h : Taken env s tok.span node s')
    (hnext : Next env s tok) (hkind : tok.kind ≠ .eof) : Takes env s [node] s' :=
  h.toReads.takes (h.pos_lt hnext hkind)

namespace Takes

theorem stays (h : Takes env s₁ nodes s) (hstays : Stays env s s₂) : Takes env s₁ nodes s₂ where
  toReads := h.toReads.stays hstays
  less := Nat.lt_of_le_of_lt hstays.reads.remaining_le h.less

theorem after (h : Takes env s₂ nodes s') (hreads : Reads env s₁ [] s₂) :
    Takes env s₁ nodes s' where
  toReads := hreads.trans h.toReads
  less := Nat.lt_of_lt_of_le h.less hreads.remaining_le

theorem trans {siblings : List Node} (h : Takes env s₁ nodes s) (h' : Reads env s siblings s') :
    Takes env s₁ (nodes ++ siblings) s' where
  toReads := h.toReads.trans h'
  less := Nat.lt_of_le_of_lt h'.remaining_le h.less

/-- One more node is a step of a loop. -/
theorem push (h : Takes env s₁ nodes s) (hstays : Stays env s s₂) {node : Node}
    (hnode : Takes env s₂ [node] s') :
    Takes env s₁ (nodes ++ [node]) s' ∧ s'.remaining env < s.remaining env :=
  ⟨(h.stays hstays).trans hnode.toReads, (hnode.after hstays.reads).less⟩

end Takes

/-- A step of a loop adds to the nodes that were read from the first state on. When it is not the
last there is less to read. -/
def GrowsUpTo (env : Env) (last : α → State → Prop) (s₁ s : State) (nodesOf : α → List Node) :
    ForInStep α → State → Prop
  | .done a, s' => last a s'
  | .yield a, s' => Reads env s₁ (nodesOf a) s' ∧ s'.remaining env < s.remaining env

abbrev Grows (env : Env) (s₁ s : State) (nodesOf : α → List Node) : ForInStep α → State → Prop :=
  GrowsUpTo env (fun a s' => Reads env s₁ (nodesOf a) s') s₁ s nodesOf

/-- A loop of which every step but the last leaves less to read. -/
theorem repeatStep_consumes {step : α → Parse (ForInStep α)} (inv : α → State → Prop)
    {post : α → State → Prop} {a : α} (hinv : inv a s)
    (hstep : ∀ a s, inv a s →
      Meets env s (step a) (Steps inv post (fun _ s => s.remaining env) a s)) :
    Meets env s (repeatStep step a) post :=
  repeatStep_meets inv (fun _ s => s.remaining env) hinv (State.remaining_le env s)
    (fun _ _ => rfl) hstep

theorem repeatStep_reads {step : α → Parse (ForInStep α)} (nodesOf : α → List Node) {a : α}
    {last : α → State → Prop} (h : Reads env s₁ (nodesOf a) s)
    (hstep : ∀ a s, Reads env s₁ (nodesOf a) s →
      Meets env s (step a) (GrowsUpTo env last s₁ s nodesOf)) :
    Meets env s (repeatStep step a) last := by
  apply repeatStep_consumes (fun a s => Reads env s₁ (nodesOf a) s) h
  intro a s hreads
  apply (hstep a s hreads).mono
  intro result s' hgrows
  cases result with
  | done a' => exact hgrows
  | yield a' => exact hgrows

theorem collect_reads {step : List Node → Parse (ForInStep (List Node))}
    {last : List Node → State → Prop} (h : Reads env s₁ nodes s)
    (hstep : ∀ nodes s, Reads env s₁ nodes s →
      Meets env s (step nodes) (GrowsUpTo env last s₁ s id)) :
    Meets env s (repeatStep step nodes) last :=
  repeatStep_reads id h hstep

theorem Reads.grows (h : Reads env s₁ nodes s) {more : List Node} (hmore : Takes env s more s') :
    Grows env s₁ s id (.yield (nodes ++ more)) s' := ⟨h.trans hmore.toReads, hmore.less⟩

theorem GrowsUpTo.of_stays {nodesOf : α → List Node} {last : α → State → Prop}
    (hstays : Stays env s s₂) (result : ForInStep α) (s' : State)
    (h : GrowsUpTo env last s₁ s₂ nodesOf result s') :
    GrowsUpTo env last s₁ s nodesOf result s' := by
  have hless := hstays.reads.remaining_le
  cases result with
  | done a => exact h
  | yield a => exact ⟨h.1, Nat.lt_of_lt_of_le h.2 hless⟩

theorem Reads.take (h : Reads env s₁ nodes s) {tok : Token} {last : List Node → State → Prop}
    (hstays : Stays env s s₂) (hnext : Next env s tok) (hkind : tok.kind ≠ .eof)
    (hwhole : tok.IsWhole) :
    Meets env s₂ (do return .yield (nodes ++ [← tokenLeaf tok])) (GrowsUpTo env last s₁ s id) := by
  have hnext₂ := hstays.next hnext
  apply (tokenLeaf_meets hstays.sound hnext₂ fun _ => hwhole).bind
  intro leaf s' hleaf
  exact GrowsUpTo.of_stays hstays _ _ ((h.stays hstays).grows (hleaf.takes hnext₂ hkind))

theorem Reads.takeLast (h : Reads env s₁ nodes s) {tok : Token} {op : String}
    (hnext : Next env s tok) (hop : tok.isOperator op) :
    Meets env s (do return .done (nodes ++ [← tokenLeaf tok]))
      (GrowsUpTo env (ReadsUpTo env op s₁) s₁ s id) := by
  apply ((tokenLeaf_meets h.sound hnext fun _ =>
    isWhole_of_isOperator hop).and_returns tokenLeaf_returns).bind
  intro leaf s' hleaf
  exact h.upTo ⟨hleaf.1.toReads, fun _ =>
    endsWith_singleton (hleaf.2.trans (kindOf_of_isOperator hop))⟩

/-- Nodes are collected. While there is none nothing was taken. -/
structure Collects (env : Env) (s : State) (nodes : List Node) (s' : State) : Prop
    extends Reads env s nodes s' where
  stays : nodes = [] → Stays env s s'
  less : nodes ≠ [] → s'.remaining env < s.remaining env

namespace Collects

theorem refl (h : Sound env s) : Collects env s [] s := ⟨.refl h, fun _ => .refl h, by simp⟩

theorem after (h : Collects env s₁ nodes s) (hstays : Stays env s s₂) :
    Collects env s₁ nodes s₂ where
  toReads := h.toReads.stays hstays
  stays hempty := (h.stays hempty).trans hstays
  less hne := Nat.lt_of_le_of_lt hstays.reads.remaining_le (h.less hne)

theorem push (h : Collects env s₁ nodes s) (hstays : Stays env s s₂) {node : Node}
    (hnode : Takes env s₂ [node] s') :
    Collects env s₁ (nodes ++ [node]) s' ∧ s'.remaining env < s.remaining env := by
  have hless := (hnode.after hstays.reads).less
  refine ⟨⟨(h.after hstays).toReads.trans hnode.toReads, by simp, fun _ => ?_⟩, hless⟩
  exact Nat.lt_of_lt_of_le hless h.toReads.remaining_le

end Collects

/-- A step of a loop that goes on collecting nodes. -/
abbrev StepsOn (env : Env) (inv : List Node → State → Prop) (nodes : List Node) (s : State) :
    ForInStep (List Node) → State → Prop :=
  Steps inv inv (fun _ s => s.remaining env) nodes s

/-! ### Junk -/

/-- The nodes stand where they must not, and a report begins with them. -/
structure ReadsJunk (env : Env) (s : State) (junk : List Node) (s' : State) : Prop
    extends Reads env s junk s' where
  reported : ∀ first ∈ junk.head?, s'.halted = false → ReportedAt s'.diagnostics first.span.start

namespace ReadsJunk

variable {junk : List Node} {tok : Token} {node : Node}

theorem refl (h : Sound env s) : ReadsJunk env s [] s := ⟨.refl h, by simp⟩

theorem stays (h : ReadsJunk env s₁ junk s) (hstays : Stays env s s₂) :
    ReadsJunk env s₁ junk s₂ := by
  refine ⟨h.toReads.stays hstays, fun first hfirst hrunning => ?_⟩
  exact (h.reported first hfirst (hstays.reached.running hrunning)).mono hstays.reports

theorem diagnostics_ne_nil (h : ReadsJunk env s₁ junk s) (hne : junk ≠ []) :
    s.diagnostics ≠ [] := by
  intro hclean
  obtain ⟨first, hfirst⟩ := Option.ne_none_iff_exists'.1 (mt List.head?_eq_none_iff.1 hne)
  exact (h.reported first hfirst (h.sound.running_of_clean hclean)).ne_nil hclean

theorem push (h : ReadsJunk env s₁ junk s) (hnode : Reads env s [node] s')
    (hfirst : junk = [] → s'.halted = false → ReportedAt s'.diagnostics node.span.start) :
    ReadsJunk env s₁ (junk ++ [node]) s' := by
  refine ⟨h.toReads.trans hnode, fun first hmem hrunning => ?_⟩
  cases junk with
  | nil =>
    obtain rfl : node = first := by simpa using hmem
    exact hfirst rfl hrunning
  | cons head rest =>
    obtain rfl : head = first := by simpa using hmem
    exact (h.reported head rfl (hnode.running hrunning)).mono hnode.reports

theorem errorAround (h : ReadsJunk env s₁ junk s) (s₂ : State) :
    Meets env s₂ (errorAround junk) fun errors final => Reads env s₁ errors s ∧ final = s₂ := by
  apply errorAround_reads h.toReads
  intro hne hrunning
  obtain ⟨first, hfirst⟩ := Option.ne_none_iff_exists'.1 (mt List.head?_eq_none_iff.1 hne)
  exact (h.reported first hfirst hrunning).explained hfirst

/-- A character that begins no token is reported where it is taken, another token before. -/
theorem takeToken (h : ReadsJunk env s₁ junk s) (hnext : Next env s tok) (hkind : tok.kind ≠ .eof)
    (hfirst : junk = [] → tok.kind ≠ .error → ReportedAt s.diagnostics tok.span.start) :
    Meets env s (tokenLeaf tok) fun leaf s' =>
      ReadsJunk env s₁ (junk ++ [leaf]) s' ∧ s'.remaining env < s.remaining env := by
  have hwhole : s.diagnostics = [] → tok.IsWhole := by
    intro hclean
    by_cases herror : tok.kind = .error
    . simp [Token.IsWhole, herror]
    . by_cases hjunk : junk = []
      . exact absurd hclean (hfirst hjunk herror).ne_nil
      . exact absurd hclean (h.diagnostics_ne_nil hjunk)
  apply ((tokenLeaf_meets h.sound hnext hwhole).and_returns tokenLeaf_returns).mono
  rintro leaf s' ⟨hleaf, hleafKind⟩
  refine ⟨h.push hleaf.toReads fun hjunk hrunning => ?_,
    hleaf.remaining_lt_of_pos (hleaf.pos_lt hnext hkind)⟩
  by_cases herror : tok.kind = .error
  . have hsettled := (hleaf.accounts hrunning).1.self
    have hlt := hnext.start_lt_stop hkind
    apply hsettled.reported (by rw [hleafKind, herror]; rfl)
    rwa [hleaf.span_eq]
  . rw [hleaf.span_eq]
    exact (hfirst hjunk herror).mono hleaf.reports

end ReadsJunk

/-! ### What comes next -/

theorem Sound.pos_le_token (h : Sound env s) (flags : Flags) :
    s.pos ≤ (s.token env flags).span.stop := by
  unfold State.token
  split
  . exact Nat.le_refl _
  . obtain ⟨tok, found, hnext, hanswers⟩ :=
      Lexer.next_answers h.boundary s.mode (s.requestFlags flags)
    rw [hnext]
    exact Nat.le_trans hanswers.follows.offset_le tok.span.start_le_stop

theorem State.running_of_token {flags : Flags} (h : (s.token env flags).kind ≠ .eof) :
    s.halted = false := by
  unfold State.token at h
  split at h
  . exact absurd rfl h
  . next hs => simpa using hs

theorem Sound.pos_lt_token (h : Sound env s) {flags : Flags}
    (hkind : (s.token env flags).kind ≠ .eof) : s.pos < (s.token env flags).span.stop := by
  have hrunning := State.running_of_token hkind
  unfold State.token at hkind ⊢
  rw [hrunning] at hkind ⊢
  obtain ⟨tok, found, hnext, hanswers⟩ :=
    Lexer.next_answers h.boundary s.mode (s.requestFlags flags)
  rw [hnext] at hkind ⊢
  exact Nat.lt_of_le_of_lt hanswers.follows.offset_le (hanswers.follows.start_lt_stop hkind)

/-- There is room behind the token that comes next. -/
structure Opens (env : Env) (level : Nat) (flags : Flags) (s : State) : Prop
    extends Room env level 2 (s.token env flags).span.stop s.depth where
  sound : Sound env s
  ne_eof : (s.token env flags).kind ≠ .eof

variable {level room : Nat} {flags : Flags} {tok : Token} {node : Node}

theorem Within.opens (h : Within env level 2 s) (hkind : (s.token env flags).kind ≠ .eof) :
    Opens env level flags s := ⟨h.toRoom.mono (h.sound.pos_le_token flags), h.sound, hkind⟩

theorem Opens.stays (h : Opens env level flags s) (hstays : Stays env s s₁) :
    Opens env level flags s₁ :=
  ⟨by rw [hstays.token_eq, hstays.depth_eq]; exact h.toRoom, hstays.sound,
    by rw [hstays.token_eq]; exact h.ne_eof⟩

theorem Peeks.opens (h : Peeks env s flags tok s₁) (hwithin : Within env (level + 1) room s)
    (hkind : tok.kind ≠ .eof) : Opens env level flags s₁ := by
  have hlt := h.next.pos_lt_stop hkind
  have hwithin₁ := hwithin.stays h.stays
  have htok : s₁.token env flags = tok := by rw [h.stays.token_eq, h.eq_token]
  exact ⟨htok ▸ hwithin₁.toRoom.renewed hlt, h.stays.sound, htok ▸ hkind⟩

theorem Peeks.ne_eof (h : Peeks env s flags tok s₁) (hopens : Opens env level flags s) :
    tok.kind ≠ .eof := by
  rw [← h.kind_eq]
  exact hopens.ne_eof

theorem Within.taken (h : Within env (level + 1) room s) (hnext : Next env s tok)
    (hkind : tok.kind ≠ .eof) (htaken : Taken env s tok.span node s₁) : Within env level 2 s₁ :=
  h.pred htaken.toReads (htaken.pos_lt hnext hkind)

theorem Opens.take (h : Opens env level flags s) (htok : tok = s.token env flags)
    (htaken : Taken env s tok.span node s₁) : Within env level 2 s₁ := by
  refine ⟨?_, htaken.sound⟩
  rw [htaken.pos_eq, htaken.depth_eq, htok]
  exact h.toRoom

theorem Opens.taken (h : Opens env level flags s) (hpeek : Peeks env s flags tok s₁)
    (htaken : Taken env s₁ tok.span node s₂) : Within env level 2 s₂ := by
  apply (h.stays hpeek.stays).take _ htaken
  rw [hpeek.stays.token_eq, hpeek.eq_token]

end Parse

end ShellTree
