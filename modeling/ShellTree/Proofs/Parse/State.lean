import ShellTree.Parse.Context
import ShellTree.Proofs.Genuine
import ShellTree.Proofs.Lexer
import ShellTree.Proofs.Operand
import ShellTree.Proofs.Parse.Meets
import ShellTree.Proofs.Request

/-!
This module contains the invariant of the states of a parse and what the constructs of the grammar
do to them. `Reads` is what all of them have in common: the nodes that a construct makes tile the
source from where it began to where it ends, operators bind their operands, the nodes stand for what
their kinds say, the reports and the requests for here-documents account for them, and the context
is as it was.
-/

namespace ShellTree

/-- A report of the kind is the last one. -/
def ErrorKind.isFinal : ErrorKind → Bool
  | .limitExceeded | .cancelled => true
  | _ => false

/-- A limit that is hit is one that the options set. That on the nesting is out of reach when it
grows with the text. -/
def Cause.IsLimited (env : Parse.Env) (cause : Cause) : Prop :=
  cause.kind = .limitExceeded →
    cause = .nestingTooDeep env.options.maxDepth ∧
        env.options.maxDepth < 2 * env.source.size + 2 ∨
      ∃ limit ∈ env.options.maxStatements, cause = .tooManyStatements limit

/-- A report says where it stands in the source. What is not closed goes on to the end. -/
structure Diagnostic.Sound (env : Parse.Env) (diagnostic : Diagnostic) : Prop where
  stop_le : diagnostic.span.stop ≤ env.source.size
  position_eq : (diagnostic.line, diagnostic.column) =
    env.source.lineColumn diagnostic.span.start
  stop_eq : diagnostic.kind = .unterminatedConstruct → diagnostic.span.stop = env.source.size
  limited : diagnostic.cause.IsLimited env

namespace Parse

/-- The invariant of a parse. After a halt the last report says so. -/
structure Sound (env : Env) (s : State) : Prop where
  boundary : env.source.Boundary s.pos
  modes_ne_nil : s.modes ≠ []
  pending : ∀ request ∈ s.pending, request.redirectStart ≤ env.source.size
  comments : s.comments.Sound env.source
  reports : ∀ diagnostic ∈ s.diagnostics, diagnostic.Sound env
  running : s.halted = false → ∀ diagnostic ∈ s.diagnostics, diagnostic.kind.isFinal = false
  halted : s.halted = true → ∃ before final, s.diagnostics = before ++ [final] ∧
    final.kind.isFinal = true ∧ ∀ diagnostic ∈ before, diagnostic.kind.isFinal = false

structure Reached (env : Env) (s s' : State) : Prop where
  sound : Sound env s'
  modes_eq : s'.modes = s.modes
  flags_eq : s'.flags = s.flags
  inBacktick_eq : s'.inBacktick = s.inBacktick
  depth_eq : s'.depth = s.depth
  halted : s.halted = true → s'.halted = true
  reports : s.diagnostics <+: s'.diagnostics
  comments : ∀ c ∈ s.comments.spans, c ∈ s'.comments.spans

/-- A parse that has not halted accounts for the nodes by its reports, and for what they ask for and
answer by its requests. -/
def Accounts (env : Env) (s : State) (nodes : List Node) (s' : State) : Prop :=
  s'.halted = false → Node.AllSettled env.source s'.diagnostics nodes ∧
    Ledger env.source s.pending s.diagnostics nodes s'.pending s'.diagnostics

/-- Every backtick closes. -/
def State.ClosesBackticks (s : State) : Prop :=
  s.inBacktick = true ∧ s.modes.head? ≠ some .arithmetic

/-- The nodes are what a construct makes of a text, wherever it stands. -/
structure Yields (env : Env) (s : State) (nodes : List Node) (s' : State) : Prop
    extends Reached env s s' where
  bound : Node.AllBound nodes
  genuine : Node.AllGenuine env.source nodes
  accounts : Accounts env s nodes s'
  flat : s.ClosesBackticks → Node.AllFlat nodes

/-- The nodes are what a construct makes of the text between the states. -/
structure Reads (env : Env) (s : State) (nodes : List Node) (s' : State) : Prop
    extends Yields env s nodes s' where
  tiles : Tiles env.source s'.comments.spans nodes s.pos s'.pos

/-- Nothing was taken, so that the same token comes next. Reports and comments may be new. -/
structure Stays (env : Env) (s s' : State) : Prop where
  sound : Sound env s'
  eq : s' = { s with
    comments := s'.comments
    diagnostics := s'.diagnostics
    boundaries := s'.boundaries }
  reports : s.diagnostics <+: s'.diagnostics
  missingEnds_eq : missingEnds s'.diagnostics = missingEnds s.diagnostics
  missingBodies_eq : missingBodies s'.diagnostics = missingBodies s.diagnostics
  comments : ∀ c ∈ s.comments.spans, c ∈ s'.comments.spans

variable {env : Env} {s s₁ s₂ s₃ : State} {nodes siblings : List Node}

theorem Sound.running_of_clean (h : Sound env s) (hclean : s.diagnostics = []) :
    s.halted = false := by
  by_cases hs : s.halted = true
  . obtain ⟨before, final, hreports, _⟩ := h.halted hs
    simp [hclean] at hreports
  . simpa using hs

namespace Reached

theorem refl (h : Sound env s) : Reached env s s where
  sound := h
  modes_eq := rfl
  flags_eq := rfl
  inBacktick_eq := rfl
  depth_eq := rfl
  halted := id
  reports := List.prefix_refl s.diagnostics
  comments := fun _ => id

theorem trans (h : Reached env s₁ s₂) (h' : Reached env s₂ s₃) : Reached env s₁ s₃ where
  sound := h'.sound
  modes_eq := h'.modes_eq.trans h.modes_eq
  flags_eq := h'.flags_eq.trans h.flags_eq
  inBacktick_eq := h'.inBacktick_eq.trans h.inBacktick_eq
  depth_eq := h'.depth_eq.trans h.depth_eq
  halted := fun hs => h'.halted (h.halted hs)
  reports := h.reports.trans h'.reports
  comments := fun c hc => h'.comments c (h.comments c hc)

theorem running (h : Reached env s s₁) (hrunning : s₁.halted = false) : s.halted = false := by
  by_cases hs : s.halted = true
  . simp [h.halted hs] at hrunning
  . simpa using hs

theorem clean (h : Reached env s s₁) (hclean : s₁.diagnostics = []) : s.diagnostics = [] :=
  List.prefix_nil.1 (hclean ▸ h.reports)

theorem closesBackticks_iff (h : Reached env s s₁) :
    s₁.ClosesBackticks ↔ s.ClosesBackticks := by
  unfold State.ClosesBackticks
  rw [h.inBacktick_eq, h.modes_eq]

theorem yields (h : Reached env s s₁) (haccounts : Accounts env s [] s₁) : Yields env s [] s₁ :=
  ⟨h, .nil, .nil, haccounts, fun _ => trivial⟩

end Reached

namespace Yields

theorem trans (h : Yields env s₁ nodes s₂) (h' : Yields env s₂ siblings s₃) :
    Yields env s₁ (nodes ++ siblings) s₃ where
  toReached := h.toReached.trans h'.toReached
  bound := h.bound.append h'.bound
  genuine := h.genuine.append h'.genuine
  accounts hrunning := by
    obtain ⟨hsettled, hledger⟩ := h.accounts (h'.toReached.running hrunning)
    obtain ⟨hsettled', hledger'⟩ := h'.accounts hrunning
    exact ⟨(hsettled.mono h'.reports).append hsettled', hledger.trans hledger'⟩
  flat hcloses := (h.flat hcloses).append (h'.flat (h.closesBackticks_iff.2 hcloses))

end Yields

namespace Stays

theorem refl (h : Sound env s) : Stays env s s :=
  ⟨h, rfl, List.prefix_refl s.diagnostics, rfl, rfl, fun _ => id⟩

theorem trans (h : Stays env s₁ s₂) (h' : Stays env s₂ s₃) : Stays env s₁ s₃ := by
  refine ⟨h'.sound, ?_, h.reports.trans h'.reports, h'.missingEnds_eq.trans h.missingEnds_eq,
    h'.missingBodies_eq.trans h.missingBodies_eq, fun c hc => h'.comments c (h.comments c hc)⟩
  rw [h'.eq, h.eq]

theorem pos_eq (h : Stays env s s₁) : s₁.pos = s.pos := by rw [h.eq]

theorem halted_eq (h : Stays env s s₁) : s₁.halted = s.halted := by rw [h.eq]

theorem flags_eq (h : Stays env s s₁) : s₁.flags = s.flags := by rw [h.eq]

theorem depth_eq (h : Stays env s s₁) : s₁.depth = s.depth := by rw [h.eq]

theorem pending_eq (h : Stays env s s₁) : s₁.pending = s.pending := by rw [h.eq]

theorem reached (h : Stays env s s₁) : Reached env s s₁ where
  sound := h.sound
  modes_eq := by rw [h.eq]
  flags_eq := h.flags_eq
  inBacktick_eq := by rw [h.eq]
  depth_eq := h.depth_eq
  halted := by rw [h.halted_eq]; exact id
  reports := h.reports
  comments := h.comments

theorem yields (h : Stays env s s₁) : Yields env s [] s₁ := by
  refine h.reached.yields fun _ => ⟨.nil, ?_⟩
  rw [h.pending_eq]
  exact .nil h.missingEnds_eq h.missingBodies_eq

theorem reads (h : Stays env s s₁) : Reads env s [] s₁ where
  toYields := h.yields
  tiles := by
    rw [tiles_nil, h.pos_eq]
    exact .done (h.pos_eq ▸ h.sound.boundary)

end Stays

namespace Reads

theorem refl (h : Sound env s) : Reads env s [] s := (Stays.refl h).reads

theorem trans (h : Reads env s₁ nodes s₂) (h' : Reads env s₂ siblings s₃) :
    Reads env s₁ (nodes ++ siblings) s₃ where
  toYields := h.toYields.trans h'.toYields
  tiles := (h.tiles.mono h'.comments).append h'.tiles

theorem stays (h : Reads env s₁ nodes s₂) (h' : Stays env s₂ s₃) : Reads env s₁ nodes s₃ := by
  simpa using h.trans h'.reads

theorem pos_le (h : Reads env s nodes s₁) : s.pos ≤ s₁.pos := h.tiles.le

end Reads

theorem Sound.pos_le_size (h : Sound env s) : s.pos ≤ env.source.size := h.boundary.le_size

/-! ### What is left to read -/

/-- What is left of the parse: the bytes before the end of the source, and a halt. -/
def State.remaining (env : Env) (s : State) : Nat :=
  env.source.size - s.pos + if s.halted then 0 else 1

theorem State.remaining_le (env : Env) (s : State) : s.remaining env ≤ env.source.size + 2 := by
  unfold State.remaining
  split <;> omega

theorem Reads.remaining_le (h : Reads env s nodes s₁) : s₁.remaining env ≤ s.remaining env := by
  have := h.pos_le
  have := h.halted
  unfold State.remaining
  split <;> split <;> simp_all
  all_goals omega

theorem Reads.remaining_lt_of_pos (h : Reads env s nodes s₁) (hpos : s.pos < s₁.pos) :
    s₁.remaining env < s.remaining env := by
  have := h.sound.pos_le_size
  have := h.halted
  unfold State.remaining
  split <;> split <;> simp_all
  all_goals omega

theorem Reads.remaining_lt_of_halted (h : Reads env s nodes s₁) (hs : s.halted = false)
    (hhalted : s₁.halted = true) : s₁.remaining env < s.remaining env := by
  have := h.pos_le
  unfold State.remaining
  rw [hs, hhalted]
  simp only [if_true, Bool.false_eq_true, if_false]
  omega

theorem State.halted_of_remaining_lt (hpos : s₁.pos = s.pos)
    (hless : s₁.remaining env < s.remaining env) : s₁.halted = true := by
  unfold State.remaining at hless
  rw [hpos] at hless
  cases hs₁ : s₁.halted with
  | true => rfl
  | false =>
    simp only [hs₁, Bool.false_eq_true, if_false] at hless
    split at hless <;> omega

/-- Fewer bytes are left behind the place than the level says. A construct takes something before it
nests another, so that the depth is at most two for each byte before the place and two at the place
itself; the room is what is left of these. -/
structure Room (env : Env) (level room place depth : Nat) : Prop where
  size_lt : env.source.size < place + level
  depth_le : depth + room ≤ 2 * place + 2

structure Within (env : Env) (level room : Nat) (s : State) : Prop
    extends Room env level room s.pos s.depth where
  sound : Sound env s

section

variable {level room place place' depth : Nat}

theorem Room.mono (h : Room env level room place depth) (hle : place ≤ place') :
    Room env level room place' depth := by
  have := h.size_lt
  have := h.depth_le
  exact ⟨by omega, by omega⟩

/-- Behind something that is taken there is room for two more. -/
theorem Room.pred (h : Room env (level + 1) room place depth) (hlt : place < place') :
    Room env level (room + 2) place' depth := by
  have := h.size_lt
  have := h.depth_le
  exact ⟨by omega, by omega⟩

theorem Room.of_le {room' : Nat} (h : Room env level room place depth) (hle : room' ≤ room) :
    Room env level room' place depth :=
  ⟨h.size_lt, Nat.le_trans (Nat.add_le_add_left hle depth) h.depth_le⟩

theorem Room.renewed (h : Room env (level + 1) room place depth) (hlt : place < place') :
    Room env level 2 place' depth :=
  (h.pred hlt).of_le (Nat.le_add_left 2 room)

namespace Within

theorem succ (h : Within env level room s) : Within env (level + 1) room s :=
  ⟨⟨Nat.lt_succ_of_lt h.size_lt, h.depth_le⟩, h.sound⟩

theorem reached (h : Within env level room s) (hreached : Reached env s s₁)
    (hle : s.pos ≤ s₁.pos) : Within env level room s₁ :=
  ⟨hreached.depth_eq ▸ h.toRoom.mono hle, hreached.sound⟩

theorem reads (h : Within env level room s) (hreads : Reads env s nodes s₁) :
    Within env level room s₁ := h.reached hreads.toReached hreads.pos_le

theorem stays (h : Within env level room s) (hstays : Stays env s s₁) : Within env level room s₁ :=
  h.reads hstays.reads

theorem pred (h : Within env (level + 1) room s) (hreads : Reads env s nodes s₁)
    (hpos : s.pos < s₁.pos) : Within env level 2 s₁ :=
  ⟨hreads.depth_eq ▸ h.toRoom.renewed hpos, hreads.sound⟩

end Within

end

end Parse

end ShellTree
