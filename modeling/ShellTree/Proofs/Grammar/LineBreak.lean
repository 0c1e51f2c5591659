import ShellTree.Grammar.LineBreak
import ShellTree.Proofs.Grammar.Text

/-!
This module contains the correctness of line breaks: the bodies of the here-documents and their
delimiters follow each other from the line break on.
-/

namespace ShellTree
namespace Grammar

open Parse Source

variable {env : Env} {level room : Nat} {inner : Nested} {s s₁ s' : State}

theorem afterLineBreak_skips {src : Source} {offset : Nat} (h : src.Boundary offset)
    (comments : List Span) : Skips src comments offset (afterLineBreak src offset) := by
  obtain ⟨cs, htail, hspells⟩ := h.exists_tail?
  unfold afterLineBreak
  rw [htail]
  split
  . next cs heq =>
    cases heq
    exact .of_spells (hspells.trim ['\n'] ⟨_, rfl⟩) rfl
  . next cs heq =>
    cases heq
    exact .of_spells (hspells.trim ['\r', '\n'] ⟨_, rfl⟩) rfl
  . exact .done h

section

variable {start : Nat} {extent : Heredoc.Extent} {request : Heredoc.Request}
variable {requests : List Heredoc.Request} {body : Node}

theorem sound_with_rest (h : Sound env s) {stop : Nat} (hstop : env.source.Boundary stop)
    (hrequests : ∀ request ∈ requests, request.redirectStart ≤ env.source.size) :
    Sound env { s with pos := stop, pending := requests ++ s.pending } where
  boundary := hstop
  modes_ne_nil := h.modes_ne_nil
  pending request hrequest := (List.mem_append.1 hrequest).elim (hrequests request)
    (h.pending request)
  comments := h.comments
  reports := h.reports
  running := h.running
  halted := h.halted

theorem settled_body {diagnostics : List Diagnostic} {span : Span} {nodes : List Node}
    (h : Node.AllSettled env.source diagnostics nodes)
    (hfilled : diagnostics = [] → Node.IsFilled ⟨.heredocBody, span, nodes⟩) :
    Node.AllSettled env.source diagnostics [⟨.heredocBody, span, nodes⟩] :=
  h.wrap (Node.settled_of_ne_error (by simp) (fun _ => trivial) (by simp) hfilled)

theorem settled_delimiter {diagnostics : List Diagnostic} (span : Span) :
    Node.AllSettled env.source diagnostics [.leaf .heredocEnd span] :=
  Node.All.nil.wrap (Node.settled_of_standsAlone rfl fun _ => trivial)

theorem genuine_part {kind : NodeKind} {span : Span} {nodes : List Node}
    (hkind : kind = .heredocBody ∨ kind = .heredocEnd) (h : Node.AllGenuine env.source nodes) :
    Node.AllGenuine env.source [⟨kind, span, nodes⟩] := by
  apply h.wrap
  obtain rfl | rfl := hkind
  all_goals exact Node.isGenuine_of_parts (by simp) rfl (fun _ => rfl) (by simp) (by simp)

theorem tiles_body (hskips : Skips env.source s.comments.spans s.pos start)
    (hfits : extent.Fits env.source start request) (hbody : ReadsBody env s extent.body body s₁)
    (hcomments : ∀ c ∈ s₁.comments.spans, c ∈ s'.comments.spans) {after : List Node} {stop : Nat}
    (hafter : Tiles env.source s'.comments.spans after extent.body.stop stop) :
    Tiles env.source s'.comments.spans (body :: after) s.pos stop := by
  refine tiles_cons.2 ⟨?_, hbody.fits.mono hcomments, ?_⟩
  . rw [hbody.span_eq, hfits.start_eq]
    exact (hskips.mono hbody.yields.comments).mono hcomments
  . rw [hbody.span_eq]
    exact hafter

/-- A body with its delimiter answers the first request. -/
theorem reads_answered (hskips : Skips env.source s.comments.spans s.pos start)
    (hfits : extent.Fits env.source start request) {span : Span} (hspan : span ∈ extent.delimiter)
    (hbody : ReadsBody env s extent.body body s₁)
    (hrequests : ∀ request ∈ requests, request.redirectStart ≤ env.source.size) :
    Reads env { s with pending := request :: requests ++ s.pending }
      [body, .leaf .heredocEnd span]
      { s₁ with pos := span.stop, pending := requests ++ s₁.pending } := by
  have hat := hfits.delimiter span hspan
  have hyields := hbody.yields
  have hreached : Reached env { s with pending := request :: requests ++ s.pending }
      { s₁ with pos := span.stop, pending := requests ++ s₁.pending } :=
    { hyields.toReached with sound := sound_with_rest hyields.sound hat.spells.right hrequests }
  have hend : Tiles env.source s₁.comments.spans [.leaf .heredocEnd span] extent.body.stop
      span.stop := (Tiles.leaf hat.spells).skip_left (hat.skips.mono (by simp))
  have htiles := tiles_body hskips hfits hbody (fun _ => id) hend
  obtain ⟨_, span', nodes⟩ := body
  obtain ⟨rfl, _, _, _, hfilled⟩ := hbody
  have hbound : Node.AllBound [⟨.heredocBody, span', nodes⟩] := hyields.bound.wrap trivial
  have hgenuine : Node.AllGenuine env.source [⟨.heredocBody, span', nodes⟩] :=
    genuine_part (.inl rfl) hyields.genuine
  refine ⟨⟨hreached, hbound.append (Node.AllBound.leaf _ _),
    hgenuine.append (genuine_part (.inr rfl) .nil), fun hrunning => ?_, fun hcloses =>
      ((hyields.flat hcloses).wrap (by simp)).append Node.allFlat_leaf⟩, htiles⟩
  obtain ⟨hsettled, hledger⟩ := hyields.accounts hrunning
  exact ⟨(settled_body hsettled hfilled).append (settled_delimiter span),
    (hledger.frame requests).answer hat.spells.textOf?_eq⟩

/-- The first request is left without a delimiter. -/
structure Lacks (env : Env) (request : Heredoc.Request) (s s' : State) : Prop
    extends Reached env s s' where
  pending_eq : s'.pending = s.pending
  missingEnds_eq : s'.halted = false →
    missingEnds s'.diagnostics = missingEnds s.diagnostics ++ [request.delimiter]
  missingBodies_eq : missingBodies s'.diagnostics = missingBodies s.diagnostics

theorem reportUnclosed_lacks (h : Sound env s) (hstart : request.redirectStart ≤ env.source.size) :
    Meets env s (reportUnclosed (.heredocBody request.delimiter) request.redirectStart)
      fun _ s' => Lacks env request s s' := by
  unfold reportUnclosed
  rw [meets_bind_source, meets_bind_spanBetween hstart]
  apply report_appends h (fun _ _ => unterminated_sound hstart) rfl
  . intro hhalted
    exact ⟨.refl h, rfl, by simp [hhalted], rfl⟩
  . intro line column hrunning hsound
    refine ⟨{ Reached.refl h with sound := hsound, reports := List.prefix_append _ _ }, rfl, ?_, ?_⟩
    . simp [missingEnds, Cause.missingEnd?]
    . simp [missingBodies, Cause.missingBody?]

theorem reads_lacking (hskips : Skips env.source s.comments.spans s.pos start)
    (hfits : extent.Fits env.source start request) (hbody : ReadsBody env s extent.body body s₁)
    (hlacks : Lacks env request s₁ s')
    (hrequests : ∀ request ∈ requests, request.redirectStart ≤ env.source.size) :
    Reads env { s with pending := request :: requests ++ s.pending } [body]
      { s' with pos := extent.body.stop, pending := requests ++ s'.pending } := by
  have hstop := hfits.boundary_stop hskips.right
  have hyields := hbody.yields
  have hreached : Reached env { s with pending := request :: requests ++ s.pending }
      { s' with pos := extent.body.stop, pending := requests ++ s'.pending } :=
    { hyields.toReached.trans hlacks.toReached with
      sound := sound_with_rest hlacks.sound hstop hrequests }
  have htiles := tiles_body hskips hfits hbody hlacks.comments (tiles_nil.2 (.done hstop))
  obtain ⟨_, _, nodes⟩ := body
  obtain ⟨rfl, _, _, _, hfilled⟩ := hbody
  refine ⟨⟨hreached, hyields.bound.wrap trivial, genuine_part (.inl rfl) hyields.genuine,
    fun hrunning => ?_, fun hcloses => (hyields.flat hcloses).wrap (by simp)⟩, htiles⟩
  obtain ⟨hsettled, hledger⟩ := hyields.accounts (hlacks.running hrunning)
  rw [hlacks.pending_eq]
  exact ⟨settled_body (hsettled.mono hlacks.reports) fun hclean => hfilled (hlacks.clean hclean),
    (hledger.frame requests).lack (hlacks.missingEnds_eq hrunning) hlacks.missingBodies_eq⟩

end

theorem bodies_reads (hinner : inner.Fits env level) (requests : List Heredoc.Request)
    {start : Nat} (hs : Sound env s)
    (hskips : Skips env.source s.comments.spans s.pos start)
    (hrequests : ∀ request ∈ requests, request.redirectStart ≤ env.source.size)
    (hroom : Room env level 2 start s.depth) :
    Meets env s (bodies inner requests start) fun nodes s' =>
      Reads env { s with pending := requests ++ s.pending } nodes s' := by
  induction requests generalizing s start with
  | nil => exact Reads.refl hs
  | cons request requests ih =>
    simp only [List.mem_cons, forall_eq_or_imp] at hrequests
    obtain ⟨extent, hextent, hfits⟩ := Heredoc.scanBody_fits hskips.right request
    have hstart : env.source.Boundary extent.body.start := hfits.start_eq ▸ hskips.right
    unfold bodies
    rw [meets_bind_source, meets_bind_liftM hextent]
    apply (heredocBody_meets hinner hs hstart (hfits.start_eq ▸ hfits.stop_eq)
      (hfits.start_eq ▸ hroom) request.quoted).bind
    intro body s₁ hbody
    -- the rest is read from where this request ends
    have hrest : ∀ nodes s₂, Sound env s₂ → start ≤ s₂.pos →
        Reads env { s with pending := request :: requests ++ s.pending } nodes
          { s₂ with pending := requests ++ s₂.pending } →
        Meets env s₂ (bodies inner requests (afterLineBreak env.source s₂.pos))
          fun rest s' => Reads env { s with pending := request :: requests ++ s.pending }
            (nodes ++ rest) s' := by
      intro nodes s₂ hs₂ hpos hreads
      have hafter := afterLineBreak_skips hs₂.boundary s₂.comments.spans
      have hdepth : s₂.depth = s.depth := hreads.depth_eq
      have hroom₂ := hdepth ▸ hroom.mono (Nat.le_trans hpos hafter.le)
      apply (ih hs₂ hafter hrequests.2 hroom₂).mono
      intro rest s' hmore
      exact hreads.trans hmore
    dsimp only
    cases hdelimiter : extent.delimiter with
    | none =>
      have hresume : extent.resumeAt = extent.body.stop := by
        simp [Heredoc.Extent.resumeAt, hdelimiter]
      apply (reportUnclosed_lacks hbody.yields.sound hrequests.1).bind
      intro _ s₂ hlacks
      rw [meets_bind_pure, meets_bind_setPosition, meets_bind_source, hresume]
      have hreads := reads_lacking hskips hfits hbody hlacks hrequests.2
      have hstop := hfits.boundary_stop hskips.right
      apply (hrest [body] { s₂ with pos := extent.body.stop } (hlacks.sound.with_pos hstop)
        hfits.start_le hreads).bind
      intro rest s' hmore
      exact hmore
    | some span =>
      have hresume : extent.resumeAt = span.stop := by
        simp [Heredoc.Extent.resumeAt, hdelimiter]
      rw [meets_bind_leafAt, meets_bind_pure, meets_bind_setPosition, meets_bind_source, hresume]
      have hspan : span ∈ extent.delimiter := by simp [hdelimiter]
      have hreads := reads_answered hskips hfits hspan hbody hrequests.2
      have hat := hfits.delimiter span hspan
      have hle : start ≤ span.stop :=
        Nat.le_trans hfits.start_le (Nat.le_trans hat.skips.le span.start_le_stop)
      apply (hrest [body, .leaf .heredocEnd span] { s₁ with pos := span.stop }
        (hbody.yields.sound.with_pos hat.spells.right) hle hreads).bind
      intro rest s' hmore
      exact hmore

theorem pendingBodies_reads (hinner : inner.Fits env level) (h : Within env level 2 s) :
    Meets env s (pendingBodies inner) fun nodes s' => Reads env s nodes s' := by
  unfold pendingBodies
  rw [meets_bind_get, meets_bind_set]
  have hs : Sound env { s with pending := [] } := { h.sound with pending := by simp }
  apply (bodies_reads hinner s.pending hs (.done h.sound.boundary) h.sound.pending
    h.toRoom).mono
  intro nodes s' hreads
  rw [List.append_nil] at hreads
  exact hreads

theorem newline_skips {tok : Token} (h : Next env s tok) (hkind : tok.kind = .newline) :
    Skips env.source s.comments.spans s.pos tok.span.stop := by
  have hspells := h.spells
  rw [h.newline_eq hkind] at hspells
  exact h.skips.trans (.of_spells hspells (by decide))

def ReadsLineBreak (env : Env) (s : State) : Option (List Node) → State → Prop
  | none, s' => Stays env s s' ∧ (s.token env {}).kind ≠ .newline
  | some nodes, s' => Reads env s nodes s' ∧ s.pos < s'.pos

theorem lineBreak?_meets (hinner : inner.Fits env level) (h : Within env (level + 1) room s)
    (keepLeaf : Bool) :
    Meets env s (lineBreak? inner keepLeaf) (ReadsLineBreak env s) := by
  unfold lineBreak?
  apply (peekPlain_meets h.sound).bind
  intro tok s₁ hpeek
  have hs₁ := hpeek.stays.sound
  split
  . next hkind =>
    have hne : tok.kind ≠ .eof := by simp [hkind]
    have hwhole : tok.IsWhole := by simp [Token.IsWhole, hkind]
    apply ((tokenLeaf_meets hs₁ hpeek.next fun _ => hwhole).and_returns tokenLeaf_returns).bind
    rintro leaf s₂ ⟨hleaf, hnewline⟩
    have hwithin := (h.stays hpeek.stays).taken hpeek.next hne hleaf
    apply (pendingBodies_reads hinner hwithin).bind
    intro nodes s₃ hnodes
    have hlt := hleaf.pos_lt hpeek.next hne
    have hpos := hpeek.stays.pos_eq
    have hle := hnodes.pos_le
    refine ⟨?_, by omega⟩
    cases keepLeaf with
    | true => exact (hpeek.stays.reads.trans hleaf.toReads).trans hnodes
    | false =>
      have hdropped := hleaf.yields_nil (by rw [hnewline, hkind]; rfl)
      have hskips := newline_skips hpeek.next hkind
      rw [hpos, ← hleaf.pos_eq] at hskips
      exact ⟨(hpeek.stays.yields.trans hdropped).trans hnodes.toYields,
        hnodes.tiles.skip_left ((hskips.mono hleaf.comments).mono hnodes.comments)⟩
  . next hkind => exact ⟨hpeek.stays, by rw [hpeek.kind_eq]; exact hkind⟩

theorem lineBreaks_reads (hinner : inner.Fits env level) (h : Within env (level + 1) room s) :
    Meets env s (lineBreaks inner) fun nodes s' => Reads env s nodes s' := by
  unfold lineBreaks
  apply collect_reads (.refl h.sound)
  intro nodes s₁ hnodes
  unfold lineBreaks.step
  apply (lineBreak?_meets hinner (h.reads hnodes) false).bind
  intro result s₂ hresult
  cases result with
  | none => exact hnodes.stays hresult.1
  | some more => exact hnodes.grows (hresult.1.takes hresult.2)

/-! ### What stands between statements -/

theorem heredocBody_returns (body : Span) (quoted : Bool) :
    Returns (heredocBody inner body quoted) (·.kind = .heredocBody) := by
  unfold heredocBody
  split
  . exact returns_pure rfl
  . apply returns_bind
    intro run
    exact returns_pure rfl

/-- Bodies of here-documents with their delimiters. -/
def AreBodies (nodes : List Node) : Prop :=
  ∀ node ∈ nodes, node.kind = .heredocBody ∨ node.kind = .heredocEnd

theorem AreBodies.isSeparator {nodes : List Node} (h : AreBodies nodes) :
    ∀ node ∈ nodes, node.kind.isSeparator := by
  intro node hnode
  cases h node hnode with
  | inl hbody => rw [hbody]; rfl
  | inr hend => rw [hend]; rfl

theorem bodies_returns (requests : List Heredoc.Request) (start : Nat) :
    Returns (bodies inner requests start) fun nodes => AreBodies nodes ∧
      (requests ≠ [] → ∃ first ∈ nodes.head?, first.kind = .heredocBody) := by
  induction requests generalizing start with
  | nil => exact returns_pure (by simp [AreBodies])
  | cons request requests ih =>
    unfold bodies
    apply returns_bind
    intro src
    apply returns_bind
    intro extent
    refine (heredocBody_returns _ _).bind fun body hbody => ?_
    have hrest : ∀ delimiter, AreBodies delimiter →
        Returns (do
          setPosition extent.resumeAt
          let rest ← bodies inner requests (afterLineBreak (← source) extent.resumeAt)
          return body :: delimiter ++ rest) fun nodes => AreBodies nodes ∧
            (request :: requests ≠ [] → ∃ first ∈ nodes.head?, first.kind = .heredocBody) := by
      intro delimiter hdelimiter
      iterate 2 apply returns_bind; intro
      refine (ih _).bind fun rest hrest => returns_pure ⟨?_, fun _ => ⟨body, rfl, hbody⟩⟩
      simp only [AreBodies, List.cons_append, List.mem_cons, List.mem_append, forall_eq_or_imp]
      exact ⟨.inl hbody, fun node hnode => hnode.elim (hdelimiter node) (hrest.1 node)⟩
    dsimp only
    split
    . refine (leafAt_returns _ _).bind fun leaf hleaf => ?_
      refine (returns_pure ?_).bind hrest
      simp [AreBodies, hleaf, Node.leaf]
    . apply returns_bind
      intro
      exact (returns_pure (by simp [AreBodies])).bind hrest

theorem pendingBodies_returns : Returns (pendingBodies inner) AreBodies := by
  unfold pendingBodies
  iterate 2 apply returns_bind; intro
  exact (bodies_returns _ _).mono fun nodes hnodes => hnodes.1

theorem lineBreak?_returns :
    Returns (lineBreak? inner false) fun result =>
      ∀ nodes ∈ result, AreBodies nodes := by
  unfold lineBreak?
  apply returns_bind
  intro tok
  split
  . apply returns_bind
    intro leaf
    exact pendingBodies_returns.bind fun nodes hnodes => returns_pure (by simpa using hnodes)
  . exact returns_pure (by simp)

theorem lineBreak?_returns_leaf :
    Returns (lineBreak? inner true) fun result =>
      ∀ nodes ∈ result, ∃ leaf bodies, nodes = leaf :: bodies ∧ leaf.kind = .token "\n" ∧
        AreBodies bodies := by
  unfold lineBreak?
  apply returns_bind
  intro tok
  split
  . next hnewline =>
    refine tokenLeaf_returns.bind fun leaf hleaf => ?_
    refine pendingBodies_returns.bind fun bodies hbodies => returns_pure ?_
    rintro _ ⟨⟩
    exact ⟨leaf, bodies, rfl, by rw [hleaf, hnewline]; rfl, hbodies⟩
  . exact returns_pure (by simp)

theorem lineBreaks_returns :
    Returns (lineBreaks inner) fun nodes => ∀ node ∈ nodes, node.kind.isSeparator := by
  unfold lineBreaks
  refine repeatStep_returns (by simp) fun nodes hnodes => ?_
  unfold lineBreaks.step
  refine lineBreak?_returns.bind fun result hresult => ?_
  cases result with
  | none => exact returns_pure hnodes
  | some more =>
    apply returns_pure
    intro node hnode
    exact (List.mem_append.1 hnode).elim (hnodes node) ((hresult more rfl).isSeparator node)

end Grammar
end ShellTree
