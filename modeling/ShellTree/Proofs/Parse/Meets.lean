import ShellTree.Parse.Basic

/-!
This module contains postconditions of the parsing monad. A computation that meets one runs to its
end; the one fault that is let through is that of a pattern in a test, which needs the pattern
operator and a character that is not ASCII.
-/

namespace ShellTree

/-- A pattern may have a character in it that its scanner cannot step over. -/
def Source.MayFault (src : Source) : Prop :=
  ['=', '~'] <:+: src.text.toList ∧ ∃ c ∈ src.text.toList, 1 < c.utf8Size

namespace Parse

variable {α β : Type} {env : Env} {s : State}

/-- What the computation returns and the state that it leaves behind meet the condition. -/
def Meets (env : Env) (s : State) (m : Parse α) (post : α → State → Prop) : Prop :=
  match m env s with
  | .ok (a, s') => post a s'
  | .error fault => fault = .splitCharacter ∧ env.source.MayFault

theorem Meets.mono {m : Parse α} {post post' : α → State → Prop} (h : Meets env s m post)
    (hpost : ∀ a s', post a s' → post' a s') : Meets env s m post' := by
  unfold Meets at h ⊢
  split
  . next a s' heq =>
    rw [heq] at h
    exact hpost a s' h
  . next fault heq =>
    rw [heq] at h
    exact h

theorem Meets.bind {m : Parse α} {f : α → Parse β} {post : α → State → Prop}
    {post' : β → State → Prop} (h : Meets env s m post)
    (hf : ∀ a s', post a s' → Meets env s' (f a) post') : Meets env s (m >>= f) post' := by
  have hrun : (m >>= f) env s =
      match m env s with
      | .ok (a, s') => f a env s'
      | .error fault => .error fault := by
    simp only [Bind.bind, ReaderT.bind, StateT.bind, Except.bind]
    cases m env s <;> rfl
  unfold Meets at h ⊢
  rw [hrun]
  cases hm : m env s with
  | ok result =>
    rw [hm] at h
    exact hf result.1 result.2 h
  | error fault =>
    rw [hm] at h
    exact h

theorem Meets.and {m : Parse α} {post post' : α → State → Prop} (h : Meets env s m post)
    (h' : Meets env s m post') : Meets env s m fun a s' => post a s' ∧ post' a s' := by
  unfold Meets at h h' ⊢
  cases hm : m env s with
  | ok result =>
    rw [hm] at h h'
    exact ⟨h, h'⟩
  | error fault =>
    rw [hm] at h
    exact h

theorem Meets.of_run {m : Parse α} {post : α → State → Prop} {a : α} {s' : State}
    (h : Meets env s m post) (hrun : m env s = .ok (a, s')) : post a s' := by
  unfold Meets at h
  rw [hrun] at h
  exact h

theorem bind_run {m : Parse α} {f : α → Parse β} {result : β × State} :
    (m >>= f) env s = .ok result ↔ ∃ a s', m env s = .ok (a, s') ∧ f a env s' = .ok result := by
  simp only [Bind.bind, ReaderT.bind, StateT.bind, Except.bind]
  cases m env s with
  | error fault => simp
  | ok result' =>
    obtain ⟨a, s'⟩ := result'
    simp only [Except.ok.injEq, Prod.mk.injEq]
    constructor
    . exact fun h => ⟨a, s', ⟨rfl, rfl⟩, h⟩
    . rintro ⟨_, _, ⟨rfl, rfl⟩, h⟩
      exact h

theorem bind_eq_of_run {m : Parse α} {f : α → Parse β} {a : α} {s s' : State}
    (h : m env s = .ok (a, s')) : (m >>= f) env s = f a env s' := by
  simp only [Bind.bind, ReaderT.bind, StateT.bind, Except.bind, h]

theorem bind_fault {m : Parse α} {f : α → Parse β} {fault : Fault} :
    (m >>= f) env s = .error fault ↔
      m env s = .error fault ∨ ∃ a s', m env s = .ok (a, s') ∧ f a env s' = .error fault := by
  simp only [Bind.bind, ReaderT.bind, StateT.bind, Except.bind]
  cases m env s with
  | error fault => simp
  | ok result =>
    obtain ⟨a, s'⟩ := result
    simp only [reduceCtorEq, false_or, Except.ok.injEq, Prod.mk.injEq]
    constructor
    . exact fun h => ⟨a, s', ⟨rfl, rfl⟩, h⟩
    . rintro ⟨_, _, ⟨rfl, rfl⟩, h⟩
      exact h

theorem liftM_run {x : Except Fault α} {a : α} {s' : State}
    (h : (liftM x : Parse α) env s = .ok (a, s')) : x = .ok a ∧ s' = s := by
  cases x with
  | error fault => cases h
  | ok a =>
    cases h
    exact ⟨rfl, rfl⟩

theorem spanBetween_run {start stop : Nat} {span : Span} {s' : State}
    (h : spanBetween start stop env s = .ok (span, s')) : s' = s := (liftM_run h).2

@[simp]
theorem meets_bind_get {f : State → Parse β} {post : β → State → Prop} :
    Meets env s (get >>= f) post ↔ Meets env s (f s) post := Iff.rfl

@[simp]
theorem meets_bind_read {f : Env → Parse β} {post : β → State → Prop} :
    Meets env s (read >>= f) post ↔ Meets env s (f env) post := Iff.rfl

@[simp]
theorem meets_bind_modify {g : State → State} {f : PUnit → Parse β} {post : β → State → Prop} :
    Meets env s (modify g >>= f) post ↔ Meets env (g s) (f ⟨⟩) post := Iff.rfl

@[simp]
theorem meets_bind_set {s' : State} {f : PUnit → Parse β} {post : β → State → Prop} :
    Meets env s (set s' >>= f) post ↔ Meets env s' (f ⟨⟩) post := Iff.rfl

@[simp]
theorem meets_bind_pure {a : α} {f : α → Parse β} {post : β → State → Prop} :
    Meets env s (pure a >>= f) post ↔ Meets env s (f a) post := Iff.rfl

theorem meets_modify {g : State → State} {post : PUnit → State → Prop} :
    Meets env s (modify g) post ↔ post ⟨⟩ (g s) := Iff.rfl

@[simp]
theorem meets_bind_source {f : Source → Parse β} {post : β → State → Prop} :
    Meets env s (source >>= f) post ↔ Meets env s (f env.source) post := Iff.rfl

@[simp]
theorem meets_bind_position {f : Nat → Parse β} {post : β → State → Prop} :
    Meets env s (position >>= f) post ↔ Meets env s (f s.pos) post := Iff.rfl

@[simp]
theorem meets_bind_isHalted {f : Bool → Parse β} {post : β → State → Prop} :
    Meets env s (isHalted >>= f) post ↔ Meets env s (f s.halted) post := Iff.rfl

@[simp]
theorem meets_bind_setPosition {offset : Nat} {f : PUnit → Parse β} {post : β → State → Prop} :
    Meets env s (setPosition offset >>= f) post ↔
      Meets env { s with pos := offset } (f ⟨⟩) post := Iff.rfl

theorem meets_bind_liftM {x : Except Fault α} {a : α} (h : x = .ok a) {f : α → Parse β}
    {post : β → State → Prop} :
    Meets env s ((liftM x : Parse α) >>= f) post ↔ Meets env s (f a) post := by
  subst h
  rfl

theorem meets_bind_spanBetween {start stop : Nat} (h : start ≤ stop) {f : Span → Parse β}
    {post : β → State → Prop} :
    Meets env s (spanBetween start stop >>= f) post ↔ Meets env s (f ⟨start, stop, h⟩) post := by
  unfold spanBetween
  apply meets_bind_liftM
  unfold Span.between
  rw [dif_pos h]

theorem meets_bind_assoc {γ : Type} {m : Parse α} {f : α → Parse β} {g : β → Parse γ}
    {post : γ → State → Prop} :
    Meets env s (m >>= f >>= g) post ↔ Meets env s (m >>= fun a => f a >>= g) post := by
  rw [bind_assoc]

theorem meets_bind_charactersAt {offset : Nat} {cs : List Char}
    (h : env.source.tail? offset = some cs) {f : List Char → Parse β} {post : β → State → Prop} :
    Meets env s (charactersAt offset >>= f) post ↔ Meets env s (f cs) post := by
  unfold charactersAt
  rw [meets_bind_assoc, meets_bind_source]
  simp only [h]
  rfl

/-- What a step of a loop does: its end has the result, and otherwise there is less to do. -/
def Steps (inv post : α → State → Prop) (measure : α → State → Nat) (a : α) (s : State) :
    ForInStep α → State → Prop
  | .done a', s' => post a' s'
  | .yield a', s' => inv a' s' ∧ measure a' s' < measure a s

theorem repeatStep_meets {step : α → Parse (ForInStep α)} {left : α → Parse Nat}
    (inv : α → State → Prop) (measure : α → State → Nat) {post : α → State → Prop} {a : α}
    (hinv : inv a s) (hmeasure : measure a s ≤ env.source.size + 2)
    (hleft : ∀ a s, left a env s = .ok (measure a s, s))
    (hstep : ∀ a s, inv a s → Meets env s (step a) (Steps inv post measure a s)) :
    Meets env s (repeatStep step a left) post := by
  have hbind : ∀ {β : Type} {f : Nat → Parse β} {post : β → State → Prop} a s,
      Meets env s (left a >>= f) post ↔ Meets env s (f (measure a s)) post := by
    intro β f post a s
    unfold Meets
    simp only [Bind.bind, ReaderT.bind, StateT.bind, Except.bind, hleft a s]
  -- the measure stays below the fuel, so that the fuel is never used up
  have hrepeat : ∀ fuel a s, inv a s → measure a s < fuel →
      Meets env s (repeatUpTo step left fuel a) post := by
    intro fuel
    induction fuel with
    | zero =>
      intro a s _ hlt
      omega
    | succ fuel ih =>
      intro a s hinv hlt
      unfold repeatUpTo
      rw [hbind]
      apply (hstep a s hinv).bind
      intro result s' hresult
      cases result with
      | done a' => exact hresult
      | yield a' =>
        obtain ⟨hinv', hless⟩ := hresult
        dsimp only
        rw [hbind, if_pos hless]
        exact ih a' s' hinv' (by omega)
  unfold repeatStep
  rw [meets_bind_source]
  exact hrepeat _ a s hinv (by omega)

/-- More steps than a loop takes do no harm. -/
theorem repeatUpTo_mono {step : α → Parse (ForInStep α)} {left : α → Parse Nat}
    {fuel fuel' : Nat} {a : α} {result : α × State}
    (h : repeatUpTo step left fuel a env s = .ok result) (hle : fuel ≤ fuel') :
    repeatUpTo step left fuel' a env s = .ok result := by
  induction fuel generalizing fuel' a s with
  | zero => cases h
  | succ fuel ih =>
    obtain ⟨fuel', rfl⟩ : ∃ n, fuel' = n + 1 := ⟨fuel' - 1, by omega⟩
    unfold repeatUpTo at h ⊢
    obtain ⟨before, s₁, hbefore, hrun⟩ := bind_run.1 h
    obtain ⟨value, s₂, hstep, hrun⟩ := bind_run.1 hrun
    refine bind_run.2 ⟨before, s₁, hbefore, bind_run.2 ⟨value, s₂, hstep, ?_⟩⟩
    cases value with
    | done a' => exact hrun
    | yield a' =>
      obtain ⟨after, s₃, hafter, hrun⟩ := bind_run.1 hrun
      refine bind_run.2 ⟨after, s₃, hafter, ?_⟩
      split at hrun
      . next hless =>
        rw [if_pos hless]
        exact ih hrun (Nat.le_of_succ_le_succ hle)
      . cases hrun

/-! ### Results -/

def Returns (m : Parse α) (p : α → Prop) : Prop := ∀ env s a s', m env s = .ok (a, s') → p a

theorem returns_pure {a : α} {p : α → Prop} (h : p a) : Returns (pure a) p := by
  intro env s a' s' heq
  cases heq
  exact h

theorem Returns.bind {m : Parse α} {f : α → Parse β} {p : α → Prop} {q : β → Prop}
    (h : Returns m p) (hf : ∀ a, p a → Returns (f a) q) : Returns (m >>= f) q := by
  intro env s b s' heq
  simp only [Bind.bind, ReaderT.bind, StateT.bind, Except.bind] at heq
  cases hm : m env s with
  | error fault => simp [hm] at heq
  | ok result =>
    rw [hm] at heq
    exact hf result.1 (h env s result.1 result.2 hm) env result.2 b s' heq

theorem returns_bind {m : Parse α} {f : α → Parse β} {p : β → Prop} (hf : ∀ a, Returns (f a) p) :
    Returns (m >>= f) p :=
  Returns.bind (p := fun _ => True) (fun _ _ _ _ _ => trivial) fun a _ => hf a

theorem Returns.mono {m : Parse α} {p q : α → Prop} (h : Returns m p) (hpq : ∀ a, p a → q a) :
    Returns m q := fun env s a s' heq => hpq a (h env s a s' heq)

/-- What every step of a loop keeps up, its end has. -/
theorem repeatUpTo_returns {step : α → Parse (ForInStep α)} {left : α → Parse Nat} {p : α → Prop}
    (hstep : ∀ a, p a → Returns (step a) fun result => p result.value) (fuel : Nat) {a : α}
    (ha : p a) : Returns (repeatUpTo step left fuel a) p := by
  induction fuel generalizing a with
  | zero =>
    intro env s a' s' heq
    cases heq
  | succ fuel ih =>
    unfold repeatUpTo
    apply returns_bind
    intro before
    refine (hstep a ha).bind fun result hresult => ?_
    cases result with
    | done a' => exact returns_pure hresult
    | yield a' =>
      apply returns_bind
      intro after
      split
      . exact ih hresult
      . intro env s a' s' heq
        cases heq

theorem repeatStep_returns {step : α → Parse (ForInStep α)} {left : α → Parse Nat} {p : α → Prop}
    {a : α} (ha : p a) (hstep : ∀ a, p a → Returns (step a) fun result => p result.value) :
    Returns (repeatStep step a left) p := by
  unfold repeatStep
  apply returns_bind
  intro src
  exact repeatUpTo_returns hstep _ ha

theorem Meets.and_returns {m : Parse α} {post : α → State → Prop} {p : α → Prop}
    (h : Meets env s m post) (hp : Returns m p) :
    Meets env s m fun a s' => post a s' ∧ p a := by
  unfold Meets at h ⊢
  split
  . next a s' heq =>
    rw [heq] at h
    exact ⟨h, hp env s a s' heq⟩
  . next fault heq =>
    rw [heq] at h
    exact h

end Parse

end ShellTree
