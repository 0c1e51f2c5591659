import Mathlib.Logic.Relation
import ShellTree.Proofs.Limit
import ShellTree.Session

/-!
This module contains what a session answers. A token and its copies, and theirs, are a family; a
token is cancelled once a token of its family has been, and a parse with a token that is not
cancelled is the parse without one.
-/

namespace ShellTree

namespace Session

/-! ### Families of tokens -/

namespace Step

def makesToken : Step → Bool
  | .new | .clone _ => true
  | _ => false

/-- The tokens that a step names. -/
def tokens : Step → List Nat
  | .clone token | .cancel token | .check token | .parse _ _ (some token) => [token]
  | .new | .parse _ _ none => []

end Step

/-- The number of tokens that the steps make. It is the number of the token made next. -/
def made (steps : List Step) : Nat := steps.countP Step.makesToken

/-- Every step names tokens that are there, of which there are `size` at first. -/
def isScoped (size : Nat) : List Step → Bool
  | [] => true
  | s :: steps => s.tokens.all (· < size) && isScoped (size + made [s]) steps

def IsOriginal (steps : List Step) (token : Nat) : Prop :=
  ∃ before, before ++ [.new] <+: steps ∧ token = made before

def Copies (steps : List Step) (token copy : Nat) : Prop :=
  ∃ before, before ++ [.clone token] <+: steps ∧ copy = made before

/-- The token is the first one or has been copied from it, directly or through copies. -/
def Descends (steps : List Step) : Nat → Nat → Prop := Relation.ReflTransGen (Copies steps)

/-- The tokens are of one family: both descend from the same original. -/
def AreRelated (steps : List Step) (token other : Nat) : Prop :=
  ∃ original, IsOriginal steps original ∧ Descends steps original token ∧
    Descends steps original other

/-- A token of the family has been cancelled. -/
def IsCancelled (steps : List Step) (token : Nat) : Prop :=
  ∃ other, .cancel other ∈ steps ∧ AreRelated steps other token

/-- What is answered to a step after the steps before it. -/
inductive Answers (before : List Step) : Step → Answer → Prop where
  | new : Answers before .new (.token (made before))
  | clone {token : Nat} : Answers before (.clone token) (.token (made before))
  | cancel {token : Nat} : Answers before (.cancel token) .done
  | check {token : Nat} {flag : Bool} : (flag = true ↔ IsCancelled before token) →
    Answers before (.check token) (.flag flag)
  | cancelled {text : String} {options : Options} {token : Nat} : IsCancelled before token →
    Answers before (.parse text options (some token)) (.tree (.cancelled (.ofString text)))
  | parse {text : String} {options : Options} {token : Option Nat} {tree : Tree} :
    (∀ t ∈ token, ¬IsCancelled before t) → parse (.ofString text) options = .ok tree →
      Answers before (.parse text options token) (.tree tree)

/-- The step is a parse that is not cancelled and has no result. -/
def Faults (before : List Step) (s : Step) (fault : Fault) : Prop :=
  ∃ text options token, s = .parse text options token ∧ (∀ t ∈ token, ¬IsCancelled before t) ∧
    parse (.ofString text) options = .error fault

variable {before later steps : List Step} {s : Step} {token other original copy : Nat}

/-! ### One more step -/

theorem made_append (steps more : List Step) : made (steps ++ more) = made steps + made more :=
  List.countP_append

theorem isPrefix_concat_iff {t : Step} :
    before ++ [t] <+: steps ++ [s] ↔ before ++ [t] <+: steps ∨ before = steps ∧ t = s := by
  rw [List.prefix_concat_iff, List.append_singleton_inj, or_comm]

theorem isOriginal_concat :
    IsOriginal (steps ++ [s]) original ↔
      IsOriginal steps original ∨ s = .new ∧ original = made steps := by
  simp only [IsOriginal, isPrefix_concat_iff, or_and_right, exists_or, and_assoc, exists_eq_left]
  rw [eq_comm (a := Step.new)]

theorem copies_concat :
    Copies (steps ++ [s]) token copy ↔
      Copies steps token copy ∨ s = .clone token ∧ copy = made steps := by
  simp only [Copies, isPrefix_concat_iff, or_and_right, exists_or, and_assoc, exists_eq_left]
  rw [eq_comm (a := Step.clone token)]

/-! ### Later steps -/

theorem IsOriginal.mono (h : IsOriginal before token) (hlater : before <+: later) :
    IsOriginal later token := by
  obtain ⟨steps, hbegins, rfl⟩ := h
  exact ⟨steps, hbegins.trans hlater, rfl⟩

theorem Copies.mono (h : Copies before token copy) (hlater : before <+: later) :
    Copies later token copy := by
  obtain ⟨steps, hbegins, rfl⟩ := h
  exact ⟨steps, hbegins.trans hlater, rfl⟩

theorem Descends.mono (h : Descends before token other) (hlater : before <+: later) :
    Descends later token other :=
  Relation.ReflTransGen.mono (fun _ _ (hcopies : Copies before _ _) => hcopies.mono hlater) _ _ h

theorem AreRelated.mono (h : AreRelated before token other) (hlater : before <+: later) :
    AreRelated later token other := by
  obtain ⟨original, horiginal, htoken, hother⟩ := h
  exact ⟨original, horiginal.mono hlater, htoken.mono hlater, hother.mono hlater⟩

/-- A cancelled token stays cancelled. -/
theorem IsCancelled.mono (h : IsCancelled before token) (hlater : before <+: later) :
    IsCancelled later token := by
  obtain ⟨other, hmem, hrelated⟩ := h
  exact ⟨other, hlater.subset hmem, hrelated.mono hlater⟩

/-! ### Tokens that are there -/

/-- The steps speak of tokens that have been made. -/
structure AreKnown (steps : List Step) : Prop where
  original_lt : ∀ {token : Nat}, IsOriginal steps token → token < made steps
  copies_lt : ∀ {token copy : Nat}, Copies steps token copy → token < copy ∧ copy < made steps
  cancel_lt : ∀ {token : Nat}, .cancel token ∈ steps → token < made steps

theorem areKnown_nil : AreKnown [] := ⟨by simp [IsOriginal], by simp [Copies], by simp⟩

theorem made_concat (steps : List Step) (s : Step) :
    made (steps ++ [s]) = made steps + if s.makesToken then 1 else 0 := by
  rw [made_append]
  cases hs : s.makesToken <;> simp [made, hs]

namespace AreKnown

theorem concat (h : AreKnown steps) (hs : ∀ token ∈ s.tokens, token < made steps) :
    AreKnown (steps ++ [s]) := by
  have hmade := made_concat steps s
  constructor
  . intro token htoken
    obtain hold | ⟨rfl, rfl⟩ := isOriginal_concat.1 htoken
    . have := h.original_lt hold
      omega
    . simp [hmade, Step.makesToken]
  . intro token copy hcopies
    obtain hold | ⟨rfl, rfl⟩ := copies_concat.1 hcopies
    . have := h.copies_lt hold
      omega
    . have := hs token (by simp [Step.tokens])
      simp [hmade, Step.makesToken, this]
  . intro token hmem
    have hlt : token < made steps := by
      obtain hold | rfl := (List.mem_append.1 hmem).imp_right List.mem_singleton.1
      . exact h.cancel_lt hold
      . exact hs token (by simp [Step.tokens])
    omega

theorem descends_le (h : AreKnown steps) (hdescends : Descends steps token other) :
    token ≤ other := by
  induction hdescends with
  | refl => exact Nat.le_refl _
  | tail _ hcopies ih => exact Nat.le_trans ih (Nat.le_of_lt (h.copies_lt hcopies).1)

/-- What has not been made is no copy. -/
theorem eq_of_descends (h : AreKnown steps) (hdescends : Descends steps token other)
    (hother : made steps ≤ other) : token = other := by
  cases hdescends with
  | refl => rfl
  | tail _ hcopies => exact absurd (h.copies_lt hcopies).2 (Nat.not_lt.2 hother)

theorem lt_of_areRelated (h : AreKnown steps) (hrelated : AreRelated steps token other) :
    token < made steps ∧ other < made steps := by
  obtain ⟨original, horiginal, htoken, hother⟩ := hrelated
  have hlt := h.original_lt horiginal
  constructor
  . by_contra hge
    have heq := h.eq_of_descends htoken (Nat.not_lt.1 hge)
    omega
  . by_contra hge
    have heq := h.eq_of_descends hother (Nat.not_lt.1 hge)
    omega

/-- What has not been made is related to nothing. -/
theorem not_areRelated_made (h : AreKnown steps) :
    ¬AreRelated steps token (made steps) ∧ ¬AreRelated steps (made steps) token :=
  ⟨fun hrelated => Nat.lt_irrefl _ (h.lt_of_areRelated hrelated).2,
    fun hrelated => Nat.lt_irrefl _ (h.lt_of_areRelated hrelated).1⟩

theorem areRelated_new (h : AreKnown steps) :
    AreRelated (steps ++ [.new]) token other ↔
      AreRelated steps token other ∨ token = made steps ∧ other = made steps := by
  have hcopies : Copies (steps ++ [.new]) = Copies steps := by
    funext token copy
    simp [copies_concat]
  have hdescends : Descends (steps ++ [.new]) = Descends steps :=
    congrArg Relation.ReflTransGen hcopies
  simp only [AreRelated, hdescends, isOriginal_concat, true_and, or_and_right, exists_or,
    exists_eq_left]
  refine or_congr_right ⟨fun ⟨htoken, hother⟩ => ?_, ?_⟩
  . have htoken := h.eq_of_descends htoken (h.descends_le htoken)
    have hother := h.eq_of_descends hother (h.descends_le hother)
    exact ⟨htoken.symm, hother.symm⟩
  . rintro ⟨rfl, rfl⟩
    exact ⟨.refl, .refl⟩

/-- The new copy descends from what its token descends from. -/
theorem descends_clone (h : AreKnown steps) (htoken : token < made steps)
    (horiginal : original < made steps) :
    Descends (steps ++ [.clone token]) original other ↔
      Descends steps original (if other = made steps then token else other) := by
  constructor
  . intro hdescends
    induction hdescends with
    | refl =>
      rw [if_neg (Nat.ne_of_lt horiginal)]
      exact .refl
    | @tail middle copy _ hcopies ih =>
      obtain hcopies | ⟨heq, rfl⟩ := copies_concat.1 hcopies
      . obtain ⟨hlt, hmade⟩ := h.copies_lt hcopies
        rw [if_neg (by omega)] at ih ⊢
        exact .tail ih hcopies
      . cases heq
        rw [if_neg (Nat.ne_of_lt htoken)] at ih
        rwa [if_pos rfl]
  . intro hdescends
    have hlater := hdescends.mono (List.prefix_append steps [.clone token])
    split at hlater
    . next heq => exact .tail hlater (copies_concat.2 (.inr ⟨rfl, heq⟩))
    . exact hlater

theorem areRelated_clone (h : AreKnown steps) (hcopy : copy < made steps) :
    AreRelated (steps ++ [.clone copy]) token other ↔
      AreRelated steps (if token = made steps then copy else token)
        (if other = made steps then copy else other) := by
  have hnew : ∀ o, IsOriginal (steps ++ [.clone copy]) o ↔ IsOriginal steps o := by
    simp [isOriginal_concat]
  simp only [AreRelated, hnew]
  refine exists_congr fun original => and_congr_right fun horiginal => ?_
  have hlt := h.original_lt horiginal
  rw [h.descends_clone hcopy hlt, h.descends_clone hcopy hlt]

end AreKnown

/-- A step that makes no token leaves the families as they are. -/
theorem areRelated_concat (hs : s.makesToken = false) :
    AreRelated (steps ++ [s]) token other ↔ AreRelated steps token other := by
  have hnew : ∀ o, IsOriginal (steps ++ [s]) o ↔ IsOriginal steps o := by
    intro o
    rw [isOriginal_concat, or_iff_left]
    rintro ⟨rfl, _⟩
    simp [Step.makesToken] at hs
  have hcopies : Copies (steps ++ [s]) = Copies steps := by
    funext t c
    rw [eq_iff_iff, copies_concat, or_iff_left]
    rintro ⟨rfl, _⟩
    simp [Step.makesToken] at hs
  have hdescends : Descends (steps ++ [s]) = Descends steps :=
    congrArg Relation.ReflTransGen hcopies
  simp only [AreRelated, hnew, hdescends]

theorem isCancelled_concat (hs : ∀ other, s ≠ .cancel other) :
    IsCancelled (steps ++ [s]) token ↔
      ∃ other, .cancel other ∈ steps ∧ AreRelated (steps ++ [s]) other token := by
  have hmem : ∀ other, Step.cancel other ∈ steps ++ [s] ↔ Step.cancel other ∈ steps := by
    intro other
    simp [(hs other).symm]
  simp only [IsCancelled, hmem]

theorem isCancelled_concat_cancel :
    IsCancelled (steps ++ [.cancel copy]) token ↔
      IsCancelled steps token ∨ AreRelated steps copy token := by
  simp only [IsCancelled, areRelated_concat (s := .cancel copy) rfl, List.mem_append,
    List.mem_singleton, Step.cancel.injEq, or_and_right, exists_or, exists_eq_left]

/-! ### The tokens of a session -/

/-- The tokens are those that the steps leave behind: two have one flag where they are related, and
it is set where one of their family has been cancelled. -/
structure Tracks (steps : List Step) (tokens : CancellationTokens) : Prop extends
    AreKnown steps where
  size_eq : tokens.size = made steps
  flag_lt : ∀ flag ∈ tokens.flagOf, flag < tokens.flags.length
  related_iff : ∀ token < made steps, ∀ other < made steps,
    (tokens.flagOf[token]? = tokens.flagOf[other]? ↔ AreRelated steps token other)
  cancelled_iff : ∀ token < made steps,
    (tokens.isCancelled? token = some true ↔ IsCancelled steps token)

theorem tracks_nil : Tracks [] {} where
  toAreKnown := areKnown_nil
  size_eq := rfl
  flag_lt := by simp
  related_iff := by simp [made]
  cancelled_iff := by simp [made]

namespace Tracks

variable {tokens : CancellationTokens}

theorem flagOf_eq (h : Tracks steps tokens) (htoken : token < made steps) :
    ∃ flag, tokens.flagOf[token]? = some flag ∧ flag < tokens.flags.length := by
  rw [← h.size_eq] at htoken
  exact ⟨_, List.getElem?_eq_getElem htoken, h.flag_lt _ (List.getElem_mem htoken)⟩

theorem isCancelled?_eq (h : Tracks steps tokens) (htoken : token < made steps) :
    ∃ flag, tokens.isCancelled? token = some flag ∧ (flag = true ↔ IsCancelled steps token) := by
  obtain ⟨flag, hflag, hlt⟩ := h.flagOf_eq htoken
  have hsome : tokens.isCancelled? token = some tokens.flags[flag] := by
    simp [CancellationTokens.isCancelled?, hflag, hlt]
  refine ⟨_, hsome, ?_⟩
  rw [← h.cancelled_iff token htoken, hsome, Option.some_inj]

/-- A token that is made anew has a flag of its own. -/
theorem add_flagOf (h : Tracks steps tokens) :
    tokens.add.flagOf[made steps]? = some tokens.flags.length ∧
      ∀ token < made steps, tokens.add.flagOf[token]? = tokens.flagOf[token]? ∧
        tokens.flagOf[token]? ≠ some tokens.flags.length := by
  have hlength : tokens.flagOf.length = made steps := h.size_eq
  constructor
  . rw [← hlength]
    exact List.getElem?_concat_length
  . intro token htoken
    refine ⟨List.getElem?_append_left (hlength ▸ htoken), fun heq => ?_⟩
    exact absurd (h.flag_lt _ (List.mem_of_getElem? heq)) (Nat.lt_irrefl _)

theorem related_iff_new (h : Tracks steps tokens) (htoken : token < made steps + 1)
    (hother : other < made steps + 1) :
    tokens.add.flagOf[token]? = tokens.add.flagOf[other]? ↔
      AreRelated (steps ++ [.new]) token other := by
  obtain ⟨hlast, hold⟩ := h.add_flagOf
  rw [h.areRelated_new]
  obtain htoken | rfl := Nat.lt_succ_iff_lt_or_eq.1 htoken <;>
    obtain hother | rfl := Nat.lt_succ_iff_lt_or_eq.1 hother
  . rw [(hold token htoken).1, (hold other hother).1, h.related_iff token htoken other hother]
    simp [Nat.ne_of_lt htoken]
  . rw [(hold token htoken).1, hlast]
    simp [(hold token htoken).2, h.not_areRelated_made, Nat.ne_of_lt htoken]
  . rw [(hold other hother).1, hlast, eq_comm]
    simp [(hold other hother).2, h.not_areRelated_made, Nat.ne_of_lt hother]
  . simp

theorem cancelled_iff_new (h : Tracks steps tokens) (htoken : token < made steps + 1) :
    tokens.add.isCancelled? token = some true ↔ IsCancelled (steps ++ [.new]) token := by
  obtain ⟨hlast, hold⟩ := h.add_flagOf
  rw [isCancelled_concat (by simp)]
  obtain htoken | rfl := Nat.lt_succ_iff_lt_or_eq.1 htoken
  . have hflags : tokens.add.isCancelled? token = tokens.isCancelled? token := by
      obtain ⟨flag, hflag, hlt⟩ := h.flagOf_eq htoken
      simp only [CancellationTokens.isCancelled?, (hold token htoken).1, hflag, Option.bind_some]
      exact List.getElem?_append_left hlt
    rw [hflags, h.cancelled_iff token htoken]
    simp [IsCancelled, h.areRelated_new, Nat.ne_of_lt htoken]
  . have hflag : tokens.add.isCancelled? (made steps) = some false := by
      simp only [CancellationTokens.isCancelled?, hlast, Option.bind_some]
      exact List.getElem?_concat_length
    rw [hflag]
    simp only [Option.some.injEq, Bool.false_eq_true, false_iff, not_exists, not_and]
    intro other hmem hrelated
    obtain hrelated | ⟨rfl, _⟩ := h.areRelated_new.1 hrelated
    . exact h.not_areRelated_made.1 hrelated
    . exact Nat.lt_irrefl _ (h.cancel_lt hmem)

theorem concat_new (h : Tracks steps tokens) : Tracks (steps ++ [.new]) tokens.add := by
  have hmade : made (steps ++ [.new]) = made steps + 1 := made_concat steps .new
  refine ⟨h.toAreKnown.concat (by simp [Step.tokens]), ?_, ?_, ?_, ?_⟩
  . rw [hmade, ← h.size_eq]
    exact List.length_append
  . intro flag hflag
    have hflags : tokens.add.flags.length = tokens.flags.length + 1 := List.length_append
    obtain hmem | rfl := (List.mem_append.1 hflag).imp_right List.mem_singleton.1
    . have := h.flag_lt flag hmem
      omega
    . omega
  . rw [hmade]
    exact fun token htoken other hother => h.related_iff_new htoken hother
  . rw [hmade]
    exact fun token htoken => h.cancelled_iff_new htoken

/-- A copy has the flag of its token. -/
theorem concat_clone (h : Tracks steps tokens) (htoken : token < made steps) :
    ∃ tokens', tokens.copy? token = some tokens' ∧ Tracks (steps ++ [.clone token]) tokens' := by
  obtain ⟨flag, hflag, hlt⟩ := h.flagOf_eq htoken
  have hmade : made (steps ++ [.clone token]) = made steps + 1 := made_concat steps (.clone token)
  have hlength : tokens.flagOf.length = made steps := h.size_eq
  have hfrom : ∀ t < made steps + 1, (tokens.flagOf ++ [flag])[t]? =
      tokens.flagOf[if t = made steps then token else t]? ∧
        (if t = made steps then token else t) < made steps := by
    intro t ht
    split
    . next heq =>
      rw [heq, ← hlength, List.getElem?_concat_length, hflag]
      exact ⟨rfl, hlength ▸ htoken⟩
    . have hlt : t < made steps := by omega
      exact ⟨List.getElem?_append_left (hlength ▸ hlt), hlt⟩
  refine ⟨_, by rw [CancellationTokens.copy?, hflag]; rfl, ?_, ?_, ?_, ?_, ?_⟩
  . exact h.toAreKnown.concat (by simpa [Step.tokens] using htoken)
  . rw [hmade, ← h.size_eq]
    exact List.length_append
  . intro f hf
    obtain hmem | rfl := (List.mem_append.1 hf).imp_right List.mem_singleton.1
    . exact h.flag_lt f hmem
    . exact hlt
  . rw [hmade]
    intro t ht other hother
    rw [h.areRelated_clone htoken, (hfrom t ht).1, (hfrom other hother).1]
    exact h.related_iff _ (hfrom t ht).2 _ (hfrom other hother).2
  . rw [hmade]
    intro t ht
    obtain ⟨heq, hlt⟩ := hfrom t ht
    have hflags := h.cancelled_iff _ hlt
    simp only [CancellationTokens.isCancelled?, heq] at hflags ⊢
    rw [hflags, isCancelled_concat (by simp), IsCancelled]
    refine exists_congr fun other => and_congr_right fun hmem => ?_
    rw [h.areRelated_clone htoken, if_neg (Nat.ne_of_lt (h.cancel_lt hmem))]

theorem concat_cancel (h : Tracks steps tokens) (htoken : token < made steps) :
    ∃ tokens', tokens.cancel? token = some tokens' ∧ Tracks (steps ++ [.cancel token]) tokens' := by
  obtain ⟨flag, hflag, hlt⟩ := h.flagOf_eq htoken
  have hmade : made (steps ++ [.cancel token]) = made steps := made_concat steps (.cancel token)
  refine ⟨_, by rw [CancellationTokens.cancel?, hflag]; rfl, ?_, ?_, ?_, ?_, ?_⟩
  . exact h.toAreKnown.concat (by simpa [Step.tokens] using htoken)
  . rw [hmade, ← h.size_eq]
    rfl
  . simpa using h.flag_lt
  . rw [hmade]
    intro t ht other hother
    rw [areRelated_concat rfl]
    exact h.related_iff t ht other hother
  . rw [hmade]
    intro t ht
    obtain ⟨other, hother, _⟩ := h.flagOf_eq ht
    have hrelated := h.related_iff token htoken t ht
    rw [hflag, hother, Option.some_inj] at hrelated
    have hcancelled := h.cancelled_iff t ht
    simp only [CancellationTokens.isCancelled?, hother, Option.bind_some] at hcancelled ⊢
    rw [List.getElem?_set, isCancelled_concat_cancel, ← hcancelled, ← hrelated]
    by_cases heq : flag = other
    . simp [heq, heq ▸ hlt]
    . simp [heq]

/-- Other steps change nothing. -/
theorem concat_other (h : Tracks steps tokens) (hs : ∀ token ∈ s.tokens, token < made steps)
    (hmakes : s.makesToken = false) (hcancel : ∀ other, s ≠ .cancel other) :
    Tracks (steps ++ [s]) tokens := by
  have hmade : made (steps ++ [s]) = made steps := by simp [made_concat, hmakes]
  refine ⟨h.toAreKnown.concat hs, hmade ▸ h.size_eq, h.flag_lt, ?_, ?_⟩
  . rw [hmade]
    intro token htoken other hother
    rw [areRelated_concat hmakes]
    exact h.related_iff token htoken other hother
  . rw [hmade]
    intro token htoken
    rw [isCancelled_concat hcancel]
    simp only [areRelated_concat hmakes]
    exact h.cancelled_iff token htoken

theorem step_parse (h : Tracks steps tokens) (text : String) (options : Options)
    {token : Option Nat} (hs : ∀ t ∈ token, t < made steps) :
    (∃ tree, Session.step tokens (.parse text options token) = .ok (tokens, .tree tree) ∧
      Answers steps (.parse text options token) (.tree tree)) ∨
    ∃ fault, Session.step tokens (.parse text options token) = .error (.fault fault) ∧
      Faults steps (.parse text options token) fault := by
  cases token with
  | none =>
    simp only [Session.step, parsed]
    cases hparse : parse (.ofString text) options with
    | ok tree => exact .inl ⟨tree, rfl, .parse (by simp) hparse⟩
    | error fault => exact .inr ⟨fault, rfl, _, _, _, rfl, by simp, hparse⟩
  | some token =>
    obtain ⟨flag, hflag, hiff⟩ := h.isCancelled?_eq (hs token rfl)
    simp only [Session.step, hflag, parsed]
    cases flag with
    | true =>
      refine .inl ⟨.cancelled (.ofString text), ?_, .cancelled (hiff.1 rfl)⟩
      simp only [known, bind, Except.bind, parse_cancelled]
      rfl
    | false =>
      have hnot : ∀ t ∈ some token, ¬IsCancelled steps t := by simpa using hiff
      simp only [known, bind, Except.bind, parse_uncancelled]
      cases hparse : parse (.ofString text) options with
      | ok tree => exact .inl ⟨tree, rfl, .parse hnot hparse⟩
      | error fault => exact .inr ⟨fault, rfl, _, _, _, rfl, hnot, hparse⟩

/-- What a step does: it is answered and leaves the tokens that go with it, or it faults. -/
theorem step (h : Tracks steps tokens) (hs : ∀ token ∈ s.tokens, token < made steps) :
    (∃ tokens' answer, Session.step tokens s = .ok (tokens', answer) ∧
      Tracks (steps ++ [s]) tokens' ∧ Answers steps s answer) ∨
    ∃ fault, Session.step tokens s = .error (.fault fault) ∧ Faults steps s fault := by
  cases s with
  | new => exact .inl ⟨_, _, rfl, h.concat_new, h.size_eq ▸ .new⟩
  | clone token =>
    obtain ⟨tokens', hcopy, htracks⟩ := h.concat_clone (hs token (by simp [Step.tokens]))
    refine .inl ⟨tokens', .token tokens.size, ?_, htracks, h.size_eq ▸ .clone⟩
    simp only [Session.step, hcopy]
    rfl
  | cancel token =>
    obtain ⟨tokens', hcancel, htracks⟩ := h.concat_cancel (hs token (by simp [Step.tokens]))
    refine .inl ⟨tokens', .done, ?_, htracks, .cancel⟩
    simp only [Session.step, hcancel]
    rfl
  | check token =>
    obtain ⟨flag, hflag, hiff⟩ := h.isCancelled?_eq (hs token (by simp [Step.tokens]))
    refine .inl ⟨tokens, .flag flag, ?_, h.concat_other hs rfl (by simp), .check hiff⟩
    simp only [Session.step, hflag]
    rfl
  | parse text options token =>
    have htracks := h.concat_other hs rfl (by simp)
    have hknown : ∀ t ∈ token, t < made steps := by
      rintro t rfl
      exact hs t (by simp [Step.tokens])
    obtain ⟨tree, hstep, hanswers⟩ | ⟨fault, hstep, hfaults⟩ :=
      h.step_parse text options hknown
    . exact .inl ⟨tokens, .tree tree, hstep, htracks, hanswers⟩
    . exact .inr ⟨fault, hstep, hfaults⟩

/-- What the steps after `before` do, by what each of them does. -/
theorem run (h : Tracks before tokens) (hscoped : isScoped (made before) steps) :
    (∃ tokens' answers, Session.run tokens steps = .ok (tokens', answers) ∧
      answers.length = steps.length ∧ ∀ n s, steps[n]? = some s →
        ∃ answer, answers[n]? = some answer ∧ Answers (before ++ steps.take n) s answer) ∨
    ∃ n s fault tokens' answers, steps[n]? = some s ∧
      Session.run tokens (steps.take n) = .ok (tokens', answers) ∧
      Faults (before ++ steps.take n) s fault ∧
        Session.run tokens steps = .error (.fault fault) := by
  induction steps generalizing before tokens with
  | nil => exact .inl ⟨tokens, [], rfl, rfl, by simp⟩
  | cons s steps ih =>
    simp only [isScoped, Bool.and_eq_true, List.all_eq_true, decide_eq_true_eq] at hscoped
    obtain ⟨hs, hscoped⟩ := hscoped
    obtain ⟨next, answer, hstep, hnext, hanswer⟩ | ⟨fault, hstep, hfaults⟩ := h.step hs
    . rw [← made_append] at hscoped
      obtain ⟨tokens', answers, hrun, hlength, hanswers⟩ |
        ⟨n, s', fault, tokens', answers, hs', hrun, hfaults, herror⟩ := ih hnext hscoped
      . refine .inl ⟨tokens', answer :: answers, ?_, by simp [hlength], ?_⟩
        . simp only [Session.run, hstep, bind, Except.bind, hrun]
          rfl
        . intro n s' hs'
          cases n with
          | zero =>
            obtain rfl : s = s' := by simpa using hs'
            exact ⟨answer, rfl, by simpa using hanswer⟩
          | succ n =>
            obtain ⟨answer', hget, hanswer'⟩ := hanswers n s' (by simpa using hs')
            exact ⟨answer', by simpa using hget, by simpa using hanswer'⟩
      . refine .inr ⟨n + 1, s', fault, tokens', answer :: answers, by simpa using hs', ?_, ?_, ?_⟩
        . simp only [List.take_succ_cons, Session.run, hstep, bind, Except.bind, hrun]
          rfl
        . simpa using hfaults
        . simp only [Session.run, hstep, bind, Except.bind, herror]
    . refine .inr ⟨0, s, fault, tokens, [], rfl, rfl, by simpa using hfaults, ?_⟩
      simp only [Session.run, hstep, bind, Except.bind]

end Tracks

/-! ### Main results -/

/-- A session in which every step names tokens that are there is answered step by step, unless a
parse has no result, which it has not without a token either. A token that has been cancelled stays
so. -/
theorem run_answers (h : isScoped 0 steps) :
    (∃ tokens answers, run {} steps = .ok (tokens, answers) ∧ answers.length = steps.length ∧
      (∀ n s, steps[n]? = some s →
        ∃ answer, answers[n]? = some answer ∧ Answers (steps.take n) s answer) ∧
      ∀ n m token : Nat, n ≤ m → steps[n]? = some (Step.check token) →
        steps[m]? = some (Step.check token) → answers[n]? = some (Answer.flag true) →
          answers[m]? = some (Answer.flag true)) ∨
    ∃ n s fault tokens answers, steps[n]? = some s ∧ run {} (steps.take n) = .ok (tokens, answers) ∧
      Faults (steps.take n) s fault ∧ run {} steps = .error (.fault fault) := by
  obtain ⟨tokens, answers, hrun, hlength, hanswers⟩ | hfaults := tracks_nil.run h
  . refine .inl ⟨tokens, answers, hrun, hlength, hanswers, ?_⟩
    intro n m token hle hn hm hflag
    obtain ⟨_, hget, hanswer⟩ := hanswers n _ hn
    obtain ⟨_, hget', hanswer'⟩ := hanswers m _ hm
    rw [hflag] at hget
    cases hget
    cases hanswer with
    | check hiff =>
      cases hanswer' with
      | check hiff' =>
        have hcancelled : IsCancelled (steps.take m) token :=
          (hiff.1 rfl).mono (List.take_prefix_take_left hle)
        rw [hget', hiff'.2 hcancelled]
  . exact .inr hfaults

/-- A copy is cancelled, and with it the token that it was made of. -/
theorem run_answers_copy :
    ∃ steps, steps = [.new, .clone 0, .cancel 1, .check 0, .parse "a" {} (some 0)] ∧
      isScoped 0 steps ∧
      ∃ tokens answers, run {} steps = .ok (tokens, answers) ∧ answers.length = 5 ∧
        (∃ answer, answers[3]? = some answer ∧ Answers (steps.take 3) (.check 0) answer) ∧
        ∃ answer, answers[4]? = some answer ∧
          Answers (steps.take 4) (.parse "a" {} (some 0)) answer := by
  have hscoped : isScoped 0 [.new, .clone 0, .cancel 1, .check 0, .parse "a" {} (some 0)] := by
    decide
  refine ⟨_, rfl, hscoped, ?_⟩
  obtain ⟨tokens, answers, hrun, hlength, hanswers, _⟩ | ⟨_, _, fault, _, _, _, _, _, herror⟩ :=
    run_answers hscoped
  . exact ⟨tokens, answers, hrun, hlength, hanswers 3 _ rfl, hanswers 4 _ rfl⟩
  . have hok : (run {} [.new, .clone 0, .cancel 1, .check 0, .parse "a" {} (some 0)]).isOk := by
      decide +kernel
    simp [herror, Except.isOk, Except.toBool] at hok

end Session
end ShellTree
