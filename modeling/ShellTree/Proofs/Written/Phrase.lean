import ShellTree.Node.Basic
import ShellTree.Proofs.Text

/-!
This module contains phrases: syntax trees that hold the texts of their leaves and no offsets. A
phrase that is written from an offset on has a text, with single spaces between its tokens, and is a
node of a tree. `Phrase.Written` says that a source has the texts of phrases at an offset.
-/

namespace ShellTree

theorem Span.eq_of_stop_eq {s t : Span} (hstart : s.start = t.start) (hstop : s.stop = t.stop) :
    s = t := by
  cases s
  cases t
  simp_all

/-- A token that is glued stands right behind what comes before it. -/
inductive Phrase where
  | leaf (kind : NodeKind) (text : String) (glued : Bool)
  | node (kind : NodeKind) (parts : List Phrase)

namespace Phrase

/-- A keyword, operator or delimiter behind a space. -/
def token (text : String) : Phrase := .leaf (.token text) text false

def word (text : String) : Phrase := .leaf .word text false

/-- What stands before a token. There is no space where the text begins. -/
def gap (glued : Bool) (place : Nat) : List Char := if glued || place == 0 then [] else [' ']

theorem gap_eq (glued : Bool) (place : Nat) : gap glued place = [] ∨ gap glued place = [' '] := by
  unfold gap
  split
  . exact .inl rfl
  . exact .inr rfl

mutual

/-- The text of a phrase from the place on. -/
def spelling (place : Nat) : Phrase → List Char
  | leaf _ text glued => gap glued place ++ text.toList
  | node _ parts => spellingAll place parts

def spellingAll (place : Nat) : List Phrase → List Char
  | [] => []
  | p :: ps => spelling place p ++ spellingAll (place + byteLength (spelling place p)) ps

end

mutual

/-- The first token of the phrase is glued. -/
def isGlued : Phrase → Bool
  | leaf _ _ glued => glued
  | node _ parts => isGluedAll parts

def isGluedAll : List Phrase → Bool
  | [] => true
  | p :: _ => isGlued p

end

/-- Where the phrase begins that is written from the place on. -/
def start (place : Nat) (p : Phrase) : Nat := place + byteLength (gap p.isGlued place)

def stop (place : Nat) (p : Phrase) : Nat := place + byteLength (p.spelling place)

def stopAll (place : Nat) (ps : List Phrase) : Nat := place + byteLength (spellingAll place ps)

def span (place : Nat) (p : Phrase) : Span :=
  .ofWidth (p.start place) (p.stop place - p.start place)

mutual

/-- The node of a phrase that is written from the place on. -/
def nodeAt (place : Nat) : Phrase → Node
  | leaf kind text glued => .leaf kind (span place (leaf kind text glued))
  | node kind parts => ⟨kind, span place (node kind parts), nodesAt place parts⟩

def nodesAt (place : Nat) : List Phrase → List Node
  | [] => []
  | p :: ps => nodeAt place p :: nodesAt (p.stop place) ps

end

variable {place : Nat} {p q : Phrase} {ps qs : List Phrase}

@[simp]
theorem spelling_node (kind : NodeKind) : (node kind ps).spelling place = spellingAll place ps := by
  rw [spelling]

@[simp]
theorem spellingAll_nil : spellingAll place [] = [] := by rw [spellingAll]

theorem spellingAll_cons :
    spellingAll place (p :: ps) = p.spelling place ++ spellingAll (p.stop place) ps := by
  rw [spellingAll]
  rfl

@[simp]
theorem stop_node (kind : NodeKind) : (node kind ps).stop place = stopAll place ps := by
  rw [stop, spelling_node, stopAll]

@[simp]
theorem stopAll_nil : stopAll place [] = place := by rw [stopAll, spellingAll_nil]; rfl

@[simp]
theorem stopAll_cons : stopAll place (p :: ps) = stopAll (p.stop place) ps := by
  rw [stopAll, spellingAll_cons, byteLength_append, stopAll, stop, Nat.add_assoc]

@[simp]
theorem nodesAt_nil : nodesAt place [] = [] := by rw [nodesAt]

@[simp]
theorem nodesAt_cons :
    nodesAt place (p :: ps) = p.nodeAt place :: nodesAt (p.stop place) ps := by rw [nodesAt]

@[simp]
theorem stopAll_append : stopAll place (ps ++ qs) = stopAll (stopAll place ps) qs := by
  induction ps generalizing place with
  | nil => simp
  | cons p ps ih => simp [ih]

@[simp]
theorem nodesAt_append :
    nodesAt place (ps ++ qs) = nodesAt place ps ++ nodesAt (stopAll place ps) qs := by
  induction ps generalizing place with
  | nil => simp
  | cons p ps ih => simp [ih]

theorem spellingAll_append :
    spellingAll place (ps ++ qs) = spellingAll place ps ++ spellingAll (stopAll place ps) qs := by
  induction ps generalizing place with
  | nil => simp
  | cons p ps ih => simp [spellingAll_cons, ih]

theorem le_stop (place : Nat) (p : Phrase) : place ≤ p.stop place := Nat.le_add_right _ _

theorem le_stopAll (place : Nat) (ps : List Phrase) : place ≤ stopAll place ps :=
  Nat.le_add_right _ _

theorem lt_stop_leaf {kind : NodeKind} {text : String} {glued : Bool} (htext : text.toList ≠ []) :
    place < (leaf kind text glued).stop place := by
  have := byteLength_pos htext
  rw [stop, spelling, byteLength_append]
  omega

theorem spelling_spaced (kind : NodeKind) (text : String) (hplace : place ≠ 0) :
    (leaf kind text false).spelling place = ' ' :: text.toList := by
  simp [spelling, gap, hplace]

theorem stop_spaced (kind : NodeKind) (text : String) (hplace : place ≠ 0) :
    (leaf kind text false).stop place = place + 1 + text.utf8ByteSize := by
  rw [stop, spelling_spaced kind text hplace, byteLength_cons, utf8ByteSize_eq_byteLength,
    Nat.add_assoc]
  rfl

/-- The phrase is written behind a space and takes something. -/
structure IsSpaced (p : Phrase) : Prop where
  spaced : p.isGlued = false
  lt_stop : ∀ place, place < p.stop place

namespace IsSpaced

theorem leaf {kind : NodeKind} {text : String} (htext : text.toList ≠ []) :
    IsSpaced (.leaf kind text false) := ⟨rfl, fun _ => lt_stop_leaf htext⟩

theorem node {kind : NodeKind} (hp : p.IsSpaced) (ps : List Phrase) :
    IsSpaced (.node kind (p :: ps)) where
  spaced := hp.spaced
  lt_stop place := by
    rw [stop_node, stopAll_cons]
    exact Nat.lt_of_lt_of_le (hp.lt_stop place) (le_stopAll _ ps)

theorem stop_ne_zero (hp : p.IsSpaced) : p.stop place ≠ 0 :=
  Nat.ne_of_gt (Nat.zero_lt_of_lt (hp.lt_stop place))

end IsSpaced

/-! ### Nodes -/

mutual

theorem start_le_stop (place : Nat) : (p : Phrase) → p.start place ≤ p.stop place
  | leaf kind text glued => by
    rw [start, stop, isGlued, spelling, byteLength_append]
    omega
  | node kind parts => by
    rw [stop_node, start, isGlued]
    exact start_le_stopAll place parts

theorem start_le_stopAll (place : Nat) :
    (ps : List Phrase) → place + byteLength (gap (isGluedAll ps) place) ≤ stopAll place ps
  | [] => by simp [isGluedAll, gap]
  | p :: ps => by
    rw [isGluedAll, stopAll_cons]
    exact Nat.le_trans (start_le_stop place p) (le_stopAll _ ps)

end

@[simp]
theorem span_start : (p.span place).start = p.start place := rfl

@[simp]
theorem span_stop : (p.span place).stop = p.stop place :=
  Nat.add_sub_cancel' (start_le_stop place p)

@[simp]
theorem nodeAt_span : (p.nodeAt place).span = p.span place := by
  cases p with
  | leaf =>
    rw [nodeAt]
    rfl
  | node => rw [nodeAt]

theorem nodeAt_leaf (kind : NodeKind) (text : String) (glued : Bool) :
    (leaf kind text glued).nodeAt place =
      .leaf kind (.ofWidth (place + byteLength (gap glued place)) (byteLength text.toList)) := by
  rw [nodeAt, span, start, stop, isGlued, spelling, byteLength_append]
  congr 2
  omega

theorem nodeAt_spaced (kind : NodeKind) (text : String) (hplace : place ≠ 0) :
    (leaf kind text false).nodeAt place =
      .leaf kind (.ofWidth (place + 1) text.utf8ByteSize) := by
  simp [nodeAt_leaf, gap, hplace, utf8ByteSize_eq_byteLength, show ' '.utf8Size = 1 from rfl]

theorem nodeAt_node (kind : NodeKind) :
    (node kind ps).nodeAt place = ⟨kind, (node kind ps).span place, nodesAt place ps⟩ := by
  rw [nodeAt]

/-- The span of a node goes from its first child to its last. -/
theorem span_node (kind : NodeKind) :
    (node kind (p :: ps)).span place =
      .ofWidth (p.start place) (stopAll (p.stop place) ps - p.start place) := by
  rw [span, stop_node, stopAll_cons, start, isGlued, isGluedAll]
  rfl

theorem getLast?_nodesAt (place : Nat) (hps : ps ≠ []) :
    ∃ last, (nodesAt place ps).getLast? = some last ∧ last.span.stop = stopAll place ps := by
  induction ps generalizing place with
  | nil => contradiction
  | cons p ps ih =>
    cases ps with
    | nil => exact ⟨p.nodeAt place, by simp, by simp⟩
    | cons q ps =>
      obtain ⟨last, hlast, hstop⟩ := @ih (p.stop place) (List.cons_ne_nil q ps)
      refine ⟨last, ?_, by rw [stopAll_cons, hstop]⟩
      rw [nodesAt_cons, List.getLast?_cons, hlast]
      rfl

mutual

theorem exists_spelling_eq (place : Nat) :
    (p : Phrase) → ∃ cs, p.spelling place = gap p.isGlued place ++ cs
  | leaf _ text _ => ⟨text.toList, by rw [spelling, isGlued]⟩
  | node _ parts => by
    rw [spelling_node, isGlued]
    exact exists_spellingAll_eq place parts

theorem exists_spellingAll_eq (place : Nat) :
    (ps : List Phrase) → ∃ cs, spellingAll place ps = gap (isGluedAll ps) place ++ cs
  | [] => ⟨[], rfl⟩
  | p :: ps => by
    obtain ⟨cs, hcs⟩ := exists_spelling_eq place p
    refine ⟨cs ++ spellingAll (p.stop place) ps, ?_⟩
    rw [spellingAll_cons, hcs, isGluedAll, List.append_assoc]

end

/-! ### Phrases in a source -/

/-- The characters of phrases that are written from the place on, and of what comes after them. -/
def following (place : Nat) (ps : List Phrase) (rest : List Char) : List Char :=
  spellingAll place ps ++ rest

def Written (src : Source) (place : Nat) (ps : List Phrase) (rest : List Char) : Prop :=
  src.tail? place = some (following place ps rest)

/-- The script of the phrases. -/
def text (ps : List Phrase) (rest : List Char) : String := String.ofList (following 0 ps rest)

theorem written_text (ps : List Phrase) (rest : List Char) :
    Written (.ofString (text ps rest)) 0 ps rest := by
  rw [Written, Source.tail?_eq, Source.ofString, text, String.toList_ofList]
  rw [tailAt?]

variable {src : Source} {rest : List Char}

theorem following_cons :
    following place (p :: ps) rest = p.spelling place ++ following (p.stop place) ps rest := by
  rw [following, spellingAll_cons, List.append_assoc, following]

theorem following_append :
    following place (ps ++ qs) rest =
      spellingAll place ps ++ following (stopAll place ps) qs rest := by
  rw [following, spellingAll_append, List.append_assoc, following]

theorem following_node (kind : NodeKind) (parts : List Phrase) :
    following place (node kind parts :: ps) rest = following place (parts ++ ps) rest := by
  rw [following_append, following_cons, spelling_node, stop_node]

namespace Written

theorem drop (h : Written src place (ps ++ qs) rest) : Written src (stopAll place ps) qs rest := by
  unfold Written at h ⊢
  rw [following_append, Source.tail?_eq_some_iff] at h
  exact Source.tail?_eq_some_iff.2 ((Source.spells_append _).1 h).2

theorem tail (h : Written src place (p :: ps) rest) : Written src (p.stop place) ps rest := by
  rw [← List.singleton_append] at h
  simpa using h.drop

theorem parts {kind : NodeKind} {parts : List Phrase}
    (h : Written src place (.node kind parts :: ps) rest) :
    Written src place (parts ++ ps) rest := by
  rwa [Written, following_node] at h

theorem after (h : Written src place ps rest) : src.tail? (stopAll place ps) = some rest := by
  rw [← List.append_nil ps] at h
  simpa [Written, following] using h.drop

theorem stopAll_le_size (h : Written src place ps rest) : stopAll place ps ≤ src.size :=
  (Source.tail?_eq_some_iff.1 h.after).le

theorem le_size (h : Written src place ps rest) : place ≤ src.size :=
  Nat.le_trans (le_stopAll place ps) h.stopAll_le_size

end Written

end Phrase

end ShellTree
