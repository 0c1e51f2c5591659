import ShellTree.Source

/-!
This module contains the connection between the offsets of a source and its characters.
`Source.Spells` says which characters stand between two offsets; the accessors of a source are
described through it.
-/

namespace ShellTree

theorem utf8ByteSize_ofList (cs : List Char) : (String.ofList cs).utf8ByteSize = byteLength cs := by
  induction cs with
  | nil => simp
  | cons c cs ih =>
    rw [String.ofList_cons]
    simp [ih]

theorem utf8ByteSize_eq_byteLength (text : String) :
    text.utf8ByteSize = byteLength text.toList := by
  rw [← utf8ByteSize_ofList, String.ofList_toList]

theorem byteLength_pos {cs : List Char} (h : cs ≠ []) : 0 < byteLength cs := by
  cases cs with
  | nil => contradiction
  | cons c cs =>
    have := c.utf8Size_pos
    simp only [byteLength_cons]
    omega

theorem exists_split_of_append_eq {as bs cs ds : List Char} (h : as ++ cs = bs ++ ds)
    (hlen : byteLength as ≤ byteLength bs) : ∃ es, bs = as ++ es ∧ cs = es ++ ds := by
  induction as generalizing bs with
  | nil => exact ⟨bs, rfl, h⟩
  | cons a as ih =>
    cases bs with
    | nil =>
      have := a.utf8Size_pos
      simp only [byteLength_nil, byteLength_cons] at hlen
      omega
    | cons b bs =>
      simp only [List.cons_append, List.cons.injEq] at h
      obtain ⟨rfl, h⟩ := h
      simp only [byteLength_cons] at hlen
      obtain ⟨es, rfl, rfl⟩ := ih h (by omega)
      exact ⟨es, rfl, rfl⟩

theorem eq_of_append_eq_append {as bs cs ds : List Char} (h : as ++ cs = bs ++ ds)
    (hlen : byteLength as = byteLength bs) : as = bs ∧ cs = ds := by
  obtain ⟨es, rfl, rfl⟩ := exists_split_of_append_eq h (Nat.le_of_eq hlen)
  cases es with
  | nil => simp
  | cons e es =>
    have := byteLength_pos (List.cons_ne_nil e es)
    rw [byteLength_append] at hlen
    omega

theorem exists_succ_of_utf8Size (c : Char) (n : Nat) : ∃ m, c.utf8Size + n = m + 1 :=
  have := c.utf8Size_pos
  ⟨_, (Nat.succ_pred_eq_of_pos (by omega)).symm⟩

theorem tailAt?_append (before after : List Char) :
    tailAt? (before ++ after) (byteLength before) = some after := by
  induction before with
  | nil => cases after <;> simp [tailAt?]
  | cons c cs ih =>
    have := c.utf8Size_pos
    simp only [List.cons_append, byteLength_cons]
    obtain ⟨n, hn⟩ := exists_succ_of_utf8Size c (byteLength cs)
    rw [hn]
    simp only [tailAt?]
    rw [if_pos (by omega)]
    have : n + 1 - c.utf8Size = byteLength cs := by omega
    rw [this, ih]

theorem tailAt?_eq_some {cs after : List Char} {n : Nat} (h : tailAt? cs n = some after) :
    ∃ before, cs = before ++ after ∧ byteLength before = n := by
  induction cs generalizing n with
  | nil =>
    cases n with
    | zero =>
      simp only [tailAt?, Option.some.injEq] at h
      exact ⟨[], by simp [h], rfl⟩
    | succ n => simp [tailAt?] at h
  | cons c cs ih =>
    cases n with
    | zero =>
      simp only [tailAt?, Option.some.injEq] at h
      exact ⟨[], by simp [h], rfl⟩
    | succ n =>
      simp only [tailAt?] at h
      split at h
      . obtain ⟨before, hcs, hlen⟩ := ih h
        refine ⟨c :: before, by simp [hcs], ?_⟩
        simp only [byteLength_cons]
        omega
      . simp at h

theorem headAt?_append (taken rest : List Char) :
    headAt? (taken ++ rest) (byteLength taken) = some taken := by
  induction taken with
  | nil => simp [headAt?]
  | cons c cs ih =>
    have := c.utf8Size_pos
    simp only [List.cons_append, byteLength_cons]
    obtain ⟨n, hn⟩ := exists_succ_of_utf8Size c (byteLength cs)
    rw [hn]
    simp only [headAt?]
    rw [if_pos (by omega)]
    have : n + 1 - c.utf8Size = byteLength cs := by omega
    rw [this, ih]
    rfl

namespace Source

/-- The characters that stand between two offsets. -/
def Spells (src : Source) (start stop : Nat) (cs : List Char) : Prop :=
  ∃ before after,
    src.text.toList = before ++ cs ++ after ∧
      byteLength before = start ∧ start + byteLength cs = stop

def Boundary (src : Source) (offset : Nat) : Prop := src.Spells offset offset []

variable {src : Source}

theorem size_eq_byteLength (src : Source) : src.size = byteLength src.text.toList :=
  utf8ByteSize_eq_byteLength src.text

theorem Spells.le {start stop : Nat} {cs : List Char} (h : src.Spells start stop cs) :
    start ≤ stop := by
  obtain ⟨_, _, _, _, hlen⟩ := h
  omega

theorem Spells.lt {start stop : Nat} {cs : List Char} (h : src.Spells start stop cs)
    (hcs : cs ≠ []) : start < stop := by
  obtain ⟨_, _, _, _, hlen⟩ := h
  have := byteLength_pos hcs
  omega

theorem Spells.stop_le_size {start stop : Nat} {cs : List Char} (h : src.Spells start stop cs) :
    stop ≤ src.size := by
  obtain ⟨before, after, htext, hstart, hstop⟩ := h
  rw [size_eq_byteLength, htext]
  simp only [byteLength_append]
  omega

theorem Spells.left {start stop : Nat} {cs : List Char} (h : src.Spells start stop cs) :
    src.Boundary start := by
  obtain ⟨before, after, htext, hstart, hstop⟩ := h
  exact ⟨before, cs ++ after, by simp [htext], hstart, by simp⟩

theorem Spells.right {start stop : Nat} {cs : List Char} (h : src.Spells start stop cs) :
    src.Boundary stop := by
  obtain ⟨before, after, htext, hstart, hstop⟩ := h
  exact ⟨before ++ cs, after, by simp [htext], by simp [hstart, hstop], by simp⟩

theorem Boundary.le_size {offset : Nat} (h : src.Boundary offset) : offset ≤ src.size :=
  Spells.stop_le_size h

theorem boundary_zero : src.Boundary 0 := ⟨[], src.text.toList, by simp, rfl, rfl⟩

theorem spells_all : src.Spells 0 src.size src.text.toList :=
  ⟨[], [], by simp, rfl, by simp [size_eq_byteLength]⟩

theorem boundary_size : src.Boundary src.size := spells_all.right

theorem Spells.unique {start stop : Nat} {cs ds : List Char} (h : src.Spells start stop cs)
    (h' : src.Spells start stop ds) : cs = ds := by
  obtain ⟨before, after, htext, hstart, hstop⟩ := h
  obtain ⟨before', after', htext', hstart', hstop'⟩ := h'
  rw [htext, List.append_assoc, List.append_assoc] at htext'
  have h := (eq_of_append_eq_append htext' (by omega)).2
  exact (eq_of_append_eq_append h (by omega)).1

theorem Spells.head_eq {start stop stop' : Nat} {c d : Char} {cs ds : List Char}
    (h : src.Spells start stop (c :: cs)) (h' : src.Spells start stop' (d :: ds)) : c = d := by
  obtain ⟨before, after, htext, hstart, _⟩ := h
  obtain ⟨before', after', htext', hstart', _⟩ := h'
  rw [htext, List.append_assoc, List.append_assoc] at htext'
  have hrest := (eq_of_append_eq_append htext' (by omega)).2
  simp only [List.cons_append, List.cons.injEq] at hrest
  exact hrest.1

theorem spells_append {start stop : Nat} (cs : List Char) {ds : List Char} :
    src.Spells start stop (cs ++ ds) ↔
      src.Spells start (start + byteLength cs) cs ∧
        src.Spells (start + byteLength cs) stop ds := by
  constructor
  . rintro ⟨before, after, htext, hstart, hstop⟩
    simp only [byteLength_append] at hstop
    refine ⟨⟨before, ds ++ after, by simp [htext], hstart, rfl⟩, ?_⟩
    exact ⟨before ++ cs, after, by simp [htext], by simp [hstart], by omega⟩
  . rintro ⟨⟨before, after, htext, hstart, _⟩, before', after', htext', hstart', hstop'⟩
    have h : before ++ cs = before' ∧ after = ds ++ after' := by
      apply eq_of_append_eq_append
      . rw [← htext, htext', List.append_assoc]
      . simp only [byteLength_append]
        omega
    obtain ⟨rfl, rfl⟩ := h
    refine ⟨before, after', by simp [htext], hstart, ?_⟩
    simp only [byteLength_append]
    omega

theorem Spells.append {start middle stop : Nat} {cs ds : List Char}
    (h : src.Spells start middle cs) (h' : src.Spells middle stop ds) :
    src.Spells start stop (cs ++ ds) := by
  have hmiddle : start + byteLength cs = middle := by
    obtain ⟨_, _, _, _, hlen⟩ := h
    exact hlen
  subst hmiddle
  exact (spells_append cs).2 ⟨h, h'⟩

theorem Spells.stop_eq {start stop : Nat} {cs : List Char} (h : src.Spells start stop cs) :
    stop = start + byteLength cs := by
  obtain ⟨_, _, _, _, hlen⟩ := h
  exact hlen.symm

theorem Spells.trim {start stop : Nat} {cs : List Char} (h : src.Spells start stop cs)
    (taken : List Char) (htaken : taken <+: cs) :
    src.Spells start (start + byteLength taken) taken := by
  obtain ⟨rest, rfl⟩ := htaken
  exact ((spells_append taken).1 h).1

theorem Spells.eq_append {start stop : Nat} {cs taken rest : List Char}
    (h : src.Spells start stop cs) (htaken : taken <+: cs)
    (hrest : src.Spells (start + byteLength taken) stop rest) : cs = taken ++ rest :=
  h.unique ((h.trim taken htaken).append hrest)

theorem tail?_eq_some_iff {offset : Nat} {cs : List Char} :
    src.tail? offset = some cs ↔ src.Spells offset src.size cs := by
  rw [tail?_eq]
  constructor
  . intro h
    obtain ⟨before, htext, hlen⟩ := tailAt?_eq_some h
    refine ⟨before, [], by simp [htext], hlen, ?_⟩
    rw [size_eq_byteLength, htext, byteLength_append, hlen]
  . rintro ⟨before, after, htext, hstart, hstop⟩
    have hafter : after = [] := by
      rw [size_eq_byteLength, htext] at hstop
      simp only [byteLength_append] at hstop
      cases after with
      | nil => rfl
      | cons c after =>
        have := byteLength_pos (List.cons_ne_nil c after)
        omega
    subst hafter
    rw [List.append_nil] at htext
    rw [htext, ← hstart, tailAt?_append]

theorem Boundary.exists_tail? {offset : Nat} (h : src.Boundary offset) :
    ∃ cs, src.tail? offset = some cs ∧ src.Spells offset src.size cs := by
  obtain ⟨before, after, htext, hstart, _⟩ := h
  have hspells : src.Spells offset src.size after := by
    refine ⟨before, [], by simp [htext], hstart, ?_⟩
    rw [size_eq_byteLength, htext]
    simp [hstart]
  exact ⟨after, tail?_eq_some_iff.2 hspells, hspells⟩

theorem Boundary.of_tail? {offset : Nat} {cs : List Char} (h : src.tail? offset = some cs) :
    src.Boundary offset := (tail?_eq_some_iff.1 h).left

theorem Boundary.exists_spells {start stop : Nat} (h : src.Boundary start)
    (h' : src.Boundary stop) (hle : start ≤ stop) : ∃ cs, src.Spells start stop cs := by
  obtain ⟨before, after, htext, hstart, _⟩ := h
  obtain ⟨before', after', htext', hstart', _⟩ := h'
  simp only [List.append_nil] at htext htext'
  obtain ⟨cs, rfl, rfl⟩ := exists_split_of_append_eq (htext.symm.trans htext') (by omega)
  refine ⟨cs, before, after', by simp [htext], hstart, ?_⟩
  simp only [byteLength_append] at hstart'
  omega

theorem Spells.slice? {start stop : Nat} {cs : List Char} (h : src.Spells start stop cs) :
    src.slice? start stop = some (String.ofList cs) := by
  obtain ⟨rest, htail, hrest⟩ := h.left.exists_tail?
  have hle := h.le
  obtain ⟨before, after, htext, hstart, hstop⟩ := h
  obtain ⟨before', after', htext', hstart', hstop'⟩ := hrest
  rw [htext, List.append_assoc, List.append_assoc] at htext'
  have hafter' : after' = [] := by
    have := size_eq_byteLength src
    rw [htext] at this
    have hbytes := congrArg byteLength htext'
    simp only [byteLength_append] at this hbytes
    cases after' with
    | nil => rfl
    | cons c after' =>
      have := byteLength_pos (List.cons_ne_nil c after')
      omega
  subst hafter'
  have hcs := (eq_of_append_eq_append htext' (by omega)).2
  rw [List.append_nil] at hcs
  unfold Source.slice?
  rw [htail]
  simp only [Option.bind_eq_bind, Option.bind_some, if_pos hle]
  rw [← hcs, show stop - start = byteLength cs by omega, headAt?_append]
  rfl

theorem Spells.textOf?_eq {span : Span} {text : String}
    (h : src.Spells span.start span.stop text.toList) : src.textOf? span = some text := by
  unfold Source.textOf?
  rw [h.slice?, String.ofList_toList]

end Source

end ShellTree
