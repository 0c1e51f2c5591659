import ShellTree.Proofs.Program

/-!
This module contains where reports stand. The line and the column of a report are stated over the
bytes of the text alone: the line counts the line feeds before the offset, the column the bytes from
the start of its line on.
-/

namespace ShellTree
namespace Source

/-- The text in UTF-8. -/
def bytes (src : Source) : List UInt8 := src.text.toUTF8.data.toList

def lineFeed : UInt8 := 10

/-- The line of `offset` begins at `lineStart`: at the start of the text or right behind a line
feed, with none from there up to the offset. -/
structure IsLineStart (src : Source) (offset lineStart : Nat) : Prop where
  le : lineStart ≤ offset
  begins : lineStart = 0 ∨ src.bytes[lineStart - 1]? = some lineFeed
  clear : ∀ place, lineStart ≤ place → place < offset → src.bytes[place]? ≠ some lineFeed

end Source

open Source

/-- No byte of a longer character looks like a line feed. -/
theorem lineFeed_mem_utf8EncodeChar {c : Char} : lineFeed ∈ String.utf8EncodeChar c ↔ c = '\n' := by
  have hlarge : ∀ {n : Nat}, 128 ≤ n → n < 256 → lineFeed ≠ UInt8.ofNat n := by
    intro n hle hlt heq
    have := congrArg UInt8.toNat heq
    simp only [lineFeed, UInt8.toNat_ofNat', Nat.mod_eq_of_lt hlt, UInt8.reduceToNat] at this
    omega
  have hnumber : c = '\n' ↔ c.val.toNat = 10 := by
    rw [← Char.val_inj, ← UInt32.toNat_inj]
    rfl
  rw [hnumber]
  unfold String.utf8EncodeChar
  dsimp only
  split
  . next hle =>
    rw [List.mem_singleton, ← UInt8.toNat_inj, UInt8.toNat_ofNat', Nat.mod_eq_of_lt (by omega)]
    exact eq_comm
  -- all bytes of a longer character are at least 128
  . next hgt =>
    refine iff_of_false ?_ (by omega)
    split
    . simp only [List.mem_cons, List.not_mem_nil, or_false, not_or]
      exact ⟨hlarge (by omega) (by omega), hlarge (by omega) (by omega)⟩
    . split
      . simp only [List.mem_cons, List.not_mem_nil, or_false, not_or]
        exact ⟨hlarge (by omega) (by omega), hlarge (by omega) (by omega),
          hlarge (by omega) (by omega)⟩
      . simp only [List.mem_cons, List.not_mem_nil, or_false, not_or]
        exact ⟨hlarge (by omega) (by omega), hlarge (by omega) (by omega),
          hlarge (by omega) (by omega), hlarge (by omega) (by omega)⟩

theorem utf8EncodeChar_lineFeed : String.utf8EncodeChar '\n' = [lineFeed] := by decide

namespace Source

variable {src : Source} {offset : Nat} {cs before : List Char}

theorem bytes_eq (src : Source) : src.bytes = src.text.toList.flatMap String.utf8EncodeChar := by
  have htext : src.text.toUTF8 = (src.text.toList.flatMap String.utf8EncodeChar).toByteArray := by
    conv => lhs; rw [← String.ofList_toList (s := src.text)]
    rfl
  rw [bytes, htext, List.data_toByteArray]

theorem bytes_length (src : Source) : src.bytes.length = src.size := rfl

theorem length_flatMap_utf8EncodeChar (cs : List Char) :
    (cs.flatMap String.utf8EncodeChar).length = byteLength cs := by
  induction cs with
  | nil => rfl
  | cons c cs ih => simp [ih]

theorem bytes_split {c : Char} (htext : src.text.toList = before ++ c :: cs) :
    src.bytes = before.flatMap String.utf8EncodeChar ++
      (String.utf8EncodeChar c ++ cs.flatMap String.utf8EncodeChar) := by
  rw [bytes_eq, htext, List.flatMap_append, List.flatMap_cons]

namespace IsLineStart

variable {place lineStart : Nat}

/-- The line does not change on the way back to its start. -/
theorem back (h : IsLineStart src place lineStart) (hstart : lineStart ≤ offset)
    (hle : offset ≤ place) : IsLineStart src offset lineStart :=
  ⟨hstart, h.begins, fun byte hbyte hlt => h.clear byte hbyte (Nat.lt_of_lt_of_le hlt hle)⟩

/-- The last line goes on behind the end of the text. -/
theorem beyond (h : IsLineStart src place lineStart) (hsize : src.bytes.length ≤ place)
    (hstart : lineStart ≤ offset) : IsLineStart src offset lineStart := by
  refine ⟨hstart, h.begins, fun byte hbyte _ => ?_⟩
  by_cases hlt : byte < place
  . exact h.clear byte hbyte hlt
  . rw [List.getElem?_eq_none (by omega)]
    simp

theorem of_lineFeed (htext : src.text.toList = before ++ '\n' :: cs) :
    IsLineStart src (byteLength before + 1) (byteLength before + 1) := by
  have hlength := length_flatMap_utf8EncodeChar before
  have hfeed : src.bytes[byteLength before]? = some lineFeed := by
    rw [bytes_split htext, List.getElem?_append_right (by omega), hlength, utf8EncodeChar_lineFeed]
    simp
  exact ⟨Nat.le_refl _, .inr hfeed, by omega⟩

theorem push {c : Char} (h : IsLineStart src (byteLength before) lineStart)
    (htext : src.text.toList = before ++ c :: cs) (hc : c ≠ '\n') :
    IsLineStart src (byteLength before + c.utf8Size) lineStart := by
  have hlength := length_flatMap_utf8EncodeChar before
  refine ⟨Nat.le_trans h.le (by omega), h.begins, fun byte hbyte hlt heq => ?_⟩
  by_cases hbefore : byte < byteLength before
  . exact h.clear byte hbyte hbefore heq
  . rw [bytes_split htext, List.getElem?_append_right (by omega), hlength,
      List.getElem?_append_left (by rw [String.length_utf8EncodeChar]; omega)] at heq
    exact hc (lineFeed_mem_utf8EncodeChar.1 (List.mem_of_getElem? heq))

end IsLineStart

namespace lineColumn

theorem go_fst (cs : List Char) (place line lineStart : Nat) :
    (go offset cs place line lineStart).1 =
      line + ((cs.flatMap String.utf8EncodeChar).take (offset - place)).count lineFeed := by
  induction cs generalizing place line lineStart with
  | nil => simp [go]
  | cons c cs ih =>
    unfold go
    split
    . next hle => simp [Nat.sub_eq_zero_of_le hle]
    . next hlt =>
      split
      . next hc =>
        obtain rfl : c = '\n' := by simpa using hc
        obtain ⟨n, hn⟩ : ∃ n, offset - place = n + 1 := ⟨offset - place - 1, by omega⟩
        rw [ih, List.flatMap_cons, utf8EncodeChar_lineFeed, List.singleton_append, hn,
          List.take_succ_cons, List.count_cons_self, show offset - (place + 1) = n by omega]
        omega
      . next hc =>
        have hnone : lineFeed ∉ String.utf8EncodeChar c := by
          rw [lineFeed_mem_utf8EncodeChar]
          simpa using hc
        rw [ih, List.flatMap_cons, List.take_append, List.count_append,
          List.count_eq_zero_of_not_mem fun hmem => hnone (List.mem_of_mem_take hmem),
          String.length_utf8EncodeChar, Nat.zero_add, Nat.sub_sub]

/-- The characters before `cs` are those that were passed, and `lineStart` is where the line of
their end begins. The offset can lie inside the last of them, but not on its first byte. -/
theorem go_snd (cs before : List Char) (line lineStart : Nat)
    (htext : src.text.toList = before ++ cs) (hle : lineStart ≤ offset)
    (hstart : IsLineStart src (byteLength before) lineStart) :
    ∃ start, IsLineStart src offset start ∧
      (go offset cs (byteLength before) line lineStart).2 = offset - start + 1 := by
  induction cs generalizing before line lineStart with
  | nil =>
    have hsize : src.bytes.length = byteLength before := by
      rw [bytes_eq, length_flatMap_utf8EncodeChar, htext, List.append_nil]
    exact ⟨lineStart, hstart.beyond (Nat.le_of_eq hsize) hle, rfl⟩
  | cons c cs ih =>
    have htext' : src.text.toList = (before ++ [c]) ++ cs := by simp [htext]
    have hplace : byteLength before + c.utf8Size = byteLength (before ++ [c]) := by simp
    unfold go
    split
    . next hoffset => exact ⟨lineStart, hstart.back hle hoffset, rfl⟩
    . next hoffset =>
      split
      . next hc =>
        obtain rfl : c = '\n' := by simpa using hc
        have hnext := IsLineStart.of_lineFeed htext
        have hle' : byteLength before + 1 ≤ offset := by omega
        rw [show byteLength before + 1 = byteLength (before ++ ['\n']) from hplace] at hnext hle' ⊢
        exact ih (before ++ ['\n']) _ _ htext' hle' hnext
      . next hc =>
        rw [hplace]
        exact ih (before ++ [c]) _ _ htext' hle (hplace ▸ hstart.push htext (by simpa using hc))

end lineColumn

theorem lineColumn_fst (src : Source) (offset : Nat) :
    (src.lineColumn offset).1 = 1 + (src.bytes.take offset).count lineFeed := by
  rw [lineColumn, lineColumn.go_fst, bytes_eq, Nat.sub_zero]

theorem lineColumn_snd (src : Source) (offset : Nat) :
    ∃ lineStart, src.IsLineStart offset lineStart ∧
      (src.lineColumn offset).2 = offset - lineStart + 1 :=
  lineColumn.go_snd src.text.toList [] 1 0 rfl (Nat.zero_le offset)
    ⟨Nat.le_refl 0, .inl rfl, by simp⟩

end Source

/-! ### Main result -/

variable {src : Source} {options : Options} {token : Option Bool} {tree : Tree}

/-- A report stands where its line and its column say, inside the text, and what is not closed goes
on to the end. -/
theorem parse_positions (h : parse src options token = .ok tree) :
    ∀ error ∈ tree.errors,
      error.span.start ≤ error.span.stop ∧ error.span.stop ≤ src.bytes.length ∧
      error.line = 1 + (src.bytes.take error.span.start).count lineFeed ∧
      (∃ lineStart, src.IsLineStart error.span.start lineStart ∧
        error.column = error.span.start - lineStart + 1) ∧
      (error.kind = .unterminatedConstruct → error.span.stop = src.bytes.length) := by
  obtain ⟨bare, final, _, hparse⟩ := isParse_of_parse h
  intro error herror
  obtain ⟨diagnostic, hdiagnostic, rfl⟩ := List.mem_map.1 herror
  rw [hparse.diagnostics_eq] at hdiagnostic
  have hsound := hparse.sound.reports diagnostic hdiagnostic
  have hposition := Prod.mk.inj hsound.position_eq
  rw [bytes_length]
  refine ⟨diagnostic.span.start_le_stop, hsound.stop_le, ?_, ?_, hsound.stop_eq⟩
  . exact hposition.1.trans (lineColumn_fst src _)
  . obtain ⟨lineStart, hstart, hcolumn⟩ := lineColumn_snd src diagnostic.span.start
    exact ⟨lineStart, hstart, hposition.2.trans hcolumn⟩

theorem parse_positions_terminator :
    ∃ src tree, src = .ofString "é\n(\né ;; b" ∧ parse src = .ok tree ∧
      tree.errors.map (fun error => (error.span.start, error.line, error.column)) =
        [(8, 3, 4), (3, 2, 1)] ∧
      ∀ error ∈ tree.errors,
        error.span.start ≤ error.span.stop ∧ error.span.stop ≤ src.bytes.length ∧
        error.line = 1 + (src.bytes.take error.span.start).count lineFeed ∧
        (∃ lineStart, src.IsLineStart error.span.start lineStart ∧
          error.column = error.span.start - lineStart + 1) ∧
        (error.kind = .unterminatedConstruct → error.span.stop = src.bytes.length) := by
  have herrors : (parse (.ofString "é\n(\né ;; b")).toOption.map (fun tree =>
      tree.errors.map fun error => (error.span.start, error.line, error.column)) =
        some [(8, 3, 4), (3, 2, 1)] := by decide +kernel
  obtain ⟨tree, htree, herrors⟩ := exists_of_map herrors
  exact ⟨_, tree, rfl, htree, herrors, parse_positions htree⟩

end ShellTree
