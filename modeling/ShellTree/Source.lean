import ShellTree.Span

/-!
This module contains the source text of a script. All offsets count bytes of its UTF-8 form, and
the text is read as the list of characters that begin at an offset. The main definitions are
`Source.tail?`, `Source.slice?` and `Source.lineColumn`; `Source.tail?_eq` says what the table of a
source holds.
-/

namespace ShellTree

/-- The number of bytes that the characters take in UTF-8. -/
def byteLength : List Char → Nat
  | [] => 0
  | c :: cs => c.utf8Size + byteLength cs

@[simp]
theorem byteLength_nil : byteLength [] = 0 := rfl

@[simp]
theorem byteLength_cons (c : Char) (cs : List Char) :
    byteLength (c :: cs) = c.utf8Size + byteLength cs := rfl

@[simp]
theorem byteLength_append (cs ds : List Char) :
    byteLength (cs ++ ds) = byteLength cs + byteLength ds := by
  induction cs with
  | nil => simp
  | cons c cs ih => simp [ih, Nat.add_assoc]

/-- The characters from the byte offset on; none when the offset is inside a character or past the
end. -/
def tailAt? : List Char → Nat → Option (List Char)
  | cs, 0 => some cs
  | [], _ + 1 => none
  | c :: cs, n + 1 => if c.utf8Size ≤ n + 1 then tailAt? cs (n + 1 - c.utf8Size) else none

def headAt? : List Char → Nat → Option (List Char)
  | _, 0 => some []
  | [], _ + 1 => none
  | c :: cs, n + 1 =>
    if c.utf8Size ≤ n + 1 then (headAt? cs (n + 1 - c.utf8Size)).map (c :: ·) else none

/-- `tailAt?` at every offset up to the end. -/
def tailTable : List Char → List (Option (List Char))
  | [] => [some []]
  | c :: cs => some (c :: cs) :: (List.replicate (c.utf8Size - 1) none ++ tailTable cs)

theorem join_getElem?_tailTable (cs : List Char) (n : Nat) :
    (tailTable cs)[n]?.join = tailAt? cs n := by
  induction cs generalizing n with
  | nil => cases n <;> simp [tailTable, tailAt?]
  | cons c cs ih =>
    cases n with
    | zero => simp [tailTable, tailAt?]
    | succ n =>
      have hpos := c.utf8Size_pos
      simp only [tailTable, tailAt?, List.getElem?_cons_succ]
      split
      next h =>
        rw [List.getElem?_append_right (by simp; omega), ih, List.length_replicate]
        congr 1
        omega
      next h =>
        rw [List.getElem?_append_left (by simp; omega), List.getElem?_replicate]
        split <;> rfl

/-- A script. The table answers a request for the characters at an offset in constant time. -/
structure Source where
  text : String
  tails : Array (Option (List Char))
  tails_eq : tails = (tailTable text.toList).toArray

namespace Source

def ofString (text : String) : Source := ⟨text, (tailTable text.toList).toArray, rfl⟩

theorem eq_ofString (src : Source) : src = .ofString src.text := by
  obtain ⟨text, tails, rfl⟩ := src
  rfl

instance : DecidableEq Source := fun a b =>
  if h : a.text = b.text then isTrue (by rw [a.eq_ofString, b.eq_ofString, h])
  else isFalse (by intro heq; exact h (by rw [heq]))

def size (src : Source) : Nat := src.text.utf8ByteSize

def tail? (src : Source) (offset : Nat) : Option (List Char) := src.tails[offset]?.join

theorem tail?_eq (src : Source) (offset : Nat) :
    src.tail? offset = tailAt? src.text.toList offset := by
  rw [← join_getElem?_tailTable, tail?, src.tails_eq, List.getElem?_toArray]

def char? (src : Source) (offset : Nat) : Option Char := (src.tail? offset).bind List.head?

/-- The first offset from `offset` on at which a character begins or the text ends. Offsets past
the end stay. A character takes four bytes at most. -/
def nextBoundary (src : Source) (offset : Nat) : Nat :=
  if offset ≥ src.size || (src.tail? offset).isSome then offset
  else if (src.tail? (offset + 1)).isSome then offset + 1
  else if (src.tail? (offset + 2)).isSome then offset + 2
  else offset + 3

/-- The text between two offsets; none unless both lie on character boundaries, in order. -/
def slice? (src : Source) (start stop : Nat) : Option String := do
  let cs ← src.tail? start
  if start ≤ stop then
    let taken ← headAt? cs (stop - start)
    return String.ofList taken
  else
    none

def textOf? (src : Source) (span : Span) : Option String := src.slice? span.start span.stop

/-- The number of bytes of the character at `offset`, and one at the end of the text. -/
def charLength (src : Source) (offset : Nat) : Except Fault Nat :=
  match src.tail? offset with
  | some (c :: _) => .ok c.utf8Size
  | some [] => .ok 1
  | none => .error .splitCharacter

/-- The line of `offset` and its column, both from one. The line counts the line feeds before the
offset, the column the bytes after the last of them. -/
def lineColumn (src : Source) (offset : Nat) : Nat × Nat :=
  go src.text.toList 0 1 0
where
  /-- `place` is the offset of the characters, `line` the current line and `lineStart` its start. -/
  go : List Char → Nat → Nat → Nat → Nat × Nat
    | [], _, line, lineStart => (line, offset - lineStart + 1)
    | c :: cs, place, line, lineStart =>
      if offset ≤ place then
        (line, offset - lineStart + 1)
      else if c == '\n' then
        go cs (place + 1) (line + 1) (place + 1)
      else
        go cs (place + c.utf8Size) line lineStart

end Source

end ShellTree
