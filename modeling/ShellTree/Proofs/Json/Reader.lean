import Mathlib.Data.List.TakeDrop
import ShellTree.Json.Reader

/-!
This module contains the correctness of the reader for JSON texts: what a value is written as is
read as the value. Strings may hold any characters.
-/

namespace ShellTree
namespace Json

/-! ### Numbers -/

/-- What comes behind a value is another part of the text around it, so that no number goes on. -/
def Ends (rest : List Char) : Prop := ∀ c ∈ rest.head?, c = ',' ∨ c = ']' ∨ c = '\x7d'

theorem Ends.head {c : Char} {rest : List Char} (h : Ends rest) (hc : rest.head? = some c) :
    c.isDigit = false ∧ c ≠ '.' ∧ c ≠ 'e' ∧ c ≠ 'E' := by
  obtain rfl | rfl | rfl := h c hc <;> decide

theorem ends_nil : Ends [] := by simp [Ends]

theorem ends_comma (rest : List Char) : Ends (',' :: rest) := by simp [Ends]

theorem ends_bracket (rest : List Char) : Ends (']' :: rest) := by simp [Ends]

theorem ends_brace (rest : List Char) : Ends ('\x7d' :: rest) := by simp [Ends]

theorem head?_toDigits {n : Nat} (h : 0 < n) : (Nat.toDigits 10 n).head? ≠ some '0' := by
  induction n using Nat.strongRecOn with
  | ind n ih =>
    rw [Nat.toDigits_eq_if (by omega)]
    split
    . simpa [Nat.digitChar_eq_zero] using Nat.ne_of_gt h
    . rw [List.head?_append, Option.or_of_isSome (by simp [Nat.toDigits_ne_nil])]
      exact ih (n / 10) (by omega) (by omega)

theorem span_digits {digits rest : List Char} (hdigits : ∀ c ∈ digits, c.isDigit)
    (hrest : Ends rest) : (digits ++ rest).span Char.isDigit = (digits, rest) := by
  have hstop : rest.takeWhile Char.isDigit = [] ∧ rest.dropWhile Char.isDigit = rest := by
    cases rest with
    | nil => exact ⟨rfl, rfl⟩
    | cons c rest => simp [(hrest.head rfl).1]
  rw [List.span_eq_takeWhile_dropWhile, List.takeWhile_append_of_pos hdigits,
    List.dropWhile_append_of_pos hdigits, hstop.1, hstop.2, List.append_nil]

theorem readFraction?_eq {rest : List Char} (hrest : Ends rest) :
    readNumber?.readFraction? rest = some ([], rest) := by
  unfold readNumber?.readFraction?
  split
  . exact absurd rfl (hrest.head rfl).2.1
  . rfl

theorem readExponent?_eq {rest : List Char} (hrest : Ends rest) :
    readNumber?.readExponent? rest = some ([], rest) := by
  cases rest with
  | nil => rfl
  | cons c rest =>
    obtain ⟨_, _, hlower, hupper⟩ := hrest.head rfl
    simp [readNumber?.readExponent?, hlower, hupper]

theorem readNumber?_toString (n : Nat) {rest : List Char} (hrest : Ends rest) :
    readNumber? ((toString n).toList ++ rest) = some (natural n, rest) := by
  have hdigits : ∀ c ∈ Nat.toDigits 10 n, c.isDigit :=
    fun c hc => Nat.isDigit_of_mem_toDigits (by omega) (by omega) hc
  have hsign : (Nat.toDigits 10 n ++ rest).span (· == '-') = ([], Nat.toDigits 10 n ++ rest) := by
    obtain ⟨c, cs, heq⟩ := List.exists_cons_of_ne_nil (Nat.toDigits_ne_nil (n := n) (b := 10))
    have hc : c ≠ '-' := by
      rintro rfl
      exact absurd (hdigits '-' (by simp [heq])) (by decide)
    rw [heq, List.span_eq_takeWhile_dropWhile]
    simp [hc]
  have hfirst : (Nat.toDigits 10 n).length = 1 ∨ (Nat.toDigits 10 n).head? ≠ some '0' := by
    cases n with
    | zero => exact .inl rfl
    | succ n => exact .inr (head?_toDigits n.succ_pos)
  have hvalue := Nat.ofDigitChars_ten_toDigits (n := n)
  rw [Nat.ofDigitChars_eq_foldl] at hvalue
  rw [Nat.toString_eq_ofList_toDigits, String.toList_ofList]
  have hwhole : (decide (([] : List Char).length ≤ 1) && isDigits (Nat.toDigits 10 n) &&
      (decide ((Nat.toDigits 10 n).length = 1) || (Nat.toDigits 10 n).head? != some '0'))
        = true := by
    simpa [isDigits, Nat.toDigits_ne_nil] using ⟨hdigits, hfirst⟩
  unfold readNumber?
  rw [hsign]
  dsimp only
  rw [span_digits hdigits hrest]
  dsimp only
  rw [hwhole, readFraction?_eq hrest]
  dsimp only [Option.bind_eq_bind, Option.bind_some]
  rw [readExponent?_eq hrest, hvalue]
  rfl

/-! ### Strings -/

theorem hexValue?_hexDigit : ∀ n < 16, hexValue? (hexDigit n) = some n := by decide

theorem hexWord?_control {n : Nat} (h : n < 32) :
    hexWord? '0' '0' (hexDigit (n / 16)) (hexDigit (n % 16)) = some n := by
  have hzero : hexValue? '0' = some 0 := by decide
  simp only [hexWord?, hzero, hexValue?_hexDigit (n / 16) (by omega),
    hexValue?_hexDigit (n % 16) (by omega), Option.bind_eq_bind, Option.bind_some]
  rw [show ((0 * 16 + 0) * 16 + n / 16) * 16 + n % 16 = n by omega]
  rfl

/-- A character is read back from what it is written as. -/
theorem stringItems?_escapeChar {cs rest : List Char} {items : List Nat} (c : Char)
    (h : stringItems? cs = some (items, rest)) :
    stringItems? (escapeChar c ++ cs) = some (c.toNat :: items, rest) := by
  unfold escapeChar
  repeat' split
  -- the characters with a letter of their own
  iterate 7
    next heq =>
      rw [beq_iff_eq] at heq
      subst heq
      simp [stringItems?, escaped?, h]
  . next hcontrol => simp [stringItems?, hexWord?_control hcontrol, h]
  . next hquote hbackslash _ _ _ _ _ hcontrol =>
    rw [beq_iff_eq] at hquote hbackslash
    simp [stringItems?, hquote, hbackslash, hcontrol, h]

theorem stringItems?_escaped (cs rest : List Char) :
    stringItems? (cs.flatMap escapeChar ++ '"' :: rest) = some (cs.map Char.toNat, rest) := by
  induction cs with
  | nil => simp [stringItems?]
  | cons c cs ih =>
    rw [List.flatMap_cons, List.append_assoc, List.map_cons]
    exact stringItems?_escapeChar c ih

/-- No character is half of a surrogate pair. -/
theorem not_isSurrogate (c : Char) :
    isHighSurrogate c.toNat = false ∧ isLowSurrogate c.toNat = false := by
  have hvalid : c.toNat < 0xd800 ∨ 0xdfff < c.toNat ∧ c.toNat < 0x110000 := c.valid
  simp only [isHighSurrogate, isLowSurrogate, Bool.and_eq_false_imp, decide_eq_true_eq,
    decide_eq_false_iff_not]
  omega

theorem joinSurrogates?_map (cs : List Char) : joinSurrogates? (cs.map Char.toNat) = some cs := by
  induction cs with
  | nil => rfl
  | cons c cs ih =>
    obtain ⟨hhigh, hlow⟩ := not_isSurrogate c
    cases cs with
    | nil => simp [joinSurrogates?, hhigh, hlow, Char.ofNat_toNat]
    | cons d cs =>
      rw [List.map_cons] at ih
      simp [joinSurrogates?, hhigh, hlow, ih, Char.ofNat_toNat]

theorem readString?_escaped (text : String) (rest : List Char) :
    readString? (text.toList.flatMap escapeChar ++ '"' :: rest) = some (.text text, rest) := by
  simp [readString?, stringItems?_escaped, joinSurrogates?_map]

/-! ### Values -/

mutual

/-- A value whose strings are texts and whose numbers are natural. -/
def IsPlain : Json → Prop
  | number _ => False
  | string value => value.text?.isSome
  | array items => ArePlain items
  | object members => ArePlainMembers members
  | _ => True

def ArePlain : List Json → Prop
  | [] => True
  | item :: items => IsPlain item ∧ ArePlain items

def ArePlainMembers : List (JsonString × Json) → Prop
  | [] => True
  | (key, value) :: members => key.text?.isSome ∧ IsPlain value ∧ ArePlainMembers members

end

theorem skipBlanks_cons {c : Char} (h : isJsonBlank c = false) (cs : List Char) :
    skipBlanks (c :: cs) = c :: cs := by
  simp [skipBlanks, h]

/-- The text starts with neither a blank nor the end of a list. -/
def Opens (cs : List Char) : Prop :=
  ∃ c tail, cs = c :: tail ∧ isJsonBlank c = false ∧ c ≠ ']' ∧ c ≠ '\x7d'

theorem Opens.skipBlanks_eq {cs : List Char} (h : Opens cs) : skipBlanks cs = cs := by
  obtain ⟨c, tail, rfl, hblank, -⟩ := h
  exact skipBlanks_cons hblank tail

theorem Opens.append {cs : List Char} (h : Opens cs) (rest : List Char) : Opens (cs ++ rest) := by
  obtain ⟨c, tail, rfl, hc⟩ := h
  exact ⟨c, tail ++ rest, rfl, hc⟩

theorem exists_text {s : JsonString} (h : s.text?.isSome) : ∃ text, s = .text text := by
  cases s with
  | text text => exact ⟨text, rfl⟩
  | unpaired body => cases h

theorem toList_quote (text : String) :
    (quote (.text text)).toList = '"' :: (text.toList.flatMap escapeChar ++ ['"']) := by
  simp [quote]

theorem digit_ne {c d : Char} (hc : c.isDigit) (hd : d.isDigit = false) : c ≠ d := by
  rintro rfl
  simp [hd] at hc

theorem opens_digit {c : Char} (h : c.isDigit) (cs : List Char) : Opens (c :: cs) :=
  ⟨c, cs, rfl, by simp [isJsonBlank, digit_ne h], digit_ne h rfl, digit_ne h rfl⟩

theorem toString_eq_cons (n : Nat) : ∃ c cs, (toString n).toList = c :: cs ∧ c.isDigit := by
  obtain ⟨c, cs, heq⟩ := List.exists_cons_of_ne_nil (Nat.toDigits_ne_nil (n := n) (b := 10))
  refine ⟨c, cs, by rw [Nat.toString_eq_ofList_toDigits, String.toList_ofList, heq], ?_⟩
  exact Nat.isDigit_of_mem_toDigits (by omega) (by omega) (heq ▸ List.mem_cons_self)

theorem opens_render {value : Json} (h : value.IsPlain) : Opens value.render.toList := by
  cases value with
  | null => exact ⟨'n', _, rfl, by decide⟩
  | bool value =>
    cases value with
    | false => exact ⟨'f', _, rfl, by decide⟩
    | true => exact ⟨'t', _, rfl, by decide⟩
  | natural n =>
    obtain ⟨c, cs, heq, hc⟩ := toString_eq_cons n
    rw [render, heq]
    exact opens_digit hc cs
  | number text => exact h.elim
  | string value =>
    obtain ⟨text, rfl⟩ := exists_text h
    rw [render, toList_quote]
    exact ⟨'"', _, rfl, by decide⟩
  | array items =>
    simp only [render, String.toList_append]
    exact ⟨'[', _, rfl, by decide⟩
  | object members =>
    simp only [render, String.toList_append]
    exact ⟨'\x7b', _, rfl, by decide⟩

theorem opens_renderItems {item : Json} (h : item.IsPlain) (items : List Json) :
    Opens (renderItems (item :: items)).toList := by
  cases items with
  | nil => exact opens_render h
  | cons next items =>
    simp only [renderItems, String.toList_append, List.append_assoc]
    exact (opens_render h).append _

theorem readValue?_natural (n fuel : Nat) {rest : List Char} (hrest : Ends rest) :
    readValue? (fuel + 1) ((toString n).toList ++ rest) = some (natural n, rest) := by
  rw [← readNumber?_toString n hrest]
  obtain ⟨c, cs, heq, hc⟩ := toString_eq_cons n
  simp only [heq, List.cons_append, readValue?, (opens_digit hc _).skipBlanks_eq]
  have hne := fun d => digit_ne (d := d) hc
  split
  . next heq => exact absurd (List.cons.inj heq).1 (hne '[' rfl)
  . next heq => exact absurd (List.cons.inj heq).1 (hne '\x7b' rfl)
  . unfold readScalar?
    split
    . next heq => exact absurd (List.cons.inj heq).1 (hne '"' rfl)
    . next heq => exact absurd (List.cons.inj heq).1 (hne 'n' rfl)
    . next heq => exact absurd (List.cons.inj heq).1 (hne 't' rfl)
    . next heq => exact absurd (List.cons.inj heq).1 (hne 'f' rfl)
    . rfl

theorem readKey?_quote {key : JsonString} (h : key.text?.isSome) (rest : List Char) :
    readKey? ((quote key).toList ++ ':' :: rest) = some (key, rest) := by
  obtain ⟨text, rfl⟩ := exists_text h
  simp [readKey?, toList_quote, skipBlanks, isJsonBlank, readString?_escaped]

theorem readValue?_quote {value : JsonString} (h : value.text?.isSome) (fuel : Nat)
    (rest : List Char) :
    readValue? (fuel + 1) ((quote value).toList ++ rest) = some (string value, rest) := by
  obtain ⟨text, rfl⟩ := exists_text h
  simp [readValue?, toList_quote, skipBlanks, isJsonBlank, readScalar?, readString?_escaped]

theorem readValue?_bracket {cs : List Char} (h : Opens cs) (fuel : Nat) :
    readValue? (fuel + 1) ('[' :: cs)
      = (readItems? fuel cs).map fun found => (array found.1, found.2) := by
  rw [readValue?, skipBlanks_cons (c := '[') rfl]
  simp only [h.skipBlanks_eq]
  obtain ⟨c, tail, rfl, -, hbracket, -⟩ := h
  split
  . next heq => exact absurd (List.cons.inj heq).1 hbracket
  . rw [Option.map_eq_bind]
    rfl

theorem readValue?_brace {key : JsonString} (h : key.text?.isSome) (cs : List Char) (fuel : Nat) :
    readValue? (fuel + 1) ('\x7b' :: ((quote key).toList ++ cs))
      = (readMembers? fuel ((quote key).toList ++ cs)).map
          fun found => (object found.1, found.2) := by
  obtain ⟨text, rfl⟩ := exists_text h
  simp only [toList_quote, List.cons_append]
  rw [readValue?, skipBlanks_cons (c := '\x7b') rfl, Option.map_eq_bind]
  simp only [skipBlanks_cons (c := '"') rfl]
  rfl

theorem toList_renderItems_cons (item next : Json) (items : List Json) :
    (renderItems (item :: next :: items)).toList
      = item.render.toList ++ ',' :: (renderItems (next :: items)).toList := by
  simp [renderItems]

theorem toList_renderMembers_cons (key : JsonString) (value : Json)
    (next : JsonString × Json) (members : List (JsonString × Json)) :
    (renderMembers ((key, value) :: next :: members)).toList
      = (quote key).toList ++ ':' :: (value.render.toList
          ++ ',' :: (renderMembers (next :: members)).toList) := by
  simp [renderMembers]

theorem exists_renderMembers_eq (key : JsonString) (value : Json)
    (members : List (JsonString × Json)) :
    ∃ cs, (renderMembers ((key, value) :: members)).toList = (quote key).toList ++ cs := by
  cases members with
  | nil => exact ⟨_, by rw [renderMembers, String.toList_append, String.toList_append,
      List.append_assoc]⟩
  | cons next members => exact ⟨_, toList_renderMembers_cons key value next members⟩

mutual

/-- What a plain value is written as is read as the value, whatever other part of the text follows.
Each step of the reader is paid for by a character of the text. -/
theorem readValue?_render {value : Json} (h : value.IsPlain) {fuel : Nat}
    (hfuel : 2 * value.render.toList.length ≤ fuel) {rest : List Char} (hrest : Ends rest) :
    readValue? fuel (value.render.toList ++ rest) = some (value, rest) := by
  obtain ⟨fuel, rfl⟩ : ∃ n, fuel = n + 1 := by
    obtain ⟨c, tail, heq, -⟩ := opens_render h
    rw [heq, List.length_cons] at hfuel
    exact ⟨fuel - 1, by omega⟩
  match value with
  | null => simp [render, readValue?, skipBlanks, isJsonBlank, readScalar?]
  | bool true => simp [render, readValue?, skipBlanks, isJsonBlank, readScalar?]
  | bool false => simp [render, readValue?, skipBlanks, isJsonBlank, readScalar?]
  | natural n => exact readValue?_natural n fuel hrest
  | number text => exact h.elim
  | string value => exact readValue?_quote h fuel rest
  | array [] => simp [render, renderItems, readValue?, skipBlanks, isJsonBlank]
  | array (item :: items) =>
    have hrender : (array (item :: items)).render.toList ++ rest
        = '[' :: ((renderItems (item :: items)).toList ++ ']' :: rest) := by
      simp [render]
    have hread : readItems? fuel ((renderItems (item :: items)).toList ++ ']' :: rest)
        = some (item :: items, rest) :=
      readItems?_renderItems h (List.cons_ne_nil _ _) (by simp [render] at hfuel; omega) rest
    rw [hrender, readValue?_bracket ((opens_renderItems h.1 items).append _), hread]
    rfl
  | object [] => simp [render, renderMembers, readValue?, skipBlanks, isJsonBlank]
  | object ((key, member) :: members) =>
    have hrender : (object ((key, member) :: members)).render.toList ++ rest
        = '\x7b' :: ((renderMembers ((key, member) :: members)).toList ++ '\x7d' :: rest) := by
      simp [render]
    have hread : readMembers? fuel
        ((renderMembers ((key, member) :: members)).toList ++ '\x7d' :: rest)
          = some ((key, member) :: members, rest) :=
      readMembers?_renderMembers h (List.cons_ne_nil _ _) (by simp [render] at hfuel; omega) rest
    obtain ⟨cs, heq⟩ := exists_renderMembers_eq key member members
    rw [heq, List.append_assoc] at hread
    rw [hrender, heq, List.append_assoc, readValue?_brace h.1, hread]
    rfl

theorem readItems?_renderItems {items : List Json} (h : ArePlain items) (hne : items ≠ [])
    {fuel : Nat} (hfuel : 2 * (renderItems items).toList.length + 1 ≤ fuel) (rest : List Char) :
    readItems? fuel ((renderItems items).toList ++ ']' :: rest) = some (items, rest) := by
  obtain ⟨fuel, rfl⟩ : ∃ n, fuel = n + 1 := ⟨fuel - 1, by omega⟩
  match items with
  | [] => exact absurd rfl hne
  | [item] =>
    rw [renderItems] at hfuel ⊢
    rw [readItems?, readValue?_render h.1 (by omega) (ends_bracket rest)]
    simp [skipBlanks, isJsonBlank]
  | item :: next :: items =>
    rw [toList_renderItems_cons, List.length_append, List.length_cons] at hfuel
    have hitems : readItems? fuel ((renderItems (next :: items)).toList ++ ']' :: rest)
        = some (next :: items, rest) :=
      readItems?_renderItems h.2 (List.cons_ne_nil _ _) (by omega) rest
    rw [toList_renderItems_cons, List.append_assoc, List.cons_append, readItems?,
      readValue?_render h.1 (by omega) (ends_comma _)]
    simp [skipBlanks, isJsonBlank, hitems]

theorem readMembers?_renderMembers {members : List (JsonString × Json)}
    (h : ArePlainMembers members) (hne : members ≠ []) {fuel : Nat}
    (hfuel : 2 * (renderMembers members).toList.length + 1 ≤ fuel) (rest : List Char) :
    readMembers? fuel ((renderMembers members).toList ++ '\x7d' :: rest)
      = some (members, rest) := by
  obtain ⟨fuel, rfl⟩ : ∃ n, fuel = n + 1 := ⟨fuel - 1, by omega⟩
  match members with
  | [] => exact absurd rfl hne
  | [(key, value)] =>
    have hvalue : readValue? fuel (value.render.toList ++ '\x7d' :: rest)
        = some (value, '\x7d' :: rest) :=
      readValue?_render h.2.1 (by simp [renderMembers] at hfuel; omega) (ends_brace rest)
    simp [renderMembers, readMembers?, readKey?_quote h.1, hvalue, skipBlanks, isJsonBlank]
  | (key, value) :: next :: members =>
    rw [toList_renderMembers_cons] at hfuel ⊢
    simp only [List.length_append, List.length_cons] at hfuel
    have hmembers : readMembers? fuel ((renderMembers (next :: members)).toList ++ '\x7d' :: rest)
        = some (next :: members, rest) :=
      readMembers?_renderMembers h.2.2 (List.cons_ne_nil _ _) (by omega) rest
    have hvalue : ∀ tail, readValue? fuel (value.render.toList ++ ',' :: tail)
        = some (value, ',' :: tail) :=
      fun tail => readValue?_render h.2.1 (by omega) (ends_comma tail)
    simp [readMembers?, readKey?_quote h.1, hvalue, hmembers, skipBlanks, isJsonBlank]

end

/-- The reader gives back every plain value from its text. -/
theorem parse?_render {value : Json} (h : value.IsPlain) : parse? value.render = some value := by
  have hfuel : 2 * value.render.toList.length ≤ 2 * value.render.length + 1 := by
    rw [String.length_toList]
    omega
  have hread := readValue?_render h hfuel ends_nil
  rw [List.append_nil] at hread
  rw [parse?, hread]
  rfl

end Json
end ShellTree
