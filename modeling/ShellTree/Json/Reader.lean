import ShellTree.Json.Basic

/-!
This module contains the reader for JSON texts. It is strict: no leading zeros, no trailing commas,
nothing but blanks after the value. Numbers keep their spelling unless they are natural.
-/

namespace ShellTree
namespace Json

def isJsonBlank (c : Char) : Bool := c == ' ' || c == '\t' || c == '\n' || c == '\r'

def skipBlanks (cs : List Char) : List Char := cs.dropWhile isJsonBlank

def hexValue? (c : Char) : Option Nat :=
  if c.isDigit then some (c.toNat - '0'.toNat)
  else if 'a' ≤ c && c ≤ 'f' then some (c.toNat - 'a'.toNat + 10)
  else if 'A' ≤ c && c ≤ 'F' then some (c.toNat - 'A'.toNat + 10)
  else none

def hexWord? (a b c d : Char) : Option Nat := do
  return (((← hexValue? a) * 16 + (← hexValue? b)) * 16 + (← hexValue? c)) * 16 + (← hexValue? d)

def escaped? (c : Char) : Option Char :=
  if c == '"' || c == '\\' || c == '/' then some c
  else if c == 'n' then some '\n'
  else if c == 'r' then some '\r'
  else if c == 't' then some '\t'
  else if c == 'b' then some '\x08'
  else if c == 'f' then some '\x0c'
  else none

/-- The rest of a string after its opening quote. Its items are code points and, from escapes, the
words of UTF-16. -/
def stringItems? : List Char → Option (List Nat × List Char)
  | [] => none
  | '\\' :: 'u' :: a :: b :: c :: d :: cs => do
    let word ← hexWord? a b c d
    let (items, cs) ← stringItems? cs
    return (word :: items, cs)
  | '\\' :: c :: cs => do
    let c ← escaped? c
    let (items, cs) ← stringItems? cs
    return (c.toNat :: items, cs)
  | c :: cs =>
    if c == '"' then some ([], cs)
    else if c.toNat < 32 || c == '\\' then none
    else do
      let (items, cs) ← stringItems? cs
      return (c.toNat :: items, cs)

def isHighSurrogate (n : Nat) : Bool := 0xd800 ≤ n && n < 0xdc00

def isLowSurrogate (n : Nat) : Bool := 0xdc00 ≤ n && n < 0xe000

/-- The characters of the items, with surrogate pairs joined; none when a half is alone. -/
def joinSurrogates? : List Nat → Option (List Char)
  | [] => some []
  | [n] => if isHighSurrogate n || isLowSurrogate n then none else some [Char.ofNat n]
  | n :: m :: items =>
    if isHighSurrogate n then
      if isLowSurrogate m then do
        let cs ← joinSurrogates? items
        return Char.ofNat (0x10000 + (n - 0xd800) * 0x400 + (m - 0xdc00)) :: cs
      else none
    else if isLowSurrogate n then none
    else do
      let cs ← joinSurrogates? (m :: items)
      return Char.ofNat n :: cs

def isDigits (cs : List Char) : Bool := !cs.isEmpty && cs.all Char.isDigit

def readNumber? (cs : List Char) : Option (Json × List Char) := do
  let (sign, cs) := cs.span (· == '-')
  let (whole, cs) := cs.span Char.isDigit
  guard (sign.length ≤ 1 && isDigits whole && (whole.length = 1 || whole.head? != some '0'))
  let (fraction, cs) ← readFraction? cs
  let (exponent, cs) ← readExponent? cs
  if sign.isEmpty && fraction.isEmpty && exponent.isEmpty then
    return (natural (whole.foldl (fun n c => 10 * n + (c.toNat - '0'.toNat)) 0), cs)
  else
    return (number (String.ofList (sign ++ whole ++ fraction ++ exponent)), cs)
where
  readFraction? : List Char → Option (List Char × List Char)
    | '.' :: cs =>
      let (digits, cs) := cs.span Char.isDigit
      if isDigits digits then some ('.' :: digits, cs) else none
    | cs => some ([], cs)
  readExponent? : List Char → Option (List Char × List Char)
    | [] => some ([], [])
    | c :: cs =>
      if c == 'e' || c == 'E' then
        let (sign, cs) :=
          match cs with
          | '+' :: cs => (['+'], cs)
          | '-' :: cs => (['-'], cs)
          | cs => ([], cs)
        let (digits, cs) := cs.span Char.isDigit
        if isDigits digits then some (c :: sign ++ digits, cs) else none
      else
        some ([], c :: cs)

def readString? (cs : List Char) : Option (JsonString × List Char) := do
  let (items, rest) ← stringItems? cs
  match joinSurrogates? items with
  | some text => return (.text (String.ofList text), rest)
  | none => return (.unpaired (String.ofList (cs.take (cs.length - rest.length - 1))), rest)

def readScalar? : List Char → Option (Json × List Char)
  | '"' :: cs => do
    let (value, cs) ← readString? cs
    return (string value, cs)
  | 'n' :: 'u' :: 'l' :: 'l' :: cs => some (null, cs)
  | 't' :: 'r' :: 'u' :: 'e' :: cs => some (bool true, cs)
  | 'f' :: 'a' :: 'l' :: 's' :: 'e' :: cs => some (bool false, cs)
  | cs => readNumber? cs

def readKey? (cs : List Char) : Option (JsonString × List Char) := do
  match skipBlanks cs with
  | '"' :: cs =>
    let (key, cs) ← readString? cs
    match skipBlanks cs with
    | ':' :: cs => return (key, cs)
    | _ => none
  | _ => none

mutual

/-- The value at the start of the characters. Each opening bracket takes from the fuel. -/
def readValue? : Nat → List Char → Option (Json × List Char)
  | 0, _ => none
  | fuel + 1, cs =>
    match skipBlanks cs with
    | '[' :: cs =>
      match skipBlanks cs with
      | ']' :: cs => some (array [], cs)
      | cs => do
        let (items, cs) ← readItems? fuel cs
        return (array items, cs)
    | '\x7b' :: cs =>
      match skipBlanks cs with
      | '\x7d' :: cs => some (object [], cs)
      | cs => do
        let (members, cs) ← readMembers? fuel cs
        return (object members, cs)
    | cs => readScalar? cs

def readItems? : Nat → List Char → Option (List Json × List Char)
  | 0, _ => none
  | fuel + 1, cs => do
    let (item, cs) ← readValue? fuel cs
    match skipBlanks cs with
    | ']' :: cs => return ([item], cs)
    | ',' :: cs =>
      let (items, cs) ← readItems? fuel cs
      return (item :: items, cs)
    | _ => none

def readMembers? : Nat → List Char → Option (List (JsonString × Json) × List Char)
  | 0, _ => none
  | fuel + 1, cs => do
    let (key, cs) ← readKey? cs
    let (value, cs) ← readValue? fuel cs
    match skipBlanks cs with
    | '\x7d' :: cs => return ([(key, value)], cs)
    | ',' :: cs =>
      let (members, cs) ← readMembers? fuel cs
      return ((key, value) :: members, cs)
    | _ => none

end

/-- The value that a text spells. Every step of the reader takes a character, so that the length of
the text bounds their number. -/
def parse? (text : String) : Option Json := do
  let (value, rest) ← readValue? (2 * text.length + 1) text.toList
  guard (skipBlanks rest).isEmpty
  return value

end Json
end ShellTree
