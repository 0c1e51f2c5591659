/-!
This module contains JSON values and their compact text.
-/

namespace ShellTree

inductive JsonString where
  | text (text : String)
  /-- A string whose escapes name half of a surrogate pair, so that it spells no text, as it is
  written between its quotes. -/
  | unpaired (body : String)
deriving DecidableEq, Repr

instance : Coe String JsonString := ⟨.text⟩

def JsonString.text? : JsonString → Option String
  | .text value => some value
  | .unpaired _ => none

/-- A JSON value. Members keep the order in which they are written. -/
inductive Json where
  | null
  | bool (value : Bool)
  | natural (value : Nat)
  | number (text : String)
  | string (value : JsonString)
  | array (items : List Json)
  | object (members : List (JsonString × Json))
deriving Repr

namespace Json

def hexDigit (n : Nat) : Char :=
  if n < 10 then Char.ofNat ('0'.toNat + n) else Char.ofNat ('a'.toNat + (n - 10))

def escapeChar (c : Char) : List Char :=
  if c == '"' then ['\\', '"']
  else if c == '\\' then ['\\', '\\']
  else if c == '\n' then ['\\', 'n']
  else if c == '\r' then ['\\', 'r']
  else if c == '\t' then ['\\', 't']
  else if c == '\x08' then ['\\', 'b']
  else if c == '\x0c' then ['\\', 'f']
  else if c.toNat < 32 then
    ['\\', 'u', '0', '0', hexDigit (c.toNat / 16), hexDigit (c.toNat % 16)]
  else [c]

def quote : JsonString → String
  | .text text => "\"" ++ String.ofList (text.toList.flatMap escapeChar) ++ "\""
  | .unpaired body => "\"" ++ body ++ "\""

mutual

def render : Json → String
  | null => "null"
  | bool true => "true"
  | bool false => "false"
  | natural n => toString n
  | number text => text
  | string value => quote value
  | array items => "[" ++ renderItems items ++ "]"
  | object members => "\x7b" ++ renderMembers members ++ "\x7d"

def renderItems : List Json → String
  | [] => ""
  | [item] => render item
  | item :: items => render item ++ "," ++ renderItems items

def renderMembers : List (JsonString × Json) → String
  | [] => ""
  | [(key, value)] => quote key ++ ":" ++ render value
  | (key, value) :: members => quote key ++ ":" ++ render value ++ "," ++ renderMembers members

end

end Json

end ShellTree
