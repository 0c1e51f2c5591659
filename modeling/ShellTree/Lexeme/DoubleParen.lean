import ShellTree.Character
import ShellTree.Lexeme.Quoted

/-!
This module contains the lookahead that tells two nested parentheses that open an arithmetic
expression from two that open nested subshells. All scanners take the characters after the second
parenthesis.
-/

namespace ShellTree
namespace DoubleParen

open Lexeme (Quoting)

/-- Walk through the unquoted text, `depth` parentheses deep, until the text shows a subshell: a
pipe or `&&` at depth one, or what `verdict` finds after a parenthesis that closes the inner group.
Closing both groups or the end of the text means arithmetic. -/
def showsSubshell (verdict : List Char → Option Bool) : Quoting → Nat → List Char → Bool
  | _, 0, _ => false
  | _, _, [] => false
  | q, depth + 1, c :: cs =>
    if q.escapes && c == '\\' then
      match cs with
      | [] => false
      | _ :: cs => showsSubshell verdict q (depth + 1) cs
    else
      match q with
      | .bare =>
        if c == '(' then showsSubshell verdict .bare (depth + 2) cs
        else if c == ')' then
          match if depth = 1 then verdict cs else none with
          | some answer => answer
          | none => showsSubshell verdict .bare depth cs
        else if depth = 0 && (c == '|' || (c == '&' && cs.head? == some '&')) then true
        else showsSubshell verdict (q.next c) (depth + 1) cs
      | _ => showsSubshell verdict (q.next c) (depth + 1) cs

/-- After `$((`: the inner group closes without the outer one, so that more command text follows. -/
def opensSubshell (cs : List Char) : Bool :=
  showsSubshell (fun rest => some (rest.head? != some ')')) .bare 2 cs

/-- After a statement's `((`: the inner group closes with blanks before the outer parenthesis, or
commands are joined at depth one. -/
def closesWithGap (cs : List Char) : Bool :=
  showsSubshell verdict .bare 2 cs
where
  verdict (rest : List Char) : Option Bool :=
    if rest.head? == some ')' then
      some false
    else
      let isGap := fun c => c == ' ' || c == '\t' || c == '\n'
      if rest.head?.any isGap && (rest.dropWhile isGap).head? == some ')' then some true else none

def isInlineBlank (c : Char) : Bool := c == ' ' || c == '\t'

def followsOperand (c : Char) : Bool :=
  c == '+' || c == '*' || c == '/' || c == '%' || c == '<' || c == '>' || c == '&' || c == '|' ||
    c == '^' || c == '!' || c == '~' || c == '?' || c == ':'

def opensArgument (c : Char) : Bool :=
  c == '-' || c == '"' || c == '\'' || c == '$' || c == '_' || c == '/' || c == '.' || c.isAlpha

/-- After a statement's `((`: the text starts like a command inside a subshell. -/
def startsLikeCommand (cs : List Char) : Bool :=
  match cs.dropWhile (fun c => isInlineBlank c || c == '(') with
  | [] => false
  | c :: rest =>
    if c == '!' || c == '[' then true
    else if isNameStart c then
      let afterWord := (c :: rest).dropWhile (fun c => isNameChar c || c == '-' || c == '.')
      afterCommandWord (afterWord.head?.any isInlineBlank) (afterWord.dropWhile isInlineBlank)
    else false
where
  afterCommandWord (blanks : Bool) : List Char → Bool
    | [] => false
    | c :: rest =>
      if c == '=' && rest.head? != some '=' then false
      else if c == '\n' then false
      else if !blanks && followsOperand c then false
      else if c == ')' && rest.head? == some ')' then false
      else if blanks && opensArgument c then
        ((c :: rest).takeWhile (· != '\n')).contains ')'
      else if c == ')' then
        match rest.dropWhile isInlineBlank with
        | '|' :: _ => true
        | ';' :: _ => true
        | '&' :: '&' :: _ => true
        | _ => false
      else false

/-- A statement's `((` opens an arithmetic command. -/
def opensArithmetic (cs : List Char) : Bool := !closesWithGap cs && !startsLikeCommand cs

end DoubleParen
end ShellTree
