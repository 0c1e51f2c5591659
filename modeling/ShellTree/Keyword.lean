/-!
This module contains the words that the shell treats specially at the start of a statement.
-/

namespace ShellTree
namespace Keyword

def reserved : List String :=
  ["if", "then", "elif", "else", "fi", "for", "select", "while", "until", "do", "done", "case",
    "esac", "in", "function", "!", "\x7b", "\x7d", "[[", "["]

def closing : List String := ["then", "elif", "else", "fi", "do", "done", "esac", "\x7d"]

def declarations : List String := ["declare", "typeset", "export", "readonly", "local"]

def unsets : List String := ["unset", "unsetenv"]

/-- The words that are leaves of their own kind instead of words. -/
def all : List String := reserved ++ declarations ++ unsets

def keyword? (text : String) : Option String := if all.contains text then some text else none

end Keyword
end ShellTree
