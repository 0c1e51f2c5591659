import ShellTree.Fault

/-!
This module contains spans: half-open ranges of byte offsets into a source text.
-/

namespace ShellTree

/-- The byte offsets from `start` up to, and not including, `stop`. -/
structure Span where
  start : Nat
  stop : Nat
  start_le_stop : start ≤ stop := by omega
deriving DecidableEq, Repr

namespace Span

def empty (offset : Nat) : Span := ⟨offset, offset, Nat.le_refl offset⟩

def ofWidth (start width : Nat) : Span := ⟨start, start + width, Nat.le_add_right start width⟩

@[simp]
theorem empty_start (offset : Nat) : (empty offset).start = offset := rfl

@[simp]
theorem empty_stop (offset : Nat) : (empty offset).stop = offset := rfl

@[simp]
theorem ofWidth_start (start width : Nat) : (ofWidth start width).start = start := rfl

@[simp]
theorem ofWidth_stop (start width : Nat) : (ofWidth start width).stop = start + width := rfl

/-- The span between two offsets, which must be in order. -/
def between (start stop : Nat) : Except Fault Span :=
  if h : start ≤ stop then .ok ⟨start, stop, h⟩ else .error .reversedSpan

def size (s : Span) : Nat := s.stop - s.start

def isEmpty (s : Span) : Bool := s.start == s.stop

/-- `t` lies inside `s`; an empty span lies inside also at either end. -/
def contains (s t : Span) : Bool := s.start ≤ t.start && t.stop ≤ s.stop

/-- Each of the two starts before the other ends. An empty span overlaps what surrounds it. -/
def overlaps (s t : Span) : Bool := s.start < t.stop && t.start < s.stop

def display (s : Span) : String := toString s.start ++ ".." ++ toString s.stop

end Span

end ShellTree
