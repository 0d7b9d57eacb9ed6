/-!
# Spans

A span is a half-open range of token positions, written `start..stop`. It may be empty or inverted.

* `Span`, with its total order `Span.cmp`.
* `Span.contains`, `Span.overlaps`.
-/

namespace Categorial

/-- The token positions from `start` up to, but not including, `stop`. -/
structure Span where
  start : Nat
  stop : Nat
deriving DecidableEq, Repr, Inhabited

namespace Span

/-- The span holds no position. -/
def isEmpty (s : Span) : Bool := s.stop ≤ s.start

/-- The number of positions; an inverted span has none to count. -/
def length? (s : Span) : Option Nat := if s.start ≤ s.stop then some (s.stop - s.start) else none

/-- The number of positions, zero for an inverted span. -/
def length (s : Span) : Nat := s.stop - s.start

/-- `t` begins and ends within `s`. -/
def contains (s t : Span) : Bool := s.start ≤ t.start && t.stop ≤ s.stop

/-- Each span begins before the other ends. -/
def overlaps (s t : Span) : Bool := s.start < t.stop && t.start < s.stop

/-- By start, then by stop. -/
def cmp (s t : Span) : Ordering := (compare s.start t.start).then (compare s.stop t.stop)

/-- The written form. -/
def text (s : Span) : String := toString s.start ++ ".." ++ toString s.stop

/-- The tokens of a span that lies in the sentence. -/
def tokens (s : Span) (sentence : List String) : List String :=
  (sentence.drop s.start).take (s.stop - s.start)

end Span

end Categorial
