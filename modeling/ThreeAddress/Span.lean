/-!
# Spans

Where a thing stands in a source text: a half-open range of byte offsets, counted in the UTF-8
encoding of that text. Tokens, expressions, statements and instructions all carry one, and an
error points with one.
-/

set_option autoImplicit false

namespace ThreeAddress

/-- A half-open range of byte offsets into a source text. -/
structure Span where
  /-- The first byte of the range. -/
  start : Nat
  /-- The byte after the last one. -/
  stop : Nat
  deriving DecidableEq, Repr, Inhabited

namespace Span

/-- The range that begins with `a` and ends with `b`: what two parts and all between them cover. -/
def through (a b : Span) : Span := ⟨a.start, b.stop⟩

/-- The empty range at an offset. -/
def point (offset : Nat) : Span := ⟨offset, offset⟩

end Span

end ThreeAddress
