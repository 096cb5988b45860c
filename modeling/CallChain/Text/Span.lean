/-!
# Spans

A span is a stretch of a text, given by the byte offsets of its start and of its end in UTF-8. The
end is not part of it, so a span whose ends agree is empty and stands between two characters.
-/

namespace CallChain

structure Span where
  start : Nat
  stop : Nat
deriving DecidableEq, Repr

namespace Span

/-- The empty span at an offset. -/
def emptyAt (offset : Nat) : Span := ⟨offset, offset⟩

/-- The position of names that were not read from a text. -/
def unplaced : Span := emptyAt 0

end Span
end CallChain
