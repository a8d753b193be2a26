/-!
# Source spans

A span is a range of the source text, given by where it starts and how long it is. Spans are carried
along for diagnostics; no analysis reads them.
-/

set_option autoImplicit false
set_option relaxedAutoImplicit false

namespace OwnershipFlow

/-- A range of the source text. -/
structure Span where
  offset : Nat
  length : Nat
  deriving DecidableEq, Repr

namespace Span

/-- The span of what stands nowhere in the source. -/
def zero : Span := ⟨0, 0⟩

end Span

end OwnershipFlow
