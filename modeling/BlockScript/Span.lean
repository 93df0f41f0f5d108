/-!
# Spans

A span is a half-open range of byte offsets into one source. Tokens, tree nodes and faults all
carry one. `Span.textIn` is the text that stands there.
-/

namespace BlockScript

/-- The bytes from `start` up to, and without, `stop`. -/
structure Span where
  start : Nat
  stop : Nat
deriving DecidableEq, Repr

namespace Span

/-- The span from the start of one span to the end of another. -/
def through (first last : Span) : Span := ⟨first.start, last.stop⟩

@[simp] theorem through_start (a b : Span) : (a.through b).start = a.start := rfl

@[simp] theorem through_stop (a b : Span) : (a.through b).stop = b.stop := rfl

/-- The empty span at an offset. -/
def empty (offset : Nat) : Span := ⟨offset, offset⟩

/-- The text of a source at a place. -/
def textIn (span : Span) (source : String) : String :=
  String.Pos.Raw.extract source ⟨span.start⟩ ⟨span.stop⟩

/-- Order by start, then by end. -/
def precedes (a b : Span) : Bool :=
  a.start < b.start || (a.start == b.start && a.stop ≤ b.stop)

end Span

end BlockScript
