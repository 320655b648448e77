import SqlAtlas.Text.Bytes

namespace SqlAtlas

/-- A stretch of a script. Lines count from 1. Offsets count bytes and both ends belong to the
stretch; one that stops before it starts is empty. -/
structure Span where
  startLine : Nat
  stopLine : Nat
  start : Nat
  stop : Nat
  deriving DecidableEq, Repr, Inhabited

namespace Span

def text (span : Span) (script : String) : String :=
  (Text.slice? span.start (span.stop + 1) script).getD ""

def contains (span : Span) (offset : Nat) : Bool :=
  span.start ≤ offset && offset ≤ span.stop

@[simp] theorem contains_iff {span : Span} {offset : Nat} :
    span.contains offset = true ↔ span.start ≤ offset ∧ offset ≤ span.stop := by
  simp [contains]

def encloses (span other : Span) : Bool :=
  span.start ≤ other.start && other.stop ≤ span.stop

def through (first last : Span) : Span :=
  ⟨first.startLine, last.stopLine, first.start, last.stop⟩

def display (span : Span) : String :=
  s!"{span.startLine}:{span.start}..{span.stopLine}:{span.stop}"

end Span

end SqlAtlas
