import Packrat.Text.Utf8

/-!
# Spans

A span is a stretch of a text, from a start to an end in bytes.
-/

namespace Packrat

/-- A stretch of a text. -/
structure Span where
  /-- The first byte. -/
  start : Nat
  /-- The byte after the last one. -/
  stop : Nat
deriving DecidableEq

namespace Span

/-- The span of the one character at an offset, empty at the end of the text. There is none where
the text cannot be cut. -/
def point? (text : List Char) (offset : Nat) : Option Span :=
  (Text.dropBytes? offset text).map fun rest =>
    ⟨offset, offset + Text.byteLength (rest.take 1)⟩

/-- The number of bytes, none if the span ends before it starts. -/
def length (s : Span) : Nat :=
  s.stop - s.start

/-- Whether the span covers nothing. -/
def isEmpty (s : Span) : Bool :=
  s.length = 0

/-- The span at the very beginning that covers nothing. -/
def origin : Span :=
  ⟨0, 0⟩

/-- A span as a compact JSON object. -/
def json (s : Span) : String :=
  "\x7b\"start\":" ++ toString s.start ++ ",\"end\":" ++ toString s.stop ++ "\x7d"

end Span

end Packrat
