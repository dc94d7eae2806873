import Packrat.Engine.Fault
import Packrat.Text.Unicode
import Packrat.Text.Utf8

/-!
# Sources and cursors

A source is a text with an identity: two sources with equal text are still two. A cursor stands at
a byte offset of a source and knows the text from there on. Where a cursor stands, its position, is
all that caches and entry markers look at.

Cursors move only through `Cursor.advance`, which refuses to leave the text or to stop inside a
character; `Cursor.Valid` is the property that it keeps.
-/

namespace Packrat

/-- A text with an identity. -/
structure Source where
  /-- Tells this source from every other one. -/
  id : Nat
  /-- The whole text. -/
  text : List Char

/-- The length of the text in bytes. -/
def Source.size (s : Source) : Nat :=
  Text.byteLength s.text

/-- A place in a source. -/
structure Position where
  /-- The identity of the source. -/
  source : Nat
  /-- The offset in bytes. -/
  offset : Nat
deriving DecidableEq

/-- Positions are ordered by source, and by offset in a source. -/
def Position.compare : Position → Position → Ordering :=
  compareLex (compareOn Position.source) (compareOn Position.offset)

instance : Std.TransCmp Position.compare :=
  inferInstanceAs (Std.TransCmp (compareLex (compareOn Position.source)
    (compareOn Position.offset)))

instance : Std.LawfulEqCmp Position.compare where
  eq_of_compare {a b} h := by
    simp only [Position.compare, compareLex, compareOn, Ordering.then_eq_eq,
      Nat.compare_eq_eq] at h
    cases a
    cases b
    simp_all

/-- A place in a source, with the text that lies ahead. -/
structure Cursor where
  /-- The source that is being read. -/
  source : Source
  /-- The offset in bytes. -/
  offset : Nat
  /-- The text from the offset on. -/
  rest : List Char

/-- The cursor before the first character. -/
def Source.start (s : Source) : Cursor :=
  ⟨s, 0, s.text⟩

namespace Cursor

/-- Where the cursor stands. -/
def position (c : Cursor) : Position :=
  ⟨c.source.id, c.offset⟩

/-- Whether no text lies ahead. -/
def isAtEnd (c : Cursor) : Bool :=
  c.rest.isEmpty

/-- Whether the text ahead begins with the given characters. -/
def startsWith (c : Cursor) (token : List Char) : Bool :=
  token.isPrefixOf c.rest

/-- The cursor `bytes` further on, if that is a character boundary of the text. -/
def advance (c : Cursor) (bytes : Nat) : Except Fault Cursor :=
  match Text.dropBytes? bytes c.rest with
  | some rest => .ok ⟨c.source, c.offset + bytes, rest⟩
  | none =>
    if c.offset + bytes < Nat.pow 2 64 then
      .error (.invalidAdvance (c.offset + bytes) c.source.size)
    else .error .offsetOverflow

/-- The text ahead. -/
def remaining (c : Cursor) : String :=
  String.ofList c.rest

/-- A description of the cursor: its offset and the text ahead, quoted. -/
def description (c : Cursor) : String :=
  "Cursor \x7b offset: " ++ toString c.offset ++ ", rest: " ++ Text.quoted c.rest ++ " \x7d"

/-- A cursor is valid when the text ahead of it is what follows the first `offset` bytes of its
source. -/
def Valid (c : Cursor) : Prop :=
  ∃ before, c.source.text = before ++ c.rest ∧ c.offset = Text.byteLength before

/-- A source is read from a valid cursor on. -/
theorem valid_start (s : Source) : s.start.Valid :=
  ⟨[], rfl, rfl⟩

/-- Where an advance succeeds: over a run of characters ahead, of that many bytes. -/
theorem advance_eq_ok_iff {c d : Cursor} {bytes : Nat} :
    c.advance bytes = .ok d ↔
      ∃ run, c.rest = run ++ d.rest ∧ Text.byteLength run = bytes
        ∧ d.source = c.source ∧ d.offset = c.offset + bytes := by
  unfold advance
  constructor
  · intro h
    split at h
    next rest hrest =>
      obtain ⟨run, hcs, hn⟩ := Text.dropBytes?_eq_some_iff.1 hrest
      cases h
      exact ⟨run, hcs, hn, rfl, rfl⟩
    next => split at h <;> cases h
  · rintro ⟨run, hcs, hn, hsource, hoffset⟩
    have hrest : Text.dropBytes? bytes c.rest = some d.rest :=
      Text.dropBytes?_eq_some_iff.2 ⟨run, hcs, hn⟩
    rw [hrest, ← hsource, ← hoffset]

/-- Advancing keeps a cursor valid. -/
theorem Valid.advance {c d : Cursor} {bytes : Nat} (hc : c.Valid) (h : c.advance bytes = .ok d) :
    d.Valid := by
  obtain ⟨before, htext, hoffset⟩ := hc
  obtain ⟨run, hrest, hbytes, hsource, hnext⟩ := advance_eq_ok_iff.1 h
  refine ⟨before ++ run, ?_, ?_⟩
  · rw [hsource, htext, hrest, List.append_assoc]
  · rw [hnext, hoffset, Text.byteLength_append, hbytes]

end Cursor

end Packrat
