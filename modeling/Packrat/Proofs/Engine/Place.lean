import Mathlib.Data.List.Infix
import Packrat.Engine.Run

/-!
# Places in a text

A valid cursor is fixed by its source and by the text that lies ahead of it: the offset is what
the source has and the rest has not. So a place in a source is a suffix of its text, and
`Source.before` is the cursor that stands there. On such cursors

* **positions tell places apart** (`position_before_inj`): two suffixes of one text at one offset
  are the same suffix, because every character has a byte at least;
* **moving is dropping** (`advance_before`): advancing over a run of characters ahead leaves the
  cursor before what follows the run.
-/

namespace Packrat

/-! ## Widths of suffixes

Every character takes one byte at least, so a rest of a text is known by its width. -/

namespace Text

theorem byteLength_le_of_suffix {cs ds : List Char} (h : ds <:+ cs) :
    byteLength ds ≤ byteLength cs := by
  obtain ⟨run, rfl⟩ := h
  rw [byteLength_append]
  omega

/-- A suffix with all the bytes is the whole text. -/
theorem eq_of_suffix_of_byteLength_eq {cs ds : List Char} (h : ds <:+ cs)
    (hlen : byteLength ds = byteLength cs) : ds = cs := by
  obtain ⟨run, rfl⟩ := h
  rw [byteLength_append] at hlen
  have hrun : run = [] := eq_nil_of_byteLength_eq_zero (by omega)
  rw [hrun, List.nil_append]

end Text

/-! ## Cursors by what lies ahead

For proofs it is handy to have a place given by the text ahead, since that is what parsers look at.
Offset and position can be told from it. -/

/-- The cursor of a source that has the given text ahead. -/
def Source.before (s : Source) (rest : List Char) : Cursor :=
  ⟨s, s.size - Text.byteLength rest, rest⟩

@[simp] theorem Source.before_rest (s : Source) (rest : List Char) :
    (s.before rest).rest = rest := rfl

namespace Cursor

theorem Valid.rest_suffix {c : Cursor} (hc : c.Valid) : c.rest <:+ c.source.text := by
  obtain ⟨before, htext, _⟩ := hc
  exact ⟨before, htext.symm⟩

/-- A valid cursor is the one before the text that lies ahead of it. -/
theorem Valid.eq_before {c : Cursor} (hc : c.Valid) : c.source.before c.rest = c := by
  obtain ⟨before, htext, hoffset⟩ := hc
  have hsize : c.source.size = Text.byteLength before + Text.byteLength c.rest := by
    rw [Source.size, htext, Text.byteLength_append]
  have hback : c.source.size - Text.byteLength c.rest = c.offset := by omega
  rw [Source.before, hback]

end Cursor

/-- A cursor can stand before every rest of a text. -/
theorem Source.valid_before {s : Source} {rest : List Char} (h : rest <:+ s.text) :
    (s.before rest).Valid := by
  obtain ⟨run, hrun⟩ := h
  refine ⟨run, hrun.symm, ?_⟩
  show s.size - Text.byteLength rest = Text.byteLength run
  rw [Source.size, ← hrun, Text.byteLength_append]
  omega

/-- Valid cursors at one offset of texts that are equal have the same text ahead. -/
theorem Cursor.Valid.rest_eq {c d : Cursor} (hc : c.Valid) (hd : d.Valid)
    (htext : d.source.text = c.source.text) (hoffset : d.offset = c.offset) :
    d.rest = c.rest := by
  obtain ⟨a, ha, hca⟩ := hc
  obtain ⟨b, hb, hdb⟩ := hd
  have hsplit : b ++ d.rest = a ++ c.rest := by rw [← hb, htext, ha]
  -- of two suffixes of one text one is a suffix of the other; they have the same bytes
  have hlen : Text.byteLength d.rest = Text.byteLength c.rest := by
    have := congrArg Text.byteLength hsplit
    rw [Text.byteLength_append, Text.byteLength_append] at this
    omega
  have hds : d.rest <:+ a ++ c.rest := ⟨b, hsplit⟩
  have hcs : c.rest <:+ a ++ c.rest := ⟨a, rfl⟩
  rcases List.suffix_or_suffix_of_suffix hds hcs with h | h
  · exact Text.eq_of_suffix_of_byteLength_eq h hlen
  · exact (Text.eq_of_suffix_of_byteLength_eq h hlen.symm).symm

/-- **Positions tell places apart.** -/
theorem Source.position_before_inj {s : Source} {cs ds : List Char} (hcs : cs <:+ s.text)
    (hds : ds <:+ s.text) : (s.before cs).position = (s.before ds).position ↔ cs = ds := by
  constructor
  · intro h
    have hoffset : (s.before cs).offset = (s.before ds).offset := congrArg Position.offset h
    exact Cursor.Valid.rest_eq (valid_before hds) (valid_before hcs) rfl hoffset
  · rintro rfl
    rfl

/-- **Moving is dropping.** -/
theorem Source.advance_before {s : Source} {run rest : List Char}
    (h : run ++ rest <:+ s.text) :
    (s.before (run ++ rest)).advance (Text.byteLength run) = .ok (s.before rest) := by
  refine Cursor.advance_eq_ok_iff.2 ⟨run, rfl, rfl, rfl, ?_⟩
  have hle := Text.byteLength_le_of_suffix h
  rw [Text.byteLength_append] at hle
  show s.size - Text.byteLength rest
    = s.size - Text.byteLength (run ++ rest) + Text.byteLength run
  rw [Source.size, Text.byteLength_append]
  omega

end Packrat
