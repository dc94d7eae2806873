import Packrat.Language.Reading
import Packrat.Proofs.Engine.Use
import Packrat.Proofs.Engine.Verdicts

/-!
# From verdicts to reports

Reading a module builds the grammar anew, runs it on a new source and reports what it came to. So
what is reported is a matter of the verdict alone, and that of the text: the workspace has no part
in it.

* **`Workspace.parseText_of_yields`** — the engine comes to the verdict that the grammar yields.
* **`readModule_of_takes`**, **`readModule_of_leftOver`**, **`readModule_of_declines`**,
  **`readModule_of_fails`** — what is reported of each kind of verdict. The places in the reports
  are on character boundaries, so no text is cut where it must not be.
-/

namespace Packrat

/-- The span is that of a stretch of the text, from one character boundary to another. -/
def Span.Covers (span : Span) (text : List Char) : Prop :=
  ∃ before covered rest, text = before ++ (covered ++ rest)
    ∧ span.start = Text.byteLength before ∧ span.stop = Text.byteLength (before ++ covered)

/-- A text can be cut before any rest of it. -/
theorem Text.dropBytes?_suffix {text rest : List Char} (h : rest <:+ text) :
    dropBytes? (byteLength text - byteLength rest) text = some rest := by
  obtain ⟨before, rfl⟩ := h
  rw [byteLength_append, Nat.add_sub_cancel]
  exact dropBytes?_byteLength_append before rest

namespace Workspace

variable {text : String} {v : Value} {rest : List Char} {message : String} {b : Blueprint}

/-- **A verdict of a closed blueprint is what the engine comes to**, in any workspace and without an
alarm. -/
theorem parseText_of_yields (w : Workspace) (hb : b.closed [] = true) {u : Verdict}
    (hu : (Goal.parse [] b text.toList).Yields u) :
    ∃ g w₁ w₂, w.build b = (.ok g, w₁)
      ∧ w₁.parseText g text = (u.outcome ⟨w₁.sources, text.toList⟩, w₂) ∧ w₂.alarms = w.alarms := by
  have hstart : InUse [] [] w := .start w.holds_nil
  obtain ⟨L, hL⟩ := hstart.explained
  obtain ⟨_, g, w₁, hbuild, hgrows, _⟩ := @Legend.makes_build [] b hb L w hL.coherent.below
  have hquiet : w₁.alarms = w.alarms := by rw [alarms, alarms, hgrows.events]
  have huse := (InUse.build hstart hb hbuild).source text
  have hsettles : Settles _ ⟨w₁.sources, text.toList⟩ (w₁.newSource text).2
      (Goal.parse [] b.plain text.toList).course (w₁.parseText g text) :=
    huse.settles_parse List.mem_cons_self (Cursor.valid_start _) List.mem_cons_self
  have hplain : (Goal.parse [] b.plain text.toList).Yields u :=
    (Goal.yields_plain (n := .parse [] b text.toList)).2 hu
  generalize hx : w₁.parseText g text = x at hsettles
  rcases hsettles with ⟨u', hu', houtcome, halarms⟩ | ⟨hm, hloops, _⟩
  · have hsource : (w₁.newSource text).2.alarms = w₁.alarms := rfl
    refine ⟨g, w₁, x.2, hbuild, ?_, halarms.trans (hsource.trans hquiet)⟩
    rw [Goal.yields_unique hplain hu', ← houtcome, hx]
  · -- a goal that yields a verdict does not lead to a loop
    exact absurd ⟨u, hplain⟩ (hloops.of_asks hm).not_yields

theorem parse_program (w : Workspace) {u : Verdict}
    (hu : (Goal.parse [] Language.program text.toList).Yields u) :
    ∃ g w₁ w₂, w.build Language.program = (.ok g, w₁)
      ∧ w₁.parseText g text = (u.outcome ⟨w₁.sources, text.toList⟩, w₂) ∧ w₂.alarms = w.alarms :=
  w.parseText_of_yields rfl hu

/-- What a closed blueprint matches as a whole is read. -/
theorem readWhole_of_takes (hb : b.closed [] = true) (h : Takes [] b text.toList v [])
    (w : Workspace) (name : String) :
    ∃ g w₁, w.build b = (.ok g, w₁) ∧ (w₁.readWhole g name text).1 = .ok (.ok v) := by
  obtain ⟨g, w₁, w₂, hbuild, hparse, _⟩ := w.parseText_of_yields hb h
  refine ⟨g, w₁, hbuild, ?_⟩
  rw [readWhole, hparse]
  rfl

/-- What is read of a whole text with the grammar is what is read as a module. -/
theorem readModule_of_readWhole {w w₁ w₂ : Workspace} {g : Grammar} {name : String}
    {r : Except Diagnostic Value} (hbuild : w.build Language.program = (.ok g, w₁))
    (hread : w₁.readWhole g name text = (.ok r, w₂)) :
    w.readModule name text = match r with
      | .ok v => (.ok (.ok (moduleOf v)), w₂.log (.parsed name (moduleOf v).declarations.length))
      | .error d => (.ok (.error d), w₂) := by
  delta readModule
  simp only [hbuild, hread]
  cases r <;> rfl

theorem readModule_of_takes (h : Takes [] Language.program text.toList v []) (w : Workspace)
    (name : String) :
    ∃ w', w.readModule name text = (.ok (.ok (moduleOf v)), w') ∧ w'.alarms = w.alarms := by
  obtain ⟨g, w₁, w₂, hbuild, hparse, halarms⟩ := w.parse_program h
  refine ⟨w₂.log (.parsed name (moduleOf v).declarations.length), ?_, ?_⟩
  · refine readModule_of_readWhole hbuild (r := .ok v) ?_
    rw [readWhole, hparse]
    rfl
  · rw [alarms_log rfl, halarms]

/-- What is left over begins at a boundary, and the span goes on to the end of the text. -/
theorem readModule_of_leftOver (h : Takes [] Language.program text.toList v rest) (hne : rest ≠ [])
    (w : Workspace) (name : String) :
    ∃ span w', w.readModule name text = (.ok (.error (.located .incomplete
        "unexpected input after the last complete declaration" name span
        (some (unconsumed rest)))), w')
      ∧ w'.alarms = w.alarms
      ∧ span.start = Text.byteLength text.toList - Text.byteLength rest
      ∧ span.stop = Text.byteLength text.toList
      ∧ span.Covers text.toList := by
  obtain ⟨g, w₁, w₂, hbuild, hparse, halarms⟩ := w.parse_program h
  have hend : (Source.before ⟨w₁.sources, text.toList⟩ rest).isAtEnd = false := by
    cases rest with
    | nil => exact absurd rfl hne
    | cons c cs => rfl
  obtain ⟨before, htext⟩ := h.suffix
  refine ⟨⟨Text.byteLength text.toList - Text.byteLength rest, Text.byteLength text.toList⟩,
    w₂.log (.leftOver name (Text.byteLength text.toList - Text.byteLength rest)),
    ?_, ?_, rfl, rfl, before, rest, [], ?_, ?_, ?_⟩
  · refine readModule_of_readWhole hbuild (r := .error _) ?_
    simp only [readWhole, hparse, Verdict.outcome, hend]
    rfl
  · rw [alarms_log rfl, halarms]
  · rw [List.append_nil, htext]
  · rw [← htext, Text.byteLength_append, Nat.add_sub_cancel]
  · rw [htext]

/-- The span of the one character at the place, if there is one. -/
theorem covers_point {text : List Char} (h : rest <:+ text) :
    ∃ span, Span.point? text (Text.byteLength text - Text.byteLength rest) = some span
      ∧ span.start = Text.byteLength text - Text.byteLength rest ∧ span.Covers text := by
  rw [Span.point?, Text.dropBytes?_suffix h]
  obtain ⟨before, rfl⟩ := h
  have hstart :
      Text.byteLength (before ++ rest) - Text.byteLength rest = Text.byteLength before := by
    rw [Text.byteLength_append, Nat.add_sub_cancel]
  rw [hstart]
  refine ⟨_, rfl, rfl, before, rest.take 1, rest.drop 1, ?_, rfl, ?_⟩
  · rw [List.take_append_drop]
  · rw [Text.byteLength_append]

theorem readModule_of_declines (h : Declines [] Language.program text.toList) (w : Workspace)
    (name : String) :
    ∃ d w', w.readModule name text = (.ok (.error d), w') ∧ w'.alarms = w.alarms
      ∧ d.trouble = .unmatched ∧ ∀ span, d.span = some span → span.Covers text.toList := by
  obtain ⟨g, w₁, w₂, hbuild, hparse, halarms⟩ := w.parse_program h
  by_cases hblank : Text.isBlank text = true
  · refine ⟨.plain .unmatched (name ++ " contains no declarations"), w₂.log (.noMatch name),
      ?_, ?_, rfl, nofun⟩
    · refine readModule_of_readWhole hbuild (r := .error _) ?_
      simp only [readWhole, hparse, Verdict.outcome, reportNoMatch, if_pos hblank]
    · rw [alarms_log rfl, halarms]
  · obtain ⟨span, hpoint, _, hcovers⟩ := @covers_point _ text.toList List.suffix_rfl
    rw [Nat.sub_self] at hpoint
    refine ⟨.located .unmatched "input does not match the grammar" name span
      (some (unconsumed text.toList)), w₂.log (.noMatch name), ?_, ?_, rfl, ?_⟩
    · refine readModule_of_readWhole hbuild (r := .error _) ?_
      simp only [readWhole, hparse, Verdict.outcome, reportNoMatch, if_neg hblank, hpoint]
    · rw [alarms_log rfl, halarms]
    · intro span' hspan
      cases hspan
      exact hcovers

/-- A hard failure is reported with its message and the character where it came about. -/
theorem readModule_of_fails
    (h : (Goal.parse [] Language.program text.toList).Yields (.failed message rest)) (w : Workspace)
    (name : String) :
    ∃ span w', w.readModule name text
        = (.ok (.error (.located .malformed message name span none)), w')
      ∧ w'.alarms = w.alarms
      ∧ span.start = Text.byteLength text.toList - Text.byteLength rest
      ∧ span.Covers text.toList := by
  obtain ⟨g, w₁, w₂, hbuild, hparse, halarms⟩ := w.parse_program h
  have hsuffix : rest <:+ text.toList := Goal.Yields.within h
  obtain ⟨span, hpoint, hstart, hcovers⟩ := covers_point hsuffix
  refine ⟨span,
    w₂.log (.hardFailure name (Text.byteLength text.toList - Text.byteLength rest)),
    ?_, ?_, hstart, hcovers⟩
  · have hplace : Span.point? text.toList (Source.before ⟨w₁.sources, text.toList⟩ rest).offset
        = some span := hpoint
    refine readModule_of_readWhole hbuild (r := .error _) ?_
    simp only [readWhole, hparse, Verdict.outcome, reportFailure, hplace]
    rfl
  · rw [alarms_log rfl, halarms]

end Workspace

end Packrat
