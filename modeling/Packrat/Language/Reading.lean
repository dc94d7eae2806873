import Packrat.Engine.Run
import Packrat.Language.Grammar
import Packrat.Report.Diagnostic
import Packrat.Text.Unicode

/-!
# Reading whole texts

A text is read in full or not at all. `readWhole` runs a grammar on a text and turns everything but
a match of the whole text into a diagnostic; `readModule` does so with the grammar of modules.
-/

namespace Packrat

/-- How many characters of a text are quoted in a hint. -/
def excerptLength : Nat :=
  40

/-- The beginning of a text, quoted, with dots after it if there is more. -/
def excerpt (cs : List Char) : String :=
  Text.quoted (cs.take excerptLength) ++ if (cs.drop excerptLength).isEmpty then "" else "..."

/-- A hint about text that was not consumed. -/
def unconsumed (cs : List Char) : String :=
  "unconsumed input: " ++ excerpt cs

namespace Workspace

/-- What reading a whole text comes to. -/
abbrev Reading (α : Type) := Except Fault (Except Diagnostic α) × Workspace

/-- The report about a hard failure. -/
def reportFailure (w : Workspace) (name : String) (text : List Char) (f : Failure) :
    Reading Value :=
  let w := w.log (.hardFailure name f.offset)
  match Span.point? text f.offset with
  | some span => (.ok (.error (.located .malformed f.message name span none)), w)
  | none => (.error .badCut, w)

/-- The report about a text that does not begin as it should. -/
def reportNoMatch (w : Workspace) (name : String) (text : String) : Reading Value :=
  let w := w.log (.noMatch name)
  if Text.isBlank text then
    (.ok (.error (.plain .unmatched (name ++ " contains no declarations"))), w)
  else
    match Span.point? text.toList 0 with
    | some span =>
      (.ok (.error (.located .unmatched "input does not match the grammar" name span
        (some (unconsumed text.toList)))), w)
    | none => (.error .badCut, w)

/-- The report about text after the end. -/
def reportLeftOver (w : Workspace) (name : String) (next : Cursor) : Reading Value :=
  let w := w.log (.leftOver name next.offset)
  (.ok (.error (.located .incomplete "unexpected input after the last complete declaration" name
    ⟨next.offset, next.source.size⟩ (some (unconsumed next.rest)))), w)

/-- Read a whole text with a grammar. -/
def readWhole (w : Workspace) (g : Grammar) (name text : String) : Reading Value :=
  match w.parseText g text with
  | (.matched v next, w) =>
    if next.isAtEnd then (.ok (.ok v), w) else w.reportLeftOver name next
  | (.noMatch, w) => w.reportNoMatch name text
  | (.failed f, w) => w.reportFailure name text.toList f
  | (.fault fault, w) => (.error fault, w)

/-- The module that a value stands for. -/
def moduleOf : Value → Module
  | .program m => m
  | _ => ⟨[]⟩

/-- Read a whole text as a module, with a grammar of its own. -/
def readModule (w : Workspace) (name text : String) : Reading Module :=
  match w.build Language.program with
  | (.error fault, w) => (.error fault, w)
  | (.ok g, w) =>
    match w.readWhole g name text with
    | (.ok (.ok v), w) =>
      let m := moduleOf v
      (.ok (.ok m), w.log (.parsed name m.declarations.length))
    | (.ok (.error d), w) => (.ok (.error d), w)
    | (.error fault, w) => (.error fault, w)

end Workspace

end Packrat
