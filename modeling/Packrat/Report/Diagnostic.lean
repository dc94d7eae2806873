import Packrat.Report.Span

/-!
# Diagnostics

What is reported to the user about a text or a file: the kind of trouble, a message, and, where
there is one, the place in the text and a hint.
-/

namespace Packrat

/-- The kinds of trouble. -/
inductive Trouble where
  /-- The text is wrong at a place where only one thing could follow. -/
  | malformed
  /-- The text does not begin as it should. -/
  | unmatched
  /-- The text goes on where it should end. -/
  | incomplete
  /-- A file cannot be read. -/
  | unreadable
deriving DecidableEq

namespace Trouble

/-- The short name of a kind. -/
def name : Trouble → String
  | .malformed => "syntax"
  | .unmatched => "no-match"
  | .incomplete => "incomplete"
  | .unreadable => "io"

/-- What a message of this kind is introduced by. -/
def heading : Trouble → String
  | .malformed => "Syntax error: "
  | .unmatched => "Parse failed: "
  | .incomplete => "Parse failed: "
  | .unreadable => "I/O error: "

/-- The code that heads a report of this kind. -/
def code (t : Trouble) : String :=
  "gthunk::" ++ t.name

/-- Every kind of trouble. -/
def all : List Trouble :=
  [.malformed, .unmatched, .incomplete, .unreadable]

end Trouble

/-- A report about a text or a file. -/
structure Diagnostic where
  /-- The kind of trouble. -/
  trouble : Trouble
  /-- What is wrong. -/
  message : String
  /-- The name of the source and the place in it. -/
  place : Option (String × Span)
  /-- A hint. -/
  help : Option String
  /-- What the system said, if the trouble came from there. -/
  cause : Option String

namespace Diagnostic

/-- A report without a place. -/
def plain (trouble : Trouble) (message : String) : Diagnostic :=
  ⟨trouble, message, none, none, none⟩

/-- A report about a place in a source. -/
def located (trouble : Trouble) (message source : String) (span : Span)
    (help : Option String) : Diagnostic :=
  ⟨trouble, message, some (source, span), help, none⟩

/-- A report about a file that cannot be read. -/
def unreadable (path cause : String) : Diagnostic :=
  ⟨.unreadable, "cannot read " ++ path ++ ": " ++ cause, none, none, some cause⟩

/-- The same report with another hint. -/
def withHelp (d : Diagnostic) (help : String) : Diagnostic :=
  { d with help := some help }

/-- The place in the text. -/
def span (d : Diagnostic) : Option Span :=
  d.place.map (·.2)

/-- The name of the source. -/
def source (d : Diagnostic) : Option String :=
  d.place.map (·.1)

/-- The message with its heading. -/
def display (d : Diagnostic) : String :=
  d.trouble.heading ++ d.message

/-- The code that heads a report. -/
def code (d : Diagnostic) : String :=
  d.trouble.code

/-- The label at the place: its text, start and length. -/
def label (d : Diagnostic) : Option (String × Nat × Nat) :=
  d.span.map fun s => (d.message, s.start, s.length)

end Diagnostic

end Packrat
