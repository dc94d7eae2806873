import Packrat.Engine.Event
import Packrat.Report.Diagnostic
import Packrat.Text.Split

/-!
# What the user sees

While it works the program gives notice of what happens: log records, the status of each file, a
report for each file that is in trouble, and a summary. Notices go to the error stream as text, in
colour if the terminal takes it.

A notice fills one line, unless it quotes a path with a line break in it. A reader of the error
stream goes by the lines that are recognisable as notices.
-/

namespace Packrat

/-- The least urgent severity that is shown at a verbosity. -/
def Severity.ofVerbosity : Nat → Severity
  | 0 => .warn
  | 1 => .info
  | 2 => .debug
  | _ => .trace

/-- Whether events of a severity are shown when `limit` is the least urgent one shown. -/
def Severity.isShownAt (s limit : Severity) : Bool :=
  s.rank ≤ limit.rank

namespace Cli

/-- Something to tell the user. -/
inductive Notice where
  /-- A log record. -/
  | event (e : Event)
  /-- A file was read, or could not be. -/
  | status (ok : Bool) (path : String)
  /-- A report about a file. -/
  | report (d : Diagnostic)
  /-- How many files were checked, and how many failed. -/
  | summary (checked failed : Nat)

/-! ## Colour -/

/-- The colours in use, as the terminal numbers them. -/
inductive Colour where
  | red
  | green
  | yellow
  | magenta
  | cyan
deriving DecidableEq

/-- The digit that selects a colour. -/
def Colour.digit : Colour → String
  | .red => "1"
  | .green => "2"
  | .yellow => "3"
  | .magenta => "5"
  | .cyan => "6"

/-- The colour of a severity. -/
def colourOf : Severity → Colour
  | .error => .red
  | .warn => .yellow
  | .info => .green
  | .debug => .cyan
  | .trace => .magenta

/-- The character that terminal commands begin with. -/
def escape : String :=
  String.singleton (Char.ofNat 27)

/-- Back to plain text. -/
def reset : String :=
  escape ++ "[0m"

/-- Bold text. -/
def bold : String :=
  escape ++ "[1m"

/-- Text in a colour. -/
def foreground (c : Colour) : String :=
  escape ++ "[3" ++ c.digit ++ "m"

/-- A piece of text behind terminal commands, if colour is wanted. -/
def painted (colour : Bool) (commands text : String) : String :=
  if colour then reset ++ commands ++ text else text

/-- Back to plain text, if colour is in use. -/
def unpainted (colour : Bool) : String :=
  if colour then reset else ""

/-! ## Text -/

/-- A text filled up with blanks on the right. -/
def padRight (width : Nat) (s : String) : String :=
  s ++ String.ofList (List.replicate (width - s.length) ' ')

/-- A text filled up with blanks on the left. -/
def padLeft (width : Nat) (s : String) : String :=
  String.ofList (List.replicate (width - s.length) ' ') ++ s

/-- Green if all is well, and red otherwise. -/
def verdict (ok : Bool) : Colour :=
  if ok then .green else .red

/-- What a log record begins with. -/
def recordTag (s : Severity) : String :=
  "[" ++ padRight 5 s.name ++ "]"

/-- What the status of a file begins with. -/
def statusTag (ok : Bool) : String :=
  padLeft 6 (if ok then "ok" else "FAILED")

/-- What stands in a summary after the number of files. -/
def checkedText : String :=
  " file(s) checked, "

/-- What stands in a summary after the number of failures. -/
def failedText : String :=
  " failed"

/-- The text of a notice. A report is shown by its code. -/
def Notice.text (colour : Bool) : Notice → String
  | .event e =>
    painted colour (foreground (colourOf e.severity)) (recordTag e.severity)
      ++ unpainted colour ++ " " ++ e.target ++ ": " ++ e.text ++ "\n"
  | .status ok path =>
    painted colour (bold ++ foreground (verdict ok)) (statusTag ok)
      ++ unpainted colour ++ " " ++ path ++ "\n"
  | .report d => d.code ++ "\n"
  | .summary checked failed =>
    painted colour (bold ++ foreground (verdict (failed = 0)))
      (toString checked ++ checkedText ++ toString failed ++ failedText) ++ "\n"
      ++ unpainted colour

/-- What a report says below its code: the message, the place, and the hint. -/
def Notice.details : Notice → List String
  | .report d =>
    let place := d.place.map fun (source, span) =>
      "  at " ++ source ++ ", bytes " ++ toString span.start ++ " to " ++ toString span.stop
    let help := d.help.map ("  help: " ++ ·)
    ("  " ++ d.display) :: place.toList ++ help.toList
  | _ => []

/-! ## Lines -/

/-- The length of the command that a text begins with, if it does: the escape character, a bracket,
numbers with semicolons between them, and an `m`. -/
def commandLength? : List Char → Option Nat
  | first :: '[' :: cs =>
    let numbers := cs.takeWhile fun c => c.isDigit || c = ';'
    if first = Char.ofNat 27 ∧ (cs.drop numbers.length).head? = some 'm' then
      some (numbers.length + 3)
    else none
  | _ => none

/-- What is seen of a line on a terminal, which is all but its commands, when the first `hidden`
characters belong to a command. -/
def visible (hidden : Nat) : List Char → List Char
  | [] => []
  | c :: cs =>
    match hidden with
    | rest + 1 => visible rest cs
    | 0 =>
      match commandLength? (c :: cs) with
      | some n => visible (n - 1) cs
      | none => c :: visible 0 cs

/-- What follows a text at the beginning of a line. -/
def after? (start : String) (line : List Char) : Option (List Char) :=
  if start.toList.isPrefixOf line then some (line.drop start.length) else none

/-- What follows a number at the beginning of a line. -/
def afterNumber? (line : List Char) : Option (List Char) :=
  if (line.head?.map Char.isDigit).getD false then some (line.dropWhile Char.isDigit) else none

/-- Whether a line reads like a summary. -/
def isSummary (line : List Char) : Bool :=
  (afterNumber? line >>= after? checkedText >>= afterNumber? >>= after? failedText) = some []

/-- Whether a line is recognisable as a notice, or has nothing but commands for the terminal. -/
def isNotice (line : List Char) : Bool :=
  let seen := visible 0 line
  if seen.isEmpty then !line.isEmpty
  else
    (Severity.all.map recordTag ++ [true, false].map statusTag).any
        (fun tag => (after? (tag ++ " ") seen).isSome)
      || (Trouble.all.any fun t => t.code.toList = seen)
      || isSummary seen

/-- The recognisable lines of some notices. Only a line feed ends a line. -/
def noticeLines (colour : Bool) (ns : List Notice) : List String :=
  let text := ns.flatMap fun n => (n.text colour).toList
  ((Text.split '\n' text).filter isNotice).map String.ofList

end Cli

end Packrat
