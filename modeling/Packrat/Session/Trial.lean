import Packrat.Engine.Run

/-!
# Operations and trials

An operation builds a grammar for itself and runs it; until the operation is over, the grammar keeps
its rules alive. Then it is let go, and the rules that nobody else owns are retired.

A trial is an operation that runs its grammar on some texts, one after the other, each as a source
of its own. What one run leaves behind, in caches, counters and rules, the next one finds.
-/

namespace Packrat.Workspace

/-- Build a grammar for the running operation. -/
def buildFor (w : Workspace) (p : Blueprint) : Except Fault Grammar × Workspace :=
  match w.build p with
  | (.ok g, w) => (.ok g, { w with scratch := [g] })
  | (.error fault, w) => (.error fault, w)

/-- Let go of the running operation's grammars, and retire the rules that have lost their last
owner. -/
def finish (w : Workspace) : Workspace :=
  { w with scratch := [] }.settle

/-- Run a grammar on one text after another. -/
def parseTexts (g : Grammar) : List String → Workspace → List Outcome × Workspace
  | [], w => ([], w)
  | text :: texts, w =>
    let (outcome, w) := w.parseText g text
    let (outcomes, w) := parseTexts g texts w
    (outcome :: outcomes, w)

/-- Build a grammar and run it on some texts. -/
def trial (w : Workspace) (b : Blueprint) (texts : List String) :
    Except Fault (List Outcome) × Workspace :=
  match w.buildFor b with
  | (.error fault, w) => (.error fault, w)
  | (.ok g, w) =>
    let (outcomes, w) := parseTexts g texts w
    (.ok outcomes, w)

end Packrat.Workspace
