import Packrat.Engine.Build

/-!
# Running grammars

Running a grammar at a cursor gives an outcome and the workspace after it. A match has a value and
the cursor behind it; no match leaves the choice to others; a hard failure goes through every
parser unchanged up to the caller, and so does a fault.

`Grammar.run` follows the structure of a grammar and is told how to parse a rule. `Rule.parse` says
how: the rule may refuse to be entered; otherwise its definition, built now if need be, is run with
the rule marked as entered, and the marker is put back whatever the outcome, also if it turns out
that the rule is still being built. Rules nest at most once per rule and position, which bounds the
nesting; `Workspace.parse` provides for that much.
-/

namespace Packrat

/-- A hard failure: what was expected, and where. -/
structure Failure where
  /-- What is reported. -/
  message : String
  /-- The offset in bytes. -/
  offset : Nat
deriving DecidableEq

/-- The result of running a grammar. -/
inductive Outcome where
  /-- A match, with its value and the cursor behind it. -/
  | matched (value : Value) (next : Cursor)
  /-- No match here. -/
  | noMatch
  /-- The text is wrong, whatever else could be tried. -/
  | failed (failure : Failure)
  /-- A contract was broken. -/
  | fault (fault : Fault)

/-- A run: an outcome, and the workspace after it. -/
abbrev Run := Workspace → Outcome × Workspace

namespace Run

/-- A run with a known outcome. -/
def done (o : Outcome) : Run :=
  fun w => (o, w)

/-- Go on after a match; every other outcome stands. -/
def andThen (r : Run) (next : Value → Cursor → Run) : Run := fun w =>
  match r w with
  | (.matched v c, w) => next v c w
  | other => other

/-- Go on after no match; every other outcome stands. -/
def orElse (r : Run) (next : Run) : Run := fun w =>
  match r w with
  | (.noMatch, w) => next w
  | other => other

@[simp] theorem done_apply (o : Outcome) (w : Workspace) : done o w = (o, w) :=
  rfl

/-- A sequel to a known match starts there. -/
@[simp] theorem andThen_done_matched (v : Value) (c : Cursor) (next : Value → Cursor → Run) :
    (done (.matched v c)).andThen next = next v c :=
  rfl

/-- No sequel changes a hard failure. -/
@[simp] theorem andThen_done_failed (f : Failure) (next : Value → Cursor → Run) :
    (done (.failed f)).andThen next = done (.failed f) :=
  rfl

/-- No alternative changes a hard failure. -/
@[simp] theorem orElse_done_failed (f : Failure) (next : Run) :
    (done (.failed f)).orElse next = done (.failed f) :=
  rfl

end Run

namespace Cursor

/-- A match that ends `bytes` further on. -/
def matchTo (c : Cursor) (value : Value) (bytes : Nat) : Outcome :=
  match c.advance bytes with
  | .ok next => .matched value next
  | .error fault => .fault fault

/-- Match a token at the cursor. -/
def literal (c : Cursor) (token : String) : Outcome :=
  if c.startsWith token.toList then c.matchTo (.text token) (Text.byteLength token.toList)
  else .noMatch

/-- Match the longest run of members of a class at the cursor: so many bytes are cut from the text
ahead. -/
def chars (c : Cursor) (cls : CharClass) : Outcome :=
  let bytes := cls.runLength c.rest
  if bytes = 0 then .noMatch
  else
    match Text.takeBytes? bytes c.rest with
    | some run => c.matchTo (.text (String.ofList run)) bytes
    | none => .fault .badCut

/-- What is cut off is the run: its bytes end where its characters do. -/
theorem chars_eq (c : Cursor) (cls : CharClass) :
    c.chars cls =
      if (cls.leadingRun c.rest).isEmpty then .noMatch
      else c.matchTo (.text (String.ofList (cls.leadingRun c.rest)))
        (Text.byteLength (cls.leadingRun c.rest)) := by
  have hcut : Text.takeBytes? (Text.byteLength (cls.leadingRun c.rest)) c.rest
      = some (cls.leadingRun c.rest) := by
    have hcut := Text.takeBytes?_byteLength_append (cls.leadingRun c.rest) (cls.afterRun c.rest)
    rwa [cls.leadingRun_append_afterRun] at hcut
  simp only [chars, cls.runLength_eq, hcut]
  by_cases hrun : cls.leadingRun c.rest = []
  · rw [hrun]
    rfl
  · rw [if_neg fun hzero => hrun (Text.eq_nil_of_byteLength_eq_zero hzero),
      if_neg fun hempty => hrun (List.isEmpty_iff.1 hempty)]

/-- Neither a token nor a class fails hard. -/
theorem literal_ne_failed (c : Cursor) (token : String) (f : Failure) :
    c.literal token ≠ .failed f := by
  unfold literal matchTo
  split
  · split <;> simp
  · simp

theorem chars_ne_failed (c : Cursor) (cls : CharClass) (f : Failure) :
    c.chars cls ≠ .failed f := by
  rw [chars_eq]
  unfold matchTo
  split
  · simp
  · split <;> simp

/-- Fail hard at the cursor. -/
def fail (c : Cursor) (message : String) : Outcome :=
  .failed ⟨message, c.offset⟩

end Cursor

/-- Repeat a parser from a cursor on, with the values so far in reverse. Each round must move the
cursor, so there are fewer rounds than characters. -/
def repeatFrom (parser : Cursor → Run) : Nat → List Value → Cursor → Run
  | 0, _, _ => .done (.fault .exhausted)
  | rounds + 1, values, c => fun w =>
    match parser c w with
    | (.matched v next, w) =>
      if next.position = c.position then (.fault (.stalled c.offset), w)
      else repeatFrom parser rounds (v :: values) next w
    | (.noMatch, w) =>
      if values.isEmpty then (.noMatch, w) else (.matched (.list values.reverse) c, w)
    | other => other

/-- Answer from a cache, or run a parser and let the cache remember a match or the lack of one. -/
def viaCache (cache : CacheId) (c : Cursor) (parser : Run) : Run := fun w =>
  match w.cachedAt? cache c.position with
  | some (some (v, next)) => (.matched v next, w.log (.cacheHit cache c.position))
  | some none => (.noMatch, w.log (.cacheHit cache c.position))
  | none =>
    match parser w with
    | (.matched v next, w) =>
      (.matched v next,
        (w.log (.cacheMiss cache c.position)).remember cache c.position (some (v, next)))
    | (.noMatch, w) =>
      (.noMatch, (w.log (.cacheMiss cache c.position)).remember cache c.position none)
    | other => other

/-- Run a grammar at a cursor, given how rules are parsed. -/
def Grammar.run (parseRule : Hold → RuleId → Cursor → Run) : Grammar → Cursor → Run
  | .literal token, c => .done (c.literal token)
  | .chars cls, c => .done (c.chars cls)
  | .accept value, c => .done (.matched value c)
  | .map f p, c => (run parseRule p c).andThen fun v next => .done (.matched (f v) next)
  | .tryMap f p, c => (run parseRule p c).andThen fun v next =>
    match f v with
    | .ok u => .done (.matched u next)
    | .error message => .done (c.fail message)
  | .seq a b, c => (run parseRule a c).andThen fun u middle =>
    (run parseRule b middle).andThen fun v next => .done (.matched (.pair u v) next)
  | .alt a b, c => (run parseRule a c).orElse (run parseRule b c)
  | .rep p, c => repeatFrom (run parseRule p) (c.rest.length + 1) [] c
  | .required message p, c => (run parseRule p c).orElse fun w =>
    (c.fail message, w.log (.requirementFailed c.offset message))
  | .memo cache p, c => viaCache cache c (run parseRule p c)
  | .count name p, c => fun w => run parseRule p c (w.countCall name)
  | .rule hold id, c => parseRule hold id c

/-- Parse a rule at a cursor, with at most the given number of rules inside each other. -/
def Rule.parse : Nat → Hold → RuleId → Cursor → Run
  | 0, _, _, _ => .done (.fault .exhausted)
  | depth + 1, hold, id, c => fun w =>
    match w.refusal? hold id c with
    | some refusal => (c.fail refusal.message, w.logRefusal id c refusal)
    | none =>
      let before := w.rules[id]?.bind Rule.entered
      match (w.enter id c.position).definition id with
      | (.ok (some g), w) =>
        let (outcome, w) := g.run (Rule.parse depth) c w
        (outcome, w.leave id before)
      | (.ok none, w) => (c.fail Refusal.underConstruction.message, w.leave id before)
      | (.error fault, w) => (.fault fault, w.leave id before)

namespace Workspace

/-- How deep rules can nest in a parse from a cursor: each rule once at each position. -/
def depthBudget (w : Workspace) (c : Cursor) : Nat :=
  w.ruleBudget * (c.rest.length + 1) + 1

/-- Run a grammar at a cursor. -/
def parse (w : Workspace) (g : Grammar) (c : Cursor) : Outcome × Workspace :=
  g.run (Rule.parse (w.depthBudget c)) c w

/-- Run a grammar from the beginning of a new source. -/
def parseText (w : Workspace) (g : Grammar) (text : String) : Outcome × Workspace :=
  let (source, w) := w.newSource text
  w.parse g source.start

end Workspace

end Packrat
