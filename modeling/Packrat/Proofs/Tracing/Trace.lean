import Mathlib.Data.List.Perm.Basic
import Packrat.Proofs.Engine.Frame

/-!
# Traces of runs

A run shows its outcome and the workspace after it, and nothing of the parsers that were called on
the way. The engine is written down once more, with a *trace*: a mark for every call of a parser and
for every return, and for every cache that has no answer and that gets one.

* **`Workspace.trace`** — the marks of a parse, in the order of time.
* **`Workspace.traced_fst`** — with the trace, the engine comes to the same outcome and workspace.

Trying out a rule during its own construction is no part of the parse, and is not in the trace.
-/

namespace Packrat

/-! ## Marks

A trace is a list of marks, oldest first. Caches and counters are each told about by marks of their
own, which are what the following functions look for. -/

/-- Something that happens in a run. -/
inductive Mark where
  | called (g : Grammar) (c : Cursor)
  -- a cache has no answer, so the parser behind it is called
  | evaluated (k : CacheId) (p : Position)
  | stored (k : CacheId) (p : Position)
  | counted (name : String)
  | returned (g : Grammar) (c : Cursor) (o : Outcome)

namespace Mark

/-- The failure that a parser returns. -/
def failure? : Mark → Option Failure
  | .returned _ _ (.failed f) => some f
  | _ => none

/-- Where the parser behind the cache is called. -/
def evaluated? (k : CacheId) : Mark → Option Position
  | .evaluated i p => if i = k then some p else none
  | _ => none

/-- Where the cache gets an answer. -/
def stored? (k : CacheId) : Mark → Option Position
  | .stored i p => if i = k then some p else none
  | _ => none

/-- Whether a call is counted under the name. -/
def counts (name : String) : Mark → Bool
  | .counted n => n == name
  | _ => false

end Mark

/-- Where the parser behind a cache is called. -/
def evaluations (k : CacheId) (ms : List Mark) : List Position :=
  ms.filterMap (Mark.evaluated? k)

/-- Where a cache gets an answer. -/
def stores (k : CacheId) (ms : List Mark) : List Position :=
  ms.filterMap (Mark.stored? k)

/-- How many calls are counted under a name. -/
def calls (name : String) (ms : List Mark) : Nat :=
  ms.countP (Mark.counts name)

section

variable (k : CacheId) (name : String) (ms ms' : List Mark)

/-- What is read off a trace is read off its parts one after the other. -/
@[simp] theorem evaluations_append :
    evaluations k (ms ++ ms') = evaluations k ms ++ evaluations k ms' :=
  List.filterMap_append

@[simp] theorem stores_append : stores k (ms ++ ms') = stores k ms ++ stores k ms' :=
  List.filterMap_append

@[simp] theorem calls_append : calls name (ms ++ ms') = calls name ms + calls name ms' :=
  List.countP_append

variable (g : Grammar) (c : Cursor) (o : Outcome) (i : CacheId) (p : Position)

/-- Calls and returns are marks of their own, so what is between them is all that caches and
counters show. -/
@[simp] theorem evaluations_around :
    evaluations k (.called g c :: (ms ++ [.returned g c o])) = evaluations k ms := by
  show evaluations k (ms ++ _) = _
  rw [evaluations_append]
  exact List.append_nil _

@[simp] theorem stores_around :
    stores k (.called g c :: (ms ++ [.returned g c o])) = stores k ms := by
  show stores k (ms ++ _) = _
  rw [stores_append]
  exact List.append_nil _

@[simp] theorem calls_around :
    calls name (.called g c :: (ms ++ [.returned g c o])) = calls name ms := by
  show List.countP _ _ = _
  rw [List.countP_cons_of_neg (by simp [Mark.counts])]
  exact calls_append name ms _

/-- The mark shows up for its own cache, and for no other one. -/
@[simp] theorem evaluations_evaluated :
    evaluations k (.evaluated i p :: ms)
      = if i = k then p :: evaluations k ms else evaluations k ms := by
  show List.filterMap _ _ = _
  rw [List.filterMap_cons, Mark.evaluated?]
  by_cases h : i = k
  · rw [if_pos h, if_pos h]
    rfl
  · rw [if_neg h, if_neg h]
    rfl

@[simp] theorem stores_evaluated : stores k (.evaluated i p :: ms) = stores k ms :=
  rfl

@[simp] theorem evaluations_stored : evaluations k [.stored i p] = [] :=
  rfl

/-- Where an answer is stored, it is stored in one cache. -/
@[simp] theorem stores_stored : stores k [.stored i p] = if i = k then [p] else [] := by
  show List.filterMap _ _ = _
  rw [List.filterMap_cons, Mark.stored?]
  by_cases h : i = k
  · rw [if_pos h, if_pos h]
    rfl
  · rw [if_neg h, if_neg h]
    rfl

@[simp] theorem calls_evaluated : calls name (.evaluated i p :: ms) = calls name ms :=
  List.countP_cons_of_neg (by simp [Mark.counts])

@[simp] theorem calls_stored : calls name [.stored i p] = 0 :=
  rfl

@[simp] theorem evaluations_counted (m : String) :
    evaluations k (.counted m :: ms) = evaluations k ms :=
  rfl

@[simp] theorem stores_counted (m : String) : stores k (.counted m :: ms) = stores k ms :=
  rfl

/-- One more call is counted under the name of the mark. -/
@[simp] theorem calls_counted (m : String) :
    calls name (.counted m :: ms) = calls name ms + if m = name then 1 else 0 := by
  show List.countP _ _ = _
  rw [List.countP_cons]
  simp [Mark.counts, calls]

end

/-! ## The engine with a trace

Every way in which runs are put together is written down once more. A trace is never looked at while
it is made, so nothing can depend on it. -/

/-- A run with its trace. -/
abbrev Traced := Workspace → (Outcome × Workspace) × List Mark

namespace Traced

/-- A run that does nothing has no marks. -/
def done (o : Outcome) : Traced :=
  fun w => ((o, w), [])

/-- Going on after a match, the marks of the sequel come last. -/
def andThen (r : Traced) (next : Value → Cursor → Traced) : Traced := fun w =>
  match r w with
  | ((.matched v c, w), ms) => ((next v c w).1, ms ++ (next v c w).2)
  | other => other

/-- An alternative adds its marks to those of the parser that did not match. -/
def orElse (r next : Traced) : Traced := fun w =>
  match r w with
  | ((.noMatch, w), ms) => ((next w).1, ms ++ (next w).2)
  | other => other

/-- The marks of the rounds, one after the other. -/
def repeatFrom (parser : Cursor → Traced) : Nat → List Value → Cursor → Traced
  | 0, _, _ => .done (.fault .exhausted)
  | rounds + 1, values, c => fun w =>
    match parser c w with
    | ((.matched v next, w), ms) =>
      if next.position = c.position then ((.fault (.stalled c.offset), w), ms)
      else
        ((repeatFrom parser rounds (v :: values) next w).1,
          ms ++ (repeatFrom parser rounds (v :: values) next w).2)
    | ((.noMatch, w), ms) =>
      if values.isEmpty then ((.noMatch, w), ms)
      else ((.matched (.list values.reverse) c, w), ms)
    | other => other

/-- An answer from the cache leaves no mark. Otherwise the parser behind it is called, and where
that has an answer the cache stores it. -/
def viaCache (k : CacheId) (c : Cursor) (parser : Traced) : Traced := fun w =>
  match w.cachedAt? k c.position with
  | some (some (v, next)) => ((.matched v next, w.log (.cacheHit k c.position)), [])
  | some none => ((.noMatch, w.log (.cacheHit k c.position)), [])
  | none =>
    match parser w with
    | ((.matched v next, w), ms) =>
      ((.matched v next,
        (w.log (.cacheMiss k c.position)).remember k c.position (some (v, next))),
        .evaluated k c.position :: (ms ++ [.stored k c.position]))
    | ((.noMatch, w), ms) =>
      ((.noMatch, (w.log (.cacheMiss k c.position)).remember k c.position none),
        .evaluated k c.position :: (ms ++ [.stored k c.position]))
    | (other, ms) => (other, .evaluated k c.position :: ms)

/-- What happens in a run of the grammar, between its call and its return. -/
def around (g : Grammar) (c : Cursor) (r : Traced) : Traced := fun w =>
  ((r w).1, .called g c :: ((r w).2 ++ [.returned g c (r w).1.1]))

end Traced

/-- Run a grammar with its trace. In all else this is `Grammar.run`. -/
def Grammar.traced (tracedRule : Hold → RuleId → Cursor → Traced) : Grammar → Cursor → Traced
  | .literal token, c => .around (.literal token) c (.done (c.literal token))
  | .chars cls, c => .around (.chars cls) c (.done (c.chars cls))
  | .accept value, c => .around (.accept value) c (.done (.matched value c))
  | .map f p, c => .around (.map f p) c <|
    (traced tracedRule p c).andThen fun v next => .done (.matched (f v) next)
  | .tryMap f p, c => .around (.tryMap f p) c <|
    (traced tracedRule p c).andThen fun v next =>
      match f v with
      | .ok u => .done (.matched u next)
      | .error message => .done (c.fail message)
  | .seq a b, c => .around (.seq a b) c <|
    (traced tracedRule a c).andThen fun u middle =>
      (traced tracedRule b middle).andThen fun v next => .done (.matched (.pair u v) next)
  | .alt a b, c => .around (.alt a b) c <|
    (traced tracedRule a c).orElse (traced tracedRule b c)
  | .rep p, c => .around (.rep p) c <|
    .repeatFrom (traced tracedRule p) (c.rest.length + 1) [] c
  | .required message p, c => .around (.required message p) c <|
    (traced tracedRule p c).orElse fun w =>
      ((c.fail message, w.log (.requirementFailed c.offset message)), [])
  | .memo k p, c => .around (.memo k p) c (.viaCache k c (traced tracedRule p c))
  | .count name p, c => .around (.count name p) c fun w =>
    ((traced tracedRule p c (w.countCall name)).1,
      .counted name :: (traced tracedRule p c (w.countCall name)).2)
  | .rule hold id, c => .around (.rule hold id) c (tracedRule hold id c)

/-- Parse a rule with its trace. In all else this is `Rule.parse`. -/
def Rule.traced : Nat → Hold → RuleId → Cursor → Traced
  | 0, _, _, _ => .done (.fault .exhausted)
  | depth + 1, hold, id, c => fun w =>
    match w.refusal? hold id c with
    | some refusal => ((c.fail refusal.message, w.logRefusal id c refusal), [])
    | none =>
      let before := w.marker id
      match (w.enter id c.position).definition id with
      | (.ok (some g), w) =>
        let x := g.traced (Rule.traced depth) c w
        ((x.1.1, x.1.2.leave id before), x.2)
      | (.ok none, w) => ((c.fail Refusal.underConstruction.message, w.leave id before), [])
      | (.error fault, w) => ((.fault fault, w.leave id before), [])

/-- Run a grammar at a cursor, with its trace. -/
def Workspace.traced (w : Workspace) (g : Grammar) (c : Cursor) :
    (Outcome × Workspace) × List Mark :=
  g.traced (Rule.traced (w.depthBudget c)) c w

/-- What happens when a grammar is run at a cursor. -/
def Workspace.trace (w : Workspace) (g : Grammar) (c : Cursor) : List Mark :=
  (w.traced g c).2

/-! ## The trace makes no difference

Both engines take the same steps, so that one lemma for each way of putting runs together is enough.
-/

/-- The run with a trace comes to what the run comes to. -/
def Traced.Follows (r : Traced) (r' : Run) : Prop :=
  ∀ w, (r w).1 = r' w

namespace Traced

variable {r : Traced} {r' : Run}

/-- The sequels are compared where both runs have matched; elsewhere both stop. -/
theorem Follows.andThen {next : Value → Cursor → Traced} {next' : Value → Cursor → Run}
    (h : r.Follows r') (hnext : ∀ v c, (next v c).Follows (next' v c)) :
    (r.andThen next).Follows (r'.andThen next') := by
  intro w
  unfold Traced.andThen Run.andThen
  rw [← h w]
  generalize r w = x
  obtain ⟨⟨o, w'⟩, ms⟩ := x
  cases o with
  | matched v c => exact hnext v c w'
  | noMatch => rfl
  | failed f => rfl
  | fault f => rfl

theorem Follows.orElse {next : Traced} {next' : Run} (h : r.Follows r')
    (hnext : next.Follows next') : (r.orElse next).Follows (r'.orElse next') := by
  intro w
  unfold Traced.orElse Run.orElse
  rw [← h w]
  generalize r w = x
  obtain ⟨⟨o, w'⟩, ms⟩ := x
  cases o with
  | noMatch => exact hnext w'
  | matched v c => rfl
  | failed f => rfl
  | fault f => rfl

/-- Both repetitions are asked for the same number of rounds. Induction on that number. -/
theorem Follows.repeatFrom {parser : Cursor → Traced} {parser' : Cursor → Run}
    (h : ∀ c, (parser c).Follows (parser' c)) (rounds : Nat) (values : List Value) (c : Cursor) :
    (Traced.repeatFrom parser rounds values c).Follows
      (Packrat.repeatFrom parser' rounds values c) := by
  induction rounds generalizing values c with
  | zero => exact fun _ => rfl
  | succ rounds ih =>
    intro w
    simp only [Traced.repeatFrom, Packrat.repeatFrom, ← h c w]
    generalize parser c w = x
    obtain ⟨⟨o, w'⟩, ms⟩ := x
    cases o with
    | matched v next =>
      simp only
      split
      · rfl
      · exact ih (v :: values) next w'
    | noMatch =>
      simp only
      split <;> rfl
    | failed f => rfl
    | fault f => rfl

/-- Both ask the cache first, and remember the same. -/
theorem Follows.viaCache (h : r.Follows r') (k : CacheId) (c : Cursor) :
    (Traced.viaCache k c r).Follows (Packrat.viaCache k c r') := by
  intro w
  unfold Traced.viaCache Packrat.viaCache
  cases w.cachedAt? k c.position with
  | some remembered =>
    cases remembered with
    | some answer => rfl
    | none => rfl
  | none =>
    simp only [← h w]
    generalize r w = x
    obtain ⟨⟨o, w'⟩, ms⟩ := x
    cases o with
    | matched v next => rfl
    | noMatch => rfl
    | failed f => rfl
    | fault f => rfl

end Traced

/-- The trace makes no difference to a grammar if it makes none to the rules that the grammar refers
to. Induction on the grammar. -/
theorem Grammar.traced_follows {tracedRule : Hold → RuleId → Cursor → Traced}
    {parseRule : Hold → RuleId → Cursor → Run}
    (h : ∀ hold id c, (tracedRule hold id c).Follows (parseRule hold id c)) (g : Grammar)
    (c : Cursor) : (g.traced tracedRule c).Follows (g.run parseRule c) := by
  induction g generalizing c with
  | literal token => exact fun _ => rfl
  | chars cls => exact fun _ => rfl
  | accept value => exact fun _ => rfl
  | map f g ih => exact (ih c).andThen fun _ _ _ => rfl
  | tryMap f g ih =>
    refine (ih c).andThen fun v next w => ?_
    cases f v with
    | ok u => rfl
    | error message => rfl
  | seq g g' ih ih' => exact (ih c).andThen fun _ d => (ih' d).andThen fun _ _ _ => rfl
  | alt g g' ih ih' => exact (ih c).orElse (ih' c)
  | rep g ih => exact Traced.Follows.repeatFrom ih _ _ c
  | required message g ih => exact (ih c).orElse fun _ => rfl
  | memo k g ih => exact (ih c).viaCache k c
  | count name g ih => exact fun w => ih c (w.countCall name)
  | rule hold id => exact h hold id c

/-- The trace makes no difference to a rule. Induction on the depth to which rules may be inside
each other. -/
theorem Rule.traced_follows (depth : Nat) (hold : Hold) (id : RuleId) (c : Cursor) :
    (Rule.traced depth hold id c).Follows (Rule.parse depth hold id c) := by
  induction depth generalizing hold id c with
  | zero => exact fun _ => rfl
  | succ depth ih =>
    intro w
    simp only [Rule.traced, Rule.parse]
    cases w.refusal? hold id c with
    | some refusal => rfl
    | none =>
      simp only
      generalize (w.enter id c.position).definition id = x
      obtain ⟨d, w'⟩ := x
      cases d with
      | error fault => rfl
      | ok d =>
        cases d with
        | none => rfl
        | some g =>
          have hbody := Grammar.traced_follows ih g c w'
          simp only [← hbody]
          rfl

/-- **The trace makes no difference.** -/
theorem Workspace.traced_fst (w : Workspace) (g : Grammar) (c : Cursor) :
    (w.traced g c).1 = w.parse g c :=
  Grammar.traced_follows (Rule.traced_follows _) g c w

end Packrat
