import Packrat.Proofs.Engine.Guarded

/-!
# Places stay on character boundaries

A cursor counts bytes and a text has characters of one to four of them, so an offset could come to
stand inside a character or past the end. No parse lets that happen.

* **`Outcome.Bounded`** — every place that an outcome names is a character boundary of the source,
  not before the start of the parse and not after the end of the text; the one fault that it can be
  is that of a repetition that was stopped.
* **`Settles.bounded`** — that is so of every parse, because verdicts and loops lie ahead of the
  place where they are asked for.
* **`Grammar.runSlicing`** — the engine as it runs when nothing of the text is kept in a cursor:
  before a token or a class is looked for, the text ahead is cut from the source at the offset of
  the cursor, and a cut that cannot be made is a fault.
* **`runsSlice`** — cutting anew makes no difference to any run, so every cut can be made: each
  parser, at whatever depth, is run at a valid cursor, whether it was moved there or taken from a
  cache.
-/

namespace Packrat

/-! ## Boundaries

Offsets count bytes, and not every number of bytes ends a character. The places that an outcome
names all come from rests of the text, and these begin where a character does. -/

/-- The offset is between two characters of the text, or at one of its ends. -/
def Source.IsBoundary (s : Source) (offset : Nat) : Prop :=
  ∃ before rest, s.text = before ++ rest ∧ offset = Text.byteLength before

/-- The offset is a boundary of the cursor's source, from the cursor on. -/
structure Cursor.Ahead (c : Cursor) (offset : Nat) : Prop where
  boundary : c.source.IsBoundary offset
  notBefore : c.offset ≤ offset
  notAfter : offset ≤ c.source.size

/-- Every place that the outcome of a parse from the cursor names lies ahead of the cursor, on a
boundary. No fault is possible but that of a repetition whose operand did not move. -/
def Outcome.Bounded (c : Cursor) : Outcome → Prop
  | .matched _ next => next.source = c.source ∧ next.Valid ∧ c.Ahead next.offset
  | .noMatch => True
  | .failed failure => c.Ahead failure.offset
  | .fault breach => ∃ offset, breach = .stalled offset ∧ c.Ahead offset

section

variable {s : Source} {c : Cursor} {cs rest : List Char}

theorem Cursor.Valid.isBoundary (hc : c.Valid) : c.source.IsBoundary c.offset := by
  obtain ⟨before, htext, hoffset⟩ := hc
  exact ⟨before, c.rest, htext, hoffset⟩

/-- What lies ahead of a place in a text begins further on. -/
theorem Source.before_ahead (hcs : cs <:+ s.text) (hrest : rest <:+ cs) :
    (s.before cs).Ahead (s.before rest).offset where
  boundary := (Source.valid_before (hrest.trans hcs)).isBoundary
  notBefore := by
    have hle := Text.byteLength_le_of_suffix hrest
    show s.size - _ ≤ s.size - _
    omega
  notAfter := Nat.sub_le _ _

theorem Verdict.Within.bounded {v : Verdict} (hv : v.Within cs) (hcs : cs <:+ s.text) :
    (v.outcome s).Bounded (s.before cs) := by
  cases v with
  | matched value rest =>
    exact ⟨rfl, Source.valid_before (List.IsSuffix.trans hv hcs), Source.before_ahead hcs hv⟩
  | noMatch => trivial
  | failed message rest => exact Source.before_ahead hcs hv
  | stalled rest => exact ⟨_, rfl, Source.before_ahead hcs hv⟩

/-- **A parse names only boundaries ahead of it.** Verdicts lie in the text of their goal, and so
do the loops that the guard reports. -/
theorem Settles.bounded {w : Workspace} {n : Goal} {depth : Nat} {x : Outcome × Workspace}
    (h : Settles ⟨true, depth⟩ s w n.course x) (hn : n.rest <:+ s.text) :
    x.1.Bounded (s.before n.rest) := by
  obtain ⟨v, hv, hx⟩ := h.comes
  rw [hx]
  exact (Goal.Comes.within hv).bounded hn

end

/-! ## Cutting the text anew

The cursors of the engine carry the text ahead along. Here it is thrown away at every look and cut
from the source again, which fails where the offset is not a boundary. -/

namespace Cursor

/-- The text from the offset on, cut from the source; there is none where it cannot be cut. -/
def slice? (c : Cursor) : Option (List Char) :=
  Text.dropBytes? c.offset c.source.text

/-- Look at the text ahead after cutting it anew. -/
def sliced (c : Cursor) (look : Cursor → Outcome) : Outcome :=
  match c.slice? with
  | some rest => look ⟨c.source, c.offset, rest⟩
  | none => .fault .badCut

theorem Valid.slice?_eq {c : Cursor} (hc : c.Valid) : c.slice? = some c.rest := by
  obtain ⟨before, htext, hoffset⟩ := hc
  exact Text.dropBytes?_eq_some_iff.2 ⟨before, htext, hoffset.symm⟩

theorem Valid.sliced_eq {c : Cursor} (hc : c.Valid) (look : Cursor → Outcome) :
    c.sliced look = look c := by
  rw [sliced, hc.slice?_eq]

end Cursor

/-- Run a grammar at a cursor, cutting the text ahead anew wherever it is looked at. In all else
this is `Grammar.run`. -/
def Grammar.runSlicing (parseRule : Hold → RuleId → Cursor → Run) : Grammar → Cursor → Run
  | .literal token, c => .done (c.sliced (·.literal token))
  | .chars cls, c => .done (c.sliced (·.chars cls))
  | .accept value, c => .done (.matched value c)
  | .map f p, c => (runSlicing parseRule p c).andThen fun v next => .done (.matched (f v) next)
  | .tryMap f p, c => (runSlicing parseRule p c).andThen fun v next =>
    match f v with
    | .ok u => .done (.matched u next)
    | .error message => .done (c.fail message)
  | .seq a b, c => (runSlicing parseRule a c).andThen fun u middle =>
    (runSlicing parseRule b middle).andThen fun v next => .done (.matched (.pair u v) next)
  | .alt a b, c => (runSlicing parseRule a c).orElse (runSlicing parseRule b c)
  | .rep p, c => repeatFrom (runSlicing parseRule p) (c.rest.length + 1) [] c
  | .required message p, c => (runSlicing parseRule p c).orElse fun w =>
    (c.fail message, w.log (.requirementFailed c.offset message))
  | .memo cache p, c => viaCache cache c (runSlicing parseRule p c)
  | .count name p, c => fun w => runSlicing parseRule p c (w.countCall name)
  | .rule hold id, c => parseRule hold id c

/-- Parse a rule at a cursor, cutting the text ahead anew wherever it is looked at. In all else
this is `Rule.parse`. -/
def Rule.parseSlicing : Nat → Hold → RuleId → Cursor → Run
  | 0, _, _, _ => .done (.fault .exhausted)
  | depth + 1, hold, id, c => fun w =>
    match w.refusal? hold id c with
    | some refusal => (c.fail refusal.message, w.logRefusal id c refusal)
    | none =>
      let before := w.marker id
      match (w.enter id c.position).definition id with
      | (.ok (some g), w) =>
        let (outcome, w) := g.runSlicing (Rule.parseSlicing depth) c w
        (outcome, w.leave id before)
      | (.ok none, w) => (c.fail Refusal.underConstruction.message, w.leave id before)
      | (.error fault, w) => (.fault fault, w.leave id before)

/-- Run a grammar at a cursor, cutting the text ahead anew wherever it is looked at. -/
def Workspace.parseSlicing (w : Workspace) (g : Grammar) (c : Cursor) : Outcome × Workspace :=
  g.runSlicing (Rule.parseSlicing (w.depthBudget c)) c w

/-! ## It makes no difference

The two engines are run side by side. Where a run goes on after another one, what is known of the
first, that it performs what it means, says where the second one starts: at the cursor before a
rest of the text, in a workspace that is still coherent. -/

section

variable {mode : Mode} {L : Legend} {s : Source} {w w' : Workspace} {k : Course}
  {scope : Scope} {Γ : Context} {b : Blueprint} {r r' : Run}

theorem Performs.of_matched {v : Value} {c : Cursor}
    (h : Performs mode L s w k (.matched v c, w')) :
    ∃ L' rest, L.Passes w L' w' ∧ k.Yields (.matched v rest) ∧ c = s.before rest := by
  obtain ⟨L', hpass, ⟨u, hu, hout, _⟩ | hbreaks⟩ := h
  · cases u with
    | matched value rest => cases hout; exact ⟨L', rest, hpass, hu, rfl⟩
    | noMatch => cases hout
    | failed message rest => cases hout
    | stalled rest => cases hout
  · rcases hbreaks.outcome with ⟨f, hf⟩ | ⟨f, hf⟩
    · cases hf
    · cases hf

theorem Performs.of_noMatch (h : Performs mode L s w k (.noMatch, w')) :
    ∃ L', L.Passes w L' w' ∧ k.Yields .noMatch := by
  obtain ⟨L', hpass, ⟨u, hu, hout, _⟩ | hbreaks⟩ := h
  · cases u with
    | noMatch => exact ⟨L', hpass, hu⟩
    | matched value rest => cases hout
    | failed message rest => cases hout
    | stalled rest => cases hout
  · rcases hbreaks.outcome with ⟨f, hf⟩ | ⟨f, hf⟩
    · cases hf
    · cases hf

theorem Run.andThen_congr {next next' : Value → Cursor → Run} (h : r w = r' w)
    (hnext : ∀ v c w', r' w = (.matched v c, w') → next v c w' = next' v c w') :
    r.andThen next w = r'.andThen next' w := by
  unfold Run.andThen
  rw [h]
  generalize r' w = x at hnext
  obtain ⟨o, w'⟩ := x
  cases o with
  | matched v c => exact hnext v c w' rfl
  | noMatch => rfl
  | failed f => rfl
  | fault f => rfl

theorem Run.orElse_congr {next next' : Run} (h : r w = r' w)
    (hnext : ∀ w', r' w = (.noMatch, w') → next w' = next' w') :
    r.orElse next w = r'.orElse next' w := by
  unfold Run.orElse
  rw [h]
  generalize r' w = x at hnext
  obtain ⟨o, w'⟩ := x
  cases o with
  | noMatch => exact hnext w' rfl
  | matched v c => rfl
  | failed f => rfl
  | fault f => rfl

/-- Repeating two parsers that run alike wherever they are ready. Induction on the rounds; each one
leaves off where the next one is ready. -/
theorem repeatFrom_congr {parser parser' : Cursor → Run}
    (hparser : ∀ L' w cs, L.Le L' → Ready mode L' s scope Γ (.parse Γ b cs) w →
      Performs mode L' s w (Goal.parse Γ b cs).course (parser' (s.before cs) w)
        ∧ parser (s.before cs) w = parser' (s.before cs) w)
    {values : List Value} {cs : List Char} (h : Ready mode L s scope Γ (.again Γ b values cs) w)
    (rounds : Nat) :
    repeatFrom parser rounds values (s.before cs) w
      = repeatFrom parser' rounds values (s.before cs) w := by
  induction rounds generalizing L w values cs with
  | zero => rfl
  | succ rounds ih =>
    have hround : (Goal.again Γ b values cs).Asks (.parse Γ b cs) := .now
    obtain ⟨hperforms, heq⟩ := hparser L w cs (.refl L) (h.asks hround)
    simp only [repeatFrom, heq]
    generalize parser' (s.before cs) w = x at hperforms
    obtain ⟨o, w'⟩ := x
    cases o with
    | matched v next =>
      obtain ⟨L', rest, hpass, hv, rfl⟩ := hperforms.of_matched
      simp only
      split
      next => rfl
      next hmoved =>
        have hne : rest ≠ cs := fun hrest => hmoved (by rw [hrest])
        -- the two parsers agree in every later legend too
        have hlater := fun L'' w cs hle => hparser L'' w cs (hpass.toLe.trans hle)
        exact ih hlater ((h.passes hpass).asks (Goal.asks_again hv hne))
    | noMatch => rfl
    | failed f => rfl
    | fault f => rfl

end

section

variable {depth : Nat} {L : Legend} {s : Source} {w : Workspace} {scope : Scope} {Γ : Context}
  {b : Blueprint} {cs : List Char}

/-- Every grammar that reads as a blueprint runs the same when the text is cut anew. -/
def RunsSlice (depth : Nat) (s : Source) : Prop :=
  ∀ {L : Legend} {scope : Scope} {Γ : Context} {g : Grammar} {b : Blueprint} {cs : List Char}
    {w : Workspace}, L.Reads scope g b → Ready ⟨true, depth⟩ L s scope Γ (.parse Γ b cs) w →
    g.runSlicing (Rule.parseSlicing depth) (s.before cs) w
      = g.run (Rule.parse depth) (s.before cs) w

/-- A rule that is entered runs its definition, one level deeper; where it refuses, nothing is
run. -/
theorem parseSlicing_rule {hold : Hold} {id : RuleId} (hslice : RunsSlice depth s)
    (hreads : L.Reads scope (.rule hold id) b)
    (h : Ready ⟨true, depth + 1⟩ L s scope Γ (.parse Γ b cs) w) :
    Rule.parseSlicing (depth + 1) hold id (s.before cs) w
      = Rule.parse (depth + 1) hold id (s.before cs) w := by
  obtain ⟨plan, outer, hid, houter, hsuffix, _, hask, hactive⟩ := h.rule_course hreads
  have hrefusal := h.coherent.refusal? hid hactive (s.before cs)
  rw [Rule.parseSlicing, Rule.parse]
  by_cases hmarker : w.marker id = some (s.before cs).position
  · rw [if_pos hmarker] at hrefusal
    simp only [hrefusal]
  · rw [if_neg hmarker] at hrefusal
    simp only [hrefusal]
    obtain ⟨L₁, g, w₁, hdefinition, hpass, _, hg⟩ := h.definition hid cs
    -- the body is run one level deeper, where it is known to agree
    have hbody : g.runSlicing (Rule.parseSlicing depth) (s.before cs) w₁
        = g.run (Rule.parse depth) (s.before cs) w₁ :=
      hslice hg (h.enter hid houter hsuffix hask (fun _ => hmarker) hpass)
    rw [hdefinition]
    simp only [hbody]
    rfl

/-- A grammar runs the same if its rules do. Induction on the grammar. -/
theorem runsSlice_of_rules
    (hrule : ∀ {hold : Hold} {id : RuleId} {L : Legend} {scope : Scope} {Γ : Context}
      {b : Blueprint} {cs : List Char} {w : Workspace}, L.Reads scope (.rule hold id) b →
      Ready ⟨true, depth⟩ L s scope Γ (.parse Γ b cs) w →
      Rule.parseSlicing depth hold id (s.before cs) w = Rule.parse depth hold id (s.before cs) w) :
    RunsSlice depth s := by
  have hperforms : RunsPerform ⟨true, depth⟩ s (Rule.parse depth) := run_performs s true depth
  intro L scope Γ g b cs w hreads h
  induction g generalizing L b cs w with
  | literal token =>
    have hvalid : (s.before cs).Valid := Source.valid_before h.inside
    rw [Grammar.runSlicing, hvalid.sliced_eq]
    rfl
  | chars cls =>
    have hvalid : (s.before cs).Valid := Source.valid_before h.inside
    rw [Grammar.runSlicing, hvalid.sliced_eq]
    rfl
  | accept value => rfl
  | map f g ih =>
    cases hreads with
    | map hg => exact Run.andThen_congr (ih hg (h.asks .now)) fun _ _ _ _ => rfl
  | tryMap f g ih =>
    cases hreads with
    | tryMap hg => exact Run.andThen_congr (ih hg (h.asks .now)) fun _ _ _ _ => rfl
  | seq g g' ih ih' =>
    cases hreads with
    | seq hg hg' =>
      refine Run.andThen_congr (ih hg (h.asks .now)) fun u c w' hrun => ?_
      have hfirst := hperforms hg (h.asks .now)
      rw [hrun] at hfirst
      obtain ⟨L', rest, hpass, hu, rfl⟩ := hfirst.of_matched
      have hnext := (h.passes hpass).asks (.later hu .now)
      exact Run.andThen_congr (ih' (hg'.mono hpass.toLe) hnext) fun _ _ _ _ => rfl
  | alt g g' ih ih' =>
    cases hreads with
    | alt hg hg' =>
      refine Run.orElse_congr (ih hg (h.asks .now)) fun w' hrun => ?_
      have hfirst := hperforms hg (h.asks .now)
      rw [hrun] at hfirst
      obtain ⟨L', hpass, hno⟩ := hfirst.of_noMatch
      exact ih' (hg'.mono hpass.toLe) ((h.passes hpass).asks (.later hno .now))
  | rep g ih =>
    cases hreads with
    | rep hg =>
      refine repeatFrom_congr (fun L' w ds hle hready => ?_) (h.asks .now) _
      exact ⟨hperforms (hg.mono hle) hready, ih (hg.mono hle) hready⟩
  | required message g ih =>
    cases hreads with
    | required hg => exact Run.orElse_congr (ih hg (h.asks .now)) fun _ _ => rfl
  | memo k g ih =>
    cases hreads with
    -- a hit runs nothing; a miss runs the parser here
    | memo hk hg => simp only [Grammar.runSlicing, Grammar.run, viaCache, ih hg h]
  | count name g ih =>
    cases hreads with
    | count hg => exact ih hg (h.passes (h.coherent.passes_aside (w.aside_countCall name)))
  | rule hold id => exact hrule hreads h

/-- **Cutting the text anew makes no difference.** Induction on the depth. -/
theorem runsSlice (s : Source) (depth : Nat) : RunsSlice depth s := by
  induction depth with
  | zero => exact runsSlice_of_rules fun _ h => absurd (h.enough rfl) (Nat.not_lt_zero _)
  | succ depth ih => exact runsSlice_of_rules (parseSlicing_rule ih)

end

/-! ## Parses

A parse from a valid cursor stays at valid cursors, so cutting never fails. -/

namespace Workspace

variable {pool : List (Blueprint × Grammar)} {known : List Source} {w : Workspace} {b : Blueprint}
  {g : Grammar} {c : Cursor}

/-- The text can be cut at every cursor at which a parse looks at it. -/
theorem InUse.parseSlicing_eq (h : InUse pool known w) (hg : (b, g) ∈ pool) (hc : c.Valid)
    (hs : c.source ∈ known) : w.parseSlicing g c = w.parse g c := by
  obtain ⟨L, hL⟩ := h.explained
  have hready : Ready ⟨true, w.depthBudget c⟩ L c.source [] [] (.parse [] b.plain c.rest) w :=
    hL.ready b hc hs fun _ => Nat.le_refl _
  have hslice := runsSlice c.source (w.depthBudget c) (hL.reads hg) hready
  rwa [hc.eq_before] at hslice

/-- **Places stay on character boundaries.** Of a parse from a valid cursor, whatever the texts,
tokens and classes: a match ends at a valid cursor of the same source; the places of a match, of a
hard failure and of a stopped repetition are boundaries between the start and the end of the text;
there is no other fault, so no cursor is moved to where it must not stand; and the parse does the
same if the text ahead is cut from the source at every place where it is looked at, so that can be
done too. -/
theorem parse_bounded (h : InUse pool known w) (hg : (b, g) ∈ pool) (hc : c.Valid)
    (hs : c.source ∈ known) :
    (w.parse g c).1.Bounded c ∧ w.parseSlicing g c = w.parse g c := by
  refine ⟨?_, h.parseSlicing_eq hg hc hs⟩
  have hbounded := (h.settles_parse hg hc hs).bounded hc.rest_suffix
  rwa [Goal.rest, hc.eq_before] at hbounded

/-- The characters of the text take two, three and four bytes; the parse begins after the first. -/
theorem parse_sums_bounded :
    ((withSums "é→😀").parse (.rule .owned 0) ⟨⟨0, "é→😀".toList⟩, 2, "→😀".toList⟩).1.Bounded
        ⟨⟨0, "é→😀".toList⟩, 2, "→😀".toList⟩
      ∧ (withSums "é→😀").parseSlicing (.rule .owned 0) ⟨⟨0, "é→😀".toList⟩, 2, "→😀".toList⟩
        = (withSums "é→😀").parse (.rule .owned 0) ⟨⟨0, "é→😀".toList⟩, 2, "→😀".toList⟩ :=
  parse_bounded (inUse_withSums "é→😀") List.mem_cons_self ⟨"é".toList, rfl, rfl⟩ List.mem_cons_self

end Workspace

end Packrat
