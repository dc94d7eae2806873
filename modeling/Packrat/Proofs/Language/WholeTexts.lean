import Packrat.Proofs.Engine.Boundaries
import Packrat.Proofs.Language.Reporting

/-!
# Reports on whole texts

Reading a whole text runs a grammar from the beginning of it and makes a report of everything but a
match of all of it. There is one kind of report for each outcome, and its place and its hint are
those of the outcome.

* **`Workspace.Classifies`** — what is reported goes with what the grammar comes to, in both
  directions, and every span is that of a stretch of the text.
* **`Workspace.readWhole_classifies`** — so it is with every grammar in use that breaks no contract
  on the text. The grammar has come to a place on a character boundary, so that the text can be cut
  there for the span and the hint.
-/

namespace Packrat

/-! ## Hints

A hint quotes the text by characters, and a position counts bytes; the quotation is taken from the
rest of the text, so it begins at a boundary. -/

/-- The hint about text that was not consumed: the first forty characters of it, or all if there are
fewer, and dots if there are more. -/
def hintOn (cs : List Char) : String :=
  "unconsumed input: "
    ++ (Text.quoted (cs.take (min 40 cs.length)) ++ if 40 < cs.length then "..." else "")

theorem unconsumed_eq (cs : List Char) : unconsumed cs = hintOn cs := by
  unfold unconsumed excerpt excerptLength hintOn
  by_cases hlong : 40 < cs.length
  · have hmore : (cs.drop 40).isEmpty = false := by simp; omega
    rw [hmore, if_pos hlong, Nat.min_eq_left (Nat.le_of_lt hlong)]
    rfl
  · have hshort : cs.length ≤ 40 := Nat.le_of_not_lt hlong
    have hall : (cs.drop 40).isEmpty = true := by simp; omega
    rw [hall, if_neg hlong, Nat.min_eq_right hshort, List.take_length,
      List.take_of_length_le hshort]
    rfl

/-! ## Spans

A span is one of the text if both of its ends are boundaries. The ends are found by going over the
text. -/

section

variable {before ahead : List Char}

/-- No character takes no bytes. -/
theorem Text.byteLength_eq_zero {cs : List Char} : byteLength cs = 0 ↔ cs = [] := by
  cases cs with
  | nil => simp
  | cons c cs =>
    have hpos : 0 < c.utf8Size := c.utf8Size_pos
    simp
    omega

theorem Span.point?_append : point? (before ++ ahead) (Text.byteLength before)
    = some ⟨Text.byteLength before, Text.byteLength before + Text.byteLength (ahead.take 1)⟩ := by
  rw [point?, Text.dropBytes?_byteLength_append]
  rfl

/-- The span of the one character ahead is empty exactly at the end of the text. -/
theorem Span.point_covers {span : Span} (h : span
    = ⟨Text.byteLength before, Text.byteLength before + Text.byteLength (ahead.take 1)⟩) :
    span.Covers (before ++ ahead)
      ∧ (span.isEmpty ↔ span.start = Text.byteLength (before ++ ahead)) := by
  subst h
  constructor
  · refine ⟨before, ahead.take 1, ahead.drop 1, ?_, rfl, ?_⟩
    · rw [List.take_append_drop]
    · rw [Text.byteLength_append]
  · have hwidth : Text.byteLength (ahead.take 1) = 0 ↔ Text.byteLength ahead = 0 := by
      rw [Text.byteLength_eq_zero, Text.byteLength_eq_zero]
      simp
    simp [isEmpty, length, hwidth]

/-- The span of all that lies ahead is not empty where something does. -/
theorem Span.tail_covers {span : Span} (hahead : ahead ≠ [])
    (h : span = ⟨Text.byteLength before, Text.byteLength (before ++ ahead)⟩) :
    span.Covers (before ++ ahead)
      ∧ (span.isEmpty ↔ span.start = Text.byteLength (before ++ ahead)) := by
  subst h
  constructor
  · refine ⟨before, ahead, [], ?_, rfl, rfl⟩
    rw [List.append_nil]
  · simp [isEmpty, length, Text.byteLength_eq_zero, hahead]

end

namespace Workspace

/-- What reading the text comes to goes with the outcome of the parse. -/
structure Classifies (name : String) (text : List Char) (o : Outcome)
    (r : Except Diagnostic Value) : Prop where
  whole : ∀ v, r = .ok v ↔ ∃ next, o = .matched v next ∧ next.offset = Text.byteLength text
  malformed : (∃ d, r = .error d ∧ d.trouble = .malformed) ↔ ∃ f, o = .failed f
  unmatched : (∃ d, r = .error d ∧ d.trouble = .unmatched) ↔ o = .noMatch
  incomplete : (∃ d, r = .error d ∧ d.trouble = .incomplete) ↔
    ∃ v next, o = .matched v next ∧ next.offset < Text.byteLength text
  failed : ∀ message k, o = .failed ⟨message, k⟩ → ∃ before ahead, text = before ++ ahead
    ∧ k = Text.byteLength before
    ∧ r = .error (.located .malformed message name
      ⟨k, k + Text.byteLength (ahead.take 1)⟩ none)
  noMatch : o = .noMatch → r = .error (if text.all Text.isBlankChar then
      .plain .unmatched (name ++ " contains no declarations")
    else .located .unmatched "input does not match the grammar" name
      ⟨0, Text.byteLength (text.take 1)⟩ (some (hintOn text)))
  leftOver : ∀ v next, o = .matched v next → next.offset < Text.byteLength text →
    ∃ before, text = before ++ next.rest ∧ next.offset = Text.byteLength before
      ∧ r = .error (.located .incomplete "unexpected input after the last complete declaration"
        name ⟨next.offset, Text.byteLength text⟩ (some (hintOn next.rest)))
  span : ∀ d span, r = .error d → d.span = some span → span.Covers text
    ∧ (span.isEmpty ↔ span.start = Text.byteLength text)

section

variable {name : String} {text before ahead : List Char} {v : Value} {next : Cursor}
  {message : String}

/-- A match that ends with the text. -/
theorem classifies_whole (hend : next.offset = Text.byteLength text) :
    Classifies name text (.matched v next) (.ok v) where
  whole u := by simp [hend]
  malformed := by simp
  unmatched := by simp
  incomplete := by simp [hend]
  failed message k ho := by cases ho
  noMatch ho := by cases ho
  leftOver u next' ho hlt := by
    cases ho
    omega
  span d span hd := by cases hd

/-- A match with text after it. -/
theorem classifies_leftOver (htext : text = before ++ next.rest)
    (hoffset : next.offset = Text.byteLength before) (hne : next.rest ≠ []) :
    Classifies name text (.matched v next) (.error (.located .incomplete
      "unexpected input after the last complete declaration" name
      ⟨next.offset, Text.byteLength text⟩ (some (hintOn next.rest)))) := by
  have hlt : next.offset < Text.byteLength text := by
    have hrest := Text.byteLength_eq_zero.not.2 hne
    rw [htext, hoffset, Text.byteLength_append]
    omega
  exact {
    whole u := by simp [Nat.ne_of_lt hlt]
    malformed := by simp [Diagnostic.located]
    unmatched := by simp [Diagnostic.located]
    incomplete := by simp [Diagnostic.located, hlt]
    failed message k ho := by cases ho
    noMatch ho := by cases ho
    leftOver u next' ho _ := by
      cases ho
      exact ⟨before, htext, hoffset, rfl⟩
    span d span hd hspan := by
      cases hd
      cases hspan
      subst htext
      rw [hoffset]
      exact Span.tail_covers hne rfl }

/-- A hard failure, which is at the end of what has been gone through. -/
theorem classifies_failed : Classifies name (before ++ ahead)
    (.failed ⟨message, Text.byteLength before⟩) (.error (.located .malformed message name
      ⟨Text.byteLength before, Text.byteLength before + Text.byteLength (ahead.take 1)⟩ none)) where
  whole u := by simp
  malformed := by simp [Diagnostic.located]
  unmatched := by simp [Diagnostic.located]
  incomplete := by simp [Diagnostic.located]
  failed message' k ho := by
    cases ho
    exact ⟨before, ahead, rfl, rfl, rfl⟩
  noMatch ho := by cases ho
  leftOver u next' ho := by cases ho
  span d span hd hspan := by
    cases hd
    cases hspan
    exact Span.point_covers rfl

/-- No match: the report has a place unless the text is blank. -/
theorem classifies_noMatch {d₀ : Diagnostic} (h : d₀ = if text.all Text.isBlankChar then
      .plain .unmatched (name ++ " contains no declarations")
    else .located .unmatched "input does not match the grammar" name
      ⟨0, Text.byteLength (text.take 1)⟩ (some (hintOn text))) :
    Classifies name text .noMatch (.error d₀) := by
  have htrouble : d₀.trouble = .unmatched := by rw [h]; split <;> rfl
  exact {
    whole u := by simp
    malformed := by simp [htrouble]
    unmatched := by simp [htrouble]
    incomplete := by simp [htrouble]
    failed message k ho := by cases ho
    noMatch _ := by rw [h]
    leftOver u next' ho := by cases ho
    span d span hd hspan := by
      cases hd
      rw [h] at hspan
      split at hspan
      next => cases hspan
      next =>
        cases hspan
        have hpoint := @Span.point_covers [] text ⟨0, Text.byteLength (text.take 1)⟩
        simp only [Text.byteLength_nil, Nat.zero_add, List.nil_append] at hpoint
        exact hpoint trivial }

end

/-! ## Every grammar in use

Of the grammar it is only assumed that it has been built, and that it breaks no contract on the
text. -/

section

variable {pool : List (Blueprint × Grammar)} {known : List Source} {w : Workspace} {b : Blueprint}
  {g : Grammar}

/-- **Reports are exact for every grammar.** Unless the grammar breaks a contract on the text, what
is reported goes with what it comes to, and the text can be cut for the report. -/
theorem readWhole_classifies (h : InUse pool known w) (hg : (b, g) ∈ pool) (name text : String)
    (hcalm : ∀ f, (w.parseText g text).1 ≠ .fault f) :
    ∃ r, (w.readWhole g name text).1 = .ok r
      ∧ Classifies name text.toList (w.parseText g text).1 r := by
  have hbounded : (w.parseText g text).1.Bounded ⟨⟨w.sources, text.toList⟩, 0, text.toList⟩ :=
    (parse_bounded (h.source text) hg (Cursor.valid_start _) List.mem_cons_self).1
  unfold readWhole
  -- of the run, only that its outcome is within the text is of account
  generalize w.parseText g text = x at hbounded hcalm
  obtain ⟨o, w'⟩ := x
  cases o with
  | fault f => exact absurd rfl (hcalm f)
  | failed f =>
    obtain ⟨message, k⟩ := f
    obtain ⟨before, ahead, htext, hk⟩ := hbounded.boundary
    change text.toList = before ++ ahead at htext
    change k = Text.byteLength before at hk
    subst hk
    simp only [reportFailure, htext, Span.point?_append]
    exact ⟨_, rfl, classifies_failed⟩
  | noMatch =>
    have hpoint : Span.point? text.toList 0 = some ⟨0, 0 + Text.byteLength (text.toList.take 1)⟩ :=
      @Span.point?_append [] text.toList
    rw [Nat.zero_add] at hpoint
    by_cases hblank : Text.isBlank text = true
    · simp only [reportNoMatch, if_pos hblank]
      exact ⟨_, rfl, classifies_noMatch (if_pos hblank).symm⟩
    · simp only [reportNoMatch, if_neg hblank, hpoint, unconsumed_eq]
      exact ⟨_, rfl, classifies_noMatch (if_neg hblank).symm⟩
  | matched v next =>
    obtain ⟨hsource, ⟨before, htext, hoffset⟩, -⟩ := hbounded
    rw [hsource] at htext
    change text.toList = before ++ next.rest at htext
    by_cases hend : next.isAtEnd = true
    · have hrest : next.rest = [] := List.isEmpty_iff.1 hend
      have hwhole : next.offset = Text.byteLength text.toList := by
        rw [htext, hrest, List.append_nil, hoffset]
      simp only [if_pos hend]
      exact ⟨_, rfl, classifies_whole hwhole⟩
    · have hrest : next.rest ≠ [] := fun hnil => hend (List.isEmpty_iff.2 hnil)
      have hsize : next.source.size = Text.byteLength text.toList := by
        rw [hsource]
        rfl
      simp only [if_neg hend, reportLeftOver, hsize, unconsumed_eq]
      exact ⟨_, rfl, classifies_leftOver htext hoffset hrest⟩

/-- A sum of one, with a character of two bytes after it. -/
theorem readWhole_sum_classifies :
    ∃ r, ((withSums "").readWhole (.rule .owned 0) "sums" "1é").1 = .ok r
      ∧ Classifies "sums" "1é".toList ((withSums "").parseText (.rule .owned 0) "1é").1 r :=
  readWhole_classifies (inUse_withSums "") List.mem_cons_self "sums" "1é" (by
    intro f hf
    have hmatched : ∃ v next,
        ((withSums "").parseText (.rule .owned 0) "1é").1 = .matched v next := ⟨_, _, rfl⟩
    obtain ⟨v, next, ho⟩ := hmatched
    rw [ho] at hf
    cases hf)

end

end Workspace

end Packrat
