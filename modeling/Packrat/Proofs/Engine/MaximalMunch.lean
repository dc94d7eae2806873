import Packrat.Proofs.Engine.Verdicts

/-!
# Maximal munch

A class takes all the members that lie ahead, and nothing else. Its run is measured in bytes while
a search goes over characters, and the text is cut there; the bytes and the characters end at the
same place whatever the widths of the characters.

* **`Cursor.pastRun`** — the cursor behind all that a class has ahead, be it nothing.
* **`Cursor.chars_eq_matched`** — a class that has something ahead takes all of it and comes to that
  cursor.
* **`Grammar.run_padded`** — a padded parser is the parser behind the run, and the cursor behind its
  match moved behind the run there. Once behind a run there is none, so padding twice is padding
  once (**`Grammar.run_padded_padded`**): whatever the parser, it is run once, at the same cursor
  and in the same workspace.
* **`Workspace.parse_munches`** — both, of parses: a parse with a class matches exactly where a
  member stands, and then comes to the longest run (**`Munched`**).
-/

namespace Packrat

/-! ## What is longest

What a run is to be is said of characters and prefixes, without the engine: no longer beginning of
the text has only members. -/

/-- The run is the longest beginning of the text that has only the given characters. -/
structure LongestRun (members : String) (run cs : List Char) : Prop where
  ahead : run <+: cs
  inside : ∀ x ∈ run, x ∈ members.toList
  longest : ∀ other, other <+: cs → (∀ x ∈ other, x ∈ members.toList) → other <+: run

/-- One of the given characters stands at the beginning of the text. -/
def BeginsIn (members : String) (cs : List Char) : Prop :=
  ∃ x ∈ members.toList, cs.head? = some x

/-- The text is at its end or goes on with another character than the given ones. -/
def EndsOr (members : String) (cs : List Char) : Prop :=
  cs = [] ∨ ∃ x, cs.head? = some x ∧ x ∉ members.toList

/-- A match of a class at a cursor: it has taken the longest run of members ahead, and so many bytes
of the text. -/
structure Munched (members : String) (c : Cursor) (run : String) (next : Cursor) : Prop where
  longest : LongestRun members run.toList c.rest
  source : next.source = c.source
  offset : next.offset = c.offset + run.utf8ByteSize
  rest : c.rest = run.toList ++ next.rest
  stops : EndsOr members next.rest
  valid : c.Valid → next.Valid

/-- Both ways of counting bytes agree. -/
theorem Text.utf8ByteSize_ofList (cs : List Char) :
    (String.ofList cs).utf8ByteSize = byteLength cs := by
  induction cs with
  | nil => rfl
  | cons c cs ih =>
    rw [String.ofList_cons, String.utf8ByteSize_append, String.utf8ByteSize_singleton, ih,
      byteLength_cons]

namespace CharClass

variable {cs : List Char}

theorem contains_ofString {members : String} {x : Char} :
    (ofString members).contains x = true ↔ x ∈ members.toList :=
  List.contains_iff_mem

/-- A class stops where none of its members stands ahead. -/
theorem stops_ofString {members : String} :
    (ofString members).Stops cs ↔ ¬BeginsIn members cs := by
  constructor
  · rintro hstops ⟨x, hx, hhead⟩
    exact Bool.eq_false_iff.1 (hstops x hhead) (contains_ofString.2 hx)
  · intro hbegins x hhead
    exact Bool.eq_false_iff.2 fun hx => hbegins ⟨x, contains_ofString.1 hx, hhead⟩

theorem Stops.endsOr {members : String} (h : (ofString members).Stops cs) :
    EndsOr members cs := by
  cases cs with
  | nil => exact .inl rfl
  | cons x cs =>
    exact .inr ⟨x, rfl, fun hx => Bool.eq_false_iff.1 (h x rfl) (contains_ofString.2 hx)⟩

/-- The run that a class takes is the longest there is. A longer one would go on with a member where
the class stops. -/
theorem longestRun_leadingRun (members : String) (cs : List Char) :
    LongestRun members ((ofString members).leadingRun cs) cs where
  ahead := ⟨_, (ofString members).leadingRun_append_afterRun cs⟩
  inside _ hx := contains_ofString.1 (contains_of_mem_leadingRun hx)
  longest other hother hinside := by
    obtain ⟨rest, rfl⟩ := hother
    refine ⟨(ofString members).leadingRun rest, ?_⟩
    exact (List.takeWhile_append_of_pos fun x hx => contains_ofString.2 (hinside x hx)).symm

end CharClass

/-! ## Behind a run

A class is as good as a move of the cursor, to where its run ends. -/

namespace Cursor

variable {c : Cursor} {cls : CharClass}

/-- The cursor behind all that a class has ahead. -/
def pastRun (c : Cursor) (cls : CharClass) : Cursor :=
  ⟨c.source, c.offset + Text.byteLength (cls.leadingRun c.rest), cls.afterRun c.rest⟩

theorem advance_pastRun (c : Cursor) (cls : CharClass) :
    c.advance (Text.byteLength (cls.leadingRun c.rest)) = .ok (c.pastRun cls) :=
  advance_eq_ok_iff.2
    ⟨_, (cls.leadingRun_append_afterRun c.rest).symm, rfl, rfl, rfl⟩

/-- Where the class has nothing ahead, behind it is here. -/
theorem pastRun_of_stops (h : cls.Stops c.rest) : c.pastRun cls = c := by
  rw [pastRun, CharClass.leadingRun_eq_nil_iff.2 h, h.afterRun_eq]
  rfl

theorem stops_pastRun (c : Cursor) (cls : CharClass) : cls.Stops (c.pastRun cls).rest :=
  cls.stops_afterRun c.rest

/-- Behind a run there is no other one. -/
@[simp] theorem pastRun_pastRun (c : Cursor) (cls : CharClass) :
    (c.pastRun cls).pastRun cls = c.pastRun cls :=
  pastRun_of_stops (c.stops_pastRun cls)

theorem chars_eq_noMatch (h : cls.Stops c.rest) : c.chars cls = .noMatch := by
  rw [chars_eq, CharClass.leadingRun_eq_nil_iff.2 h]
  rfl

/-- **A class takes all of its run.** -/
theorem chars_eq_matched (h : ¬cls.Stops c.rest) :
    c.chars cls = .matched (.text (String.ofList (cls.leadingRun c.rest))) (c.pastRun cls) := by
  rw [chars_eq, if_neg, matchTo, advance_pastRun]
  rw [List.isEmpty_iff, CharClass.leadingRun_eq_nil_iff]
  exact h

theorem munched_pastRun (members : String) (c : Cursor) :
    Munched members c (String.ofList ((CharClass.ofString members).leadingRun c.rest))
      (c.pastRun (.ofString members)) where
  longest := by
    rw [String.toList_ofList]
    exact CharClass.longestRun_leadingRun members c.rest
  source := rfl
  offset := by
    rw [Text.utf8ByteSize_ofList]
    rfl
  rest := by
    rw [String.toList_ofList]
    exact ((CharClass.ofString members).leadingRun_append_afterRun c.rest).symm
  stops := (c.stops_pastRun _).endsOr
  valid hc := hc.advance (c.advance_pastRun _)

end Cursor

/-! ## Padding

What is allowed on either side of a parser is a class, or nothing. The cursor behind it is
determined by the text, so a padded parser is run at one cursor only. -/

namespace Grammar

variable {cls : CharClass}

/-- A run of members of a class, or nothing. -/
def skip (cls : CharClass) : Grammar :=
  .alt (.chars cls) (.accept (.text ""))

/-- A parser with members of a class allowed on both sides. -/
def padded (g : Grammar) (cls : CharClass) : Grammar :=
  .right (skip cls) (.left g (skip cls))

variable (parseRule : Hold → RuleId → Cursor → Run)

/-- Skipping comes to the cursor behind the run, whether there is one or not. -/
theorem run_skip (cls : CharClass) (c : Cursor) :
    ∃ v, (skip cls).run parseRule c = .done (.matched v (c.pastRun cls)) := by
  by_cases h : cls.Stops c.rest
  · refine ⟨.text "", ?_⟩
    funext w
    show (Run.done (c.chars cls)).orElse _ w = _
    rw [Cursor.chars_eq_noMatch h, Cursor.pastRun_of_stops h]
    rfl
  · refine ⟨.text (String.ofList (cls.leadingRun c.rest)), ?_⟩
    funext w
    show (Run.done (c.chars cls)).orElse _ w = _
    rw [Cursor.chars_eq_matched h]
    rfl

/-- **A padded parser is the parser behind the run,** and its match ends behind the run there. -/
theorem run_padded (g : Grammar) (cls : CharClass) (c : Cursor) :
    (g.padded cls).run parseRule c =
      (g.run parseRule (c.pastRun cls)).andThen fun v next =>
        .done (.matched v (next.pastRun cls)) := by
  funext w
  obtain ⟨_, hbefore⟩ := run_skip parseRule cls c
  show (((skip cls).run parseRule c).andThen _ |>.andThen _) w = _
  rw [hbefore, Run.andThen_done_matched]
  show ((((g.run parseRule (c.pastRun cls)).andThen fun v next =>
    ((skip cls).run parseRule next).andThen _).andThen _ |>.andThen _).andThen _) w = _
  unfold Run.andThen
  rcases g.run parseRule (c.pastRun cls) w with ⟨_ | _ | _ | _, w'⟩
  case matched v next =>
    obtain ⟨_, hafter⟩ := run_skip parseRule cls next
    simp only [hafter]
    rfl
  all_goals rfl

/-- **Padding twice is padding once,** whatever the parser and however its rules are parsed. -/
theorem run_padded_padded (g : Grammar) (cls : CharClass) (c : Cursor) :
    ((g.padded cls).padded cls).run parseRule c = (g.padded cls).run parseRule c := by
  funext w
  rw [run_padded, run_padded, run_padded, Cursor.pastRun_pastRun]
  unfold Run.andThen
  rcases g.run parseRule (c.pastRun cls) w with ⟨_ | _ | _ | _, w'⟩
  case matched v next =>
    show (Outcome.matched v ((next.pastRun cls).pastRun cls), w') = _
    rw [Cursor.pastRun_pastRun]
    rfl
  all_goals rfl

end Grammar

/-- What is built of a padded blueprint is padded. -/
theorem Blueprint.build_padded (cls : CharClass) (p : Blueprint) (scope : List (String × RuleId)) :
    (Blueprint.padded cls p).build scope = (fun g => g.padded cls) <$> p.build scope := by
  simp only [Blueprint.padded, Blueprint.right, Blueprint.left, Blueprint.skip, Blueprint.build,
    pure_bind, bind_pure_comp, Functor.map_map, map_pure]
  rfl

theorem Build.run_map (f : Grammar → Grammar) (x : Build Grammar) (w : Workspace) :
    (f <$> x).run w = ((x.run w).1.map f, (x.run w).2) := by
  rw [ExceptT.run_map]
  rfl

/-! ## Parses

Neither a class nor padding looks at the workspace, so what is said of them holds in any. -/

namespace Workspace

variable {members : String} {c : Cursor}

/-- Where a member stands, a parse with the class matches its run. -/
theorem parse_chars_of_begins (w : Workspace) (h : BeginsIn members c.rest) :
    ∃ run next, w.parse (.chars (.ofString members)) c = (.matched (.text run) next, w)
      ∧ Munched members c run next := by
  refine ⟨_, _, ?_, c.munched_pastRun members⟩
  show (c.chars _, w) = _
  rw [Cursor.chars_eq_matched fun hstops => CharClass.stops_ofString.1 hstops h]

/-- Where none stands, it does not match. -/
theorem parse_chars_of_not_begins (w : Workspace) (h : ¬BeginsIn members c.rest) :
    w.parse (.chars (.ofString members)) c = (.noMatch, w) := by
  show (c.chars _, w) = _
  rw [Cursor.chars_eq_noMatch (CharClass.stops_ofString.2 h)]

/-- **Maximal munch.** A class of characters matches exactly where one of them stands. The value is
the longest run of them that begins there, the match ends as many bytes further on as the run has,
at a valid cursor if it began at one, and what follows is no member. So padding a parser a second
time with the same class makes no difference, at any cursor and in any workspace, whatever the
parser is built of. -/
theorem parse_munches (members : String) (c : Cursor) (w : Workspace) :
    ((∃ v next w', w.parse (.chars (.ofString members)) c = (.matched v next, w'))
        ↔ BeginsIn members c.rest)
      ∧ (¬BeginsIn members c.rest → w.parse (.chars (.ofString members)) c = (.noMatch, w))
      ∧ (∀ v next w', w.parse (.chars (.ofString members)) c = (.matched v next, w') →
        ∃ run, v = .text run ∧ Munched members c run next ∧ w' = w)
      ∧ ∀ (cls : CharClass) (p : Blueprint) (scope : List (String × RuleId)),
        match (p.build scope).run w with
        | (.error fault, w') =>
          ((Blueprint.padded cls p).build scope).run w = (.error fault, w')
            ∧ ((Blueprint.padded cls (.padded cls p)).build scope).run w = (.error fault, w')
        | (.ok _, w') =>
          ∃ once twice, ((Blueprint.padded cls p).build scope).run w = (.ok once, w')
            ∧ ((Blueprint.padded cls (.padded cls p)).build scope).run w = (.ok twice, w')
            ∧ ∀ (u : Workspace) (d : Cursor), u.parse twice d = u.parse once d := by
  refine ⟨⟨?_, ?_⟩, w.parse_chars_of_not_begins, ?_, ?_⟩
  · rintro ⟨v, next, w', hparse⟩
    by_contra hbegins
    rw [w.parse_chars_of_not_begins hbegins] at hparse
    cases hparse
  · intro hbegins
    obtain ⟨run, next, hparse, _⟩ := w.parse_chars_of_begins hbegins
    exact ⟨_, next, w, hparse⟩
  · intro v next w' hparse
    by_cases hbegins : BeginsIn members c.rest
    · obtain ⟨run, _, hrun, hmunched⟩ := w.parse_chars_of_begins hbegins
      rw [hrun] at hparse
      cases hparse
      exact ⟨run, rfl, hmunched, rfl⟩
    · rw [w.parse_chars_of_not_begins hbegins] at hparse
      cases hparse
  · intro cls p scope
    simp only [Blueprint.build_padded, Build.run_map]
    rcases (p.build scope).run w with ⟨fault | g, w'⟩
    · exact ⟨rfl, rfl⟩
    · exact ⟨_, _, rfl, rfl, fun u d => congrFun (Grammar.run_padded_padded _ g cls d) u⟩

/-- The run is two characters of two bytes each. -/
example : (empty.parse (.chars (.ofString "é")) (Source.start ⟨0, "ééx".toList⟩)).1
    = .matched (.text "éé") ⟨⟨0, "ééx".toList⟩, 4, ['x']⟩ := by
  cbv

end Workspace

end Packrat
