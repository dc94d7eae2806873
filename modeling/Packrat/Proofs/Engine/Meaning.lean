import Mathlib.Logic.Relation
import Packrat.Proofs.Engine.Place
import Packrat.Proofs.Engine.Plain

/-!
# What blueprints mean

The meaning of a blueprint says what it makes of a text, and knows nothing of caches, counters,
construction or entry markers. A *goal* is a blueprint at a rest of the text, inside some rules;
its *course* says which other goals it asks for, one after the other, and what it makes of their
verdicts. Where a rule is asked for, the course asks for its body there, and that is all.

* **`Course.Yields`** is the big-step relation: a verdict is reached by following the course, with
  the verdict of every goal that is asked for derived in the same way. It is not total: a goal
  that comes back to itself yields nothing.
* **`Goal.Asks`** is one step down in an evaluation: the goal asks for another one, all earlier
  ones having yielded.
* **`yields_unique`**, **`Course.Yields.not_deep`** — a verdict is unique, and a goal that yields
  one does not ask forever.
* **`Goal.Loops`** — a goal from which some goal is reached that comes back to itself. Such a goal
  yields nothing (`Goal.Loops.not_yields`), and the place of the loop is unique
  (`Goal.Loops.rest_unique`): only the one goal that does not yield is ever left open, so there is
  a single way into the loop.
* **`Goal.yields_plain`** — a goal and the one without caches, counters and levels yield the same.
-/

namespace Packrat

open Relation

/-! ## Verdicts

Verdicts are outcomes without sources. A place in a text is given by what is left of it, which is
what parsers look at; offsets come in only when a verdict becomes an outcome. -/

/-- What a goal comes to; places are given by the text that lies ahead. -/
inductive Verdict where
  | matched (value : Value) (rest : List Char)
  | noMatch
  | failed (message : String) (rest : List Char)
  -- a repetition whose operand matched without moving
  | stalled (rest : List Char)

namespace Verdict

/-- The verdict as the outcome of a run in a source. -/
def outcome (s : Source) : Verdict → Outcome
  | .matched value rest => .matched value (s.before rest)
  | .noMatch => .noMatch
  | .failed message rest => .failed ⟨message, (s.before rest).offset⟩
  | .stalled rest => .fault (.stalled (s.before rest).offset)

/-- What a token comes to before the given text. -/
def literal (token : String) (cs : List Char) : Verdict :=
  if token.toList.isPrefixOf cs then .matched (.text token) (cs.drop token.toList.length)
  else .noMatch

/-- What a class comes to: its run is matched, unless it is empty. -/
def chars (cls : CharClass) (cs : List Char) : Verdict :=
  if (cls.leadingRun cs).isEmpty then .noMatch
  else .matched (.text (String.ofList (cls.leadingRun cs))) (cls.afterRun cs)

/-- The place of the verdict lies in the given text. -/
def Within (cs : List Char) : Verdict → Prop
  | .matched _ rest => rest <:+ cs
  | .noMatch => True
  | .failed _ rest => rest <:+ cs
  | .stalled rest => rest <:+ cs

/-- A place in a rest of a text is a place in the text. -/
theorem Within.mono {cs ds : List Char} (h : ds <:+ cs) {v : Verdict} (hv : v.Within ds) :
    v.Within cs := by
  cases v with
  | matched value rest => exact List.IsSuffix.trans hv h
  | noMatch => trivial
  | failed message rest => exact List.IsSuffix.trans hv h
  | stalled rest => exact List.IsSuffix.trans hv h

/-- A token and a class match where they stand, or not at all. -/
theorem within_literal (token : String) (cs : List Char) : (literal token cs).Within cs := by
  unfold literal
  split
  · exact List.drop_suffix _ _
  · trivial

theorem within_chars (cls : CharClass) (cs : List Char) : (chars cls cs).Within cs := by
  unfold chars
  split
  · trivial
  · exact ⟨_, cls.leadingRun_append_afterRun cs⟩

end Verdict

/-! ## Goals and courses

The engine is a function of grammars with numbers for rules. Here rules are bodies, found in a
context by name, and evaluation is laid out as a tree of questions. -/

/-- The enclosing rules with their bodies, innermost first. -/
abbrev Context := List (String × Blueprint)

/-- The body of the innermost enclosing rule of a name, and the rules around that one. -/
def Context.find? (name : String) : Context → Option (Blueprint × Context)
  | [] => none
  | (n, body) :: outer => if name == n then some (body, outer) else find? name outer

/-- What is to be evaluated, and where. -/
inductive Goal where
  | parse (Γ : Context) (p : Blueprint) (cs : List Char)
  -- the next round of a repetition, with the values so far in reverse
  | again (Γ : Context) (p : Blueprint) (values : List Value) (cs : List Char)

/-- The text that lies ahead of a goal. -/
def Goal.rest : Goal → List Char
  | .parse _ _ cs => cs
  | .again _ _ _ cs => cs

/-- The body of a rule, inside that rule and the ones around it. -/
def Goal.body (name : String) (body : Blueprint) (outer : Context) (cs : List Char) : Goal :=
  .parse ((name, body) :: outer) body cs

/-- How a goal is evaluated: a verdict, or another goal to ask for and how to go on after it. -/
inductive Course where
  | done (v : Verdict)
  | ask (n : Goal) (next : Verdict → Course)

namespace Course

/-- Go on after a match; every other verdict stands. -/
def onMatch (n : Goal) (next : Value → List Char → Course) : Course :=
  .ask n fun
    | .matched v rest => next v rest
    | other => .done other

/-- Go on after no match; every other verdict stands. -/
def onNoMatch (n : Goal) (next : Course) : Course :=
  .ask n fun
    | .noMatch => next
    | other => .done other

end Course

/-- What a transformation that may refuse makes of a match that began at the given place. -/
def Verdict.transformed (cs : List Char) (result : Except String Value) (rest : List Char) :
    Verdict :=
  match result with
  | .ok value => .matched value rest
  | .error message => .failed message cs

/-- The values that a repetition has collected when its operand no longer matches. -/
def Verdict.collected (values : List Value) (cs : List Char) : Verdict :=
  if values.isEmpty then .noMatch else .matched (.list values.reverse) cs

/-- The course of a goal. Caches and counters pass the question on, an operator level asks for the
chain that it stands for, a rule asks for its body. A name that stands for nothing fails. -/
def Goal.course : Goal → Course
  | .parse _ (.literal token) cs => .done (.literal token cs)
  | .parse _ (.chars cls) cs => .done (.chars cls cs)
  | .parse _ (.accept value) cs => .done (.matched value cs)
  | .parse Γ (.map f p) cs => .onMatch (.parse Γ p cs) fun v ds => .done (.matched (f v) ds)
  | .parse Γ (.tryMap f p) cs =>
    .onMatch (.parse Γ p cs) fun v ds => .done (.transformed cs (f v) ds)
  | .parse Γ (.seq a b) cs => .onMatch (.parse Γ a cs) fun u ds =>
    .onMatch (.parse Γ b ds) fun v es => .done (.matched (.pair u v) es)
  | .parse Γ (.alt a b) cs => .onNoMatch (.parse Γ a cs) (.ask (.parse Γ b cs) .done)
  | .parse Γ (.rep p) cs => .ask (.again Γ p [] cs) .done
  | .parse Γ (.required message p) cs => .onNoMatch (.parse Γ p cs) (.done (.failed message cs))
  | .parse Γ (.memo _ p) cs => .ask (.parse Γ p cs) .done
  | .parse Γ (.count _ p) cs => .ask (.parse Γ p cs) .done
  | .parse Γ (.level assoc ops _ operand) cs =>
    .ask (.parse Γ (assoc.chain operand (Operator.longestFirst ops)) cs) .done
  | .parse Γ (.rule label body) cs => .ask (.body label.name body Γ cs) .done
  | .parse Γ (.self name) cs =>
    match Γ.find? name with
    | some (body, outer) => .ask (.body name body outer cs) .done
    | none => .done (.failed ("unresolved " ++ name) cs)
  | .parse _ (.exposed name) cs => .done (.failed ("unresolved " ++ name) cs)
  | .parse _ (.registered name) cs => .done (.failed ("unresolved " ++ name) cs)
  | .parse _ (.registeredMemo name) cs => .done (.failed ("unresolved " ++ name) cs)
  | .parse _ (.unreadable reason) cs => .done (.failed reason cs)
  | .again Γ p values cs => .ask (.parse Γ p cs) fun
    | .matched v ds =>
      if ds = cs then .done (.stalled cs) else .ask (.again Γ p (v :: values) ds) .done
    | .noMatch => .done (.collected values cs)
    | other => .done other

/-! ## The big-step relation

Two relations are read off courses: what is yielded in the end, and what is asked for on the way.
Both follow the course as far as the goals in it yield. -/

/-- Following the course ends in the verdict: every goal that is asked for yields the verdict that
the course goes on with. -/
inductive Course.Yields : Course → Verdict → Prop where
  | done (v : Verdict) : Yields (.done v) v
  | ask {n : Goal} {next : Verdict → Course} {u v : Verdict}
      (hn : Yields n.course u) (hnext : Yields (next u) v) : Yields (.ask n next) v

/-- The goal has the verdict. -/
def Goal.Yields (n : Goal) (v : Verdict) : Prop :=
  n.course.Yields v

/-- Following the course comes to ask for the goal: every goal asked for before has yielded. -/
inductive Course.Asks : Course → Goal → Prop where
  | now {n : Goal} {next : Verdict → Course} : Asks (.ask n next) n
  | later {n m : Goal} {next : Verdict → Course} {u : Verdict}
      (hn : n.Yields u) (hnext : Asks (next u) m) : Asks (.ask n next) m

/-- The goal comes to ask for the other one. -/
def Goal.Asks (n m : Goal) : Prop :=
  n.course.Asks m

/-- A repetition that has moved on asks for the next round. -/
theorem Goal.asks_again {Γ : Context} {p : Blueprint} {values : List Value} {v : Value}
    {cs rest : List Char} (hv : (Goal.parse Γ p cs).Yields (.matched v rest)) (hmoved : rest ≠ cs) :
    (Goal.again Γ p values cs).Asks (.again Γ p (v :: values) rest) := by
  refine .later hv ?_
  simp only [if_neg hmoved]
  exact .now

/-- A verdict is unique. Induction on the first derivation: each goal that is asked for yields the
same in both, so both go on alike. -/
theorem Course.yields_unique {k : Course} {v v' : Verdict} (h : k.Yields v) (h' : k.Yields v') :
    v = v' := by
  induction h generalizing v' with
  | done v => cases h'; rfl
  | ask _ _ ihn ihnext =>
    cases h' with
    | ask hn hnext =>
      cases ihn hn
      exact ihnext hnext

theorem Goal.yields_unique {n : Goal} {v v' : Verdict} (h : n.Yields v) (h' : n.Yields v') :
    v = v' :=
  Course.yields_unique h h'

/-- A goal that only asks for another one has its verdict. -/
theorem Course.yields_ask_done {n : Goal} {v : Verdict} :
    (Course.ask n .done).Yields v ↔ n.Yields v := by
  constructor
  · intro h
    cases h with
    | ask hn hdone => cases hdone; exact hn
  · intro h
    exact .ask h (.done v)

/-! ## Verdicts lie ahead

A course *stays within* a text when all the goals it asks for are at rests of that text and, as
long as their verdicts lie in their own texts, its verdict lies in the text. Every course of a goal
does, which is one case for each kind of blueprint; the rest is induction on derivations. -/

/-- Everything the course asks for and comes to lies in the given text. -/
def Course.Within (cs : List Char) : Course → Prop
  | .done v => v.Within cs
  | .ask n next => n.rest <:+ cs ∧ ∀ u : Verdict, u.Within n.rest → (next u).Within cs

/-- To go on after a match, the sequel has to stay within the rest that it finds. -/
theorem Course.within_onMatch {cs : List Char} {n : Goal} {next : Value → List Char → Course}
    (hn : n.rest <:+ cs) (h : ∀ v ds, ds <:+ n.rest → (next v ds).Within cs) :
    (Course.onMatch n next).Within cs := by
  refine ⟨hn, fun u hu => ?_⟩
  cases u with
  | matched v rest => exact h v rest hu
  | noMatch => trivial
  | failed message rest => exact List.IsSuffix.trans hu hn
  | stalled rest => exact List.IsSuffix.trans hu hn

theorem Course.within_onNoMatch {cs : List Char} {n : Goal} {next : Course} (hn : n.rest <:+ cs)
    (h : next.Within cs) : (Course.onNoMatch n next).Within cs := by
  refine ⟨hn, fun u hu => ?_⟩
  cases u with
  | noMatch => exact h
  | matched v rest => exact List.IsSuffix.trans hu hn
  | failed message rest => exact List.IsSuffix.trans hu hn
  | stalled rest => exact List.IsSuffix.trans hu hn

theorem Course.within_ask_done {cs : List Char} {n : Goal} (hn : n.rest <:+ cs) :
    (Course.ask n .done).Within cs :=
  ⟨hn, fun _ hu => hu.mono hn⟩

/-- **Every course stays within the text of its goal.** One case for each kind of blueprint. -/
theorem Goal.course_within (n : Goal) : n.course.Within n.rest := by
  cases n with
  | again Γ p values cs =>
    refine ⟨List.suffix_rfl, fun u hu => ?_⟩
    cases u with
    | matched v ds =>
      show Course.Within cs (if ds = cs then _ else _)
      split
      · exact List.suffix_rfl
      · exact Course.within_ask_done hu
    | noMatch =>
      show Verdict.Within cs (Verdict.collected values cs)
      unfold Verdict.collected
      split
      · trivial
      · exact List.suffix_rfl
    | failed message ds => exact hu
    | stalled ds => exact hu
  | parse Γ p cs =>
    cases p with
    | literal token => exact Verdict.within_literal token cs
    | chars cls => exact Verdict.within_chars cls cs
    | accept value => exact List.suffix_rfl
    | map f p => exact Course.within_onMatch List.suffix_rfl fun v ds hds => hds
    | tryMap f p =>
      refine Course.within_onMatch List.suffix_rfl fun v ds hds => ?_
      show Verdict.Within cs (Verdict.transformed cs (f v) ds)
      unfold Verdict.transformed
      split
      · exact hds
      · exact List.suffix_rfl
    | seq a b =>
      exact Course.within_onMatch List.suffix_rfl fun u ds hds =>
        Course.within_onMatch hds fun v es hes => List.IsSuffix.trans hes hds
    | alt a b =>
      exact Course.within_onNoMatch List.suffix_rfl (Course.within_ask_done List.suffix_rfl)
    | rep p => exact Course.within_ask_done List.suffix_rfl
    | required message p => exact Course.within_onNoMatch List.suffix_rfl List.suffix_rfl
    | memo name p => exact Course.within_ask_done List.suffix_rfl
    | count name p => exact Course.within_ask_done List.suffix_rfl
    | level assoc ops cached operand => exact Course.within_ask_done List.suffix_rfl
    | rule label body => exact Course.within_ask_done List.suffix_rfl
    | self name =>
      simp only [Goal.course, Goal.rest]
      split
      · exact Course.within_ask_done List.suffix_rfl
      · exact List.suffix_rfl
    | exposed name => exact List.suffix_rfl
    | registered name => exact List.suffix_rfl
    | registeredMemo name => exact List.suffix_rfl
    | unreadable reason => exact List.suffix_rfl

/-- Verdicts lie in the text that their course stays within. Induction on the derivation. -/
theorem Course.Yields.within {k : Course} {v : Verdict} (h : k.Yields v) {cs : List Char}
    (hk : k.Within cs) : v.Within cs := by
  induction h generalizing cs with
  | done v => exact hk
  | ask _ _ ihn ihnext => exact ihnext (hk.2 _ (ihn (Goal.course_within _)))

theorem Goal.Yields.within {n : Goal} {v : Verdict} (h : n.Yields v) : v.Within n.rest :=
  Course.Yields.within h n.course_within

/-- Goals that are asked for lie in that text, too. -/
theorem Course.Asks.rest_suffix {k : Course} {m : Goal} (h : k.Asks m) {cs : List Char}
    (hk : k.Within cs) : m.rest <:+ cs := by
  induction h with
  | now => exact hk.1
  | later hn _ ih => exact ih (hk.2 _ hn.within)

theorem Goal.Asks.rest_suffix {n m : Goal} (h : n.Asks m) : m.rest <:+ n.rest :=
  Course.Asks.rest_suffix h n.course_within

/-- Places only ever move on, however many goals are asked for inside each other. -/
theorem Goal.rest_suffix_of_reaches {n m : Goal} (h : ReflTransGen Goal.Asks n m) :
    m.rest <:+ n.rest := by
  induction h with
  | refl => exact List.suffix_rfl
  | tail _ hask ih => exact hask.rest_suffix.trans ih

/-! ## A goal that yields does not ask forever

A derivation is finite, so the goals that are asked for inside each other on the way to a verdict
are bounded in depth. -/

/-- Goals are asked for inside each other to the given depth. -/
def Course.Deep : Nat → Course → Prop
  | 0, _ => True
  | depth + 1, k => ∃ m, k.Asks m ∧ Deep depth m.course

/-- What goes deep goes less deep, too. -/
theorem Course.Deep.anti {depth depth' : Nat} {k : Course} (h : k.Deep depth')
    (hle : depth ≤ depth') : k.Deep depth := by
  induction depth' generalizing depth k with
  | zero =>
    obtain rfl : depth = 0 := Nat.le_zero.1 hle
    trivial
  | succ depth' ih =>
    cases depth with
    | zero => trivial
    | succ depth =>
      obtain ⟨m, hm, hdeep⟩ := h
      exact ⟨m, hm, ih hdeep (Nat.le_of_succ_le_succ hle)⟩

/-- Asking is one level more. -/
theorem Course.Deep.ask {depth : Nat} {n : Goal} {next : Verdict → Course}
    (h : n.course.Deep depth) : (Course.ask n next).Deep (depth + 1) :=
  ⟨n, .now, h⟩

/-- A course that goes on is as deep as what it goes on with. -/
theorem Course.Deep.later {depth : Nat} {n : Goal} {next : Verdict → Course} {u : Verdict}
    (hn : n.Yields u) (h : (next u).Deep depth) : (Course.ask n next).Deep depth := by
  cases depth with
  | zero => trivial
  | succ depth =>
    obtain ⟨m, hm, hdeep⟩ := h
    exact ⟨m, .later hn hm, hdeep⟩

/-- There is a depth that the way to a verdict does not come to. Induction on the derivation. -/
theorem Course.Yields.not_deep {k : Course} {v : Verdict} (h : k.Yields v) :
    ∃ depth, ¬k.Deep depth := by
  induction h with
  | done v =>
    refine ⟨1, ?_⟩
    rintro ⟨m, hm, _⟩
    cases hm
  | ask hn _ ihn ihnext =>
    obtain ⟨i, hi⟩ := ihn
    obtain ⟨j, hj⟩ := ihnext
    -- one level for the goal itself, and then whichever of the two goes deeper
    refine ⟨max i j + 1, ?_⟩
    rintro ⟨m, hm, hdeep⟩
    cases hm with
    | now => exact hi (hdeep.anti (Nat.le_max_left i j))
    | later hn' hnext =>
      -- the earlier goal yields one verdict only, so this is the course that was followed
      cases Goal.yields_unique hn hn'
      have hbelow : Course.Deep (max i j + 1) _ := ⟨m, hnext, hdeep⟩
      exact hj (hbelow.anti (by omega))

/-! ## Loops

A goal that comes back to itself asks forever. There may be several such goals, but they lie on one
circle, and all of them at one place: nothing between them has moved on. -/

/-- From the goal some goal at the given place is reached that comes back to itself. -/
def Goal.Loops (n : Goal) (rest : List Char) : Prop :=
  ∃ l, ReflTransGen Goal.Asks n l ∧ TransGen Goal.Asks l l ∧ l.rest = rest

/-- What asks for a goal that loops loops itself, at the same place. -/
theorem Goal.Loops.of_asks {n m : Goal} {rest : List Char} (h : m.Loops rest) (hask : n.Asks m) :
    n.Loops rest := by
  obtain ⟨l, hreach, hloop, hrest⟩ := h
  exact ⟨l, .head hask hreach, hloop, hrest⟩

/-- A loop lies ahead of where it is reached from. -/
theorem Goal.Loops.rest_suffix {n : Goal} {rest : List Char} (h : n.Loops rest) :
    rest <:+ n.rest := by
  obtain ⟨l, hreach, _, rfl⟩ := h
  exact rest_suffix_of_reaches hreach

/-- On the way to a loop, and round it, goals are asked for to any depth. -/
theorem Goal.Loops.deep {n : Goal} {rest : List Char} (h : n.Loops rest) (depth : Nat) :
    n.course.Deep depth := by
  induction depth generalizing n with
  | zero => trivial
  | succ depth ih =>
    obtain ⟨l, hreach, hloop, hrest⟩ := h
    rcases ReflTransGen.cases_head hreach with rfl | ⟨m, hask, hreach⟩
    · obtain ⟨m, hask, hback⟩ := TransGen.head'_iff.1 hloop
      exact ⟨m, hask, ih ⟨n, hback, hloop, hrest⟩⟩
    · exact ⟨m, hask, ih ⟨l, hreach, hloop, hrest⟩⟩

/-- **A goal that loops yields nothing.** -/
theorem Goal.Loops.not_yields {n : Goal} {rest : List Char} (h : n.Loops rest) :
    ¬∃ v, n.Yields v := by
  rintro ⟨v, hv⟩
  obtain ⟨depth, hshallow⟩ := Course.Yields.not_deep hv
  exact hshallow (h.deep depth)

/-- A course asks for one goal at most that yields nothing, since there it ends. -/
theorem Course.asks_unique {k : Course} {m m' : Goal} (h : k.Asks m) (h' : k.Asks m')
    (hm : ¬∃ v, m.Yields v) (hm' : ¬∃ v, m'.Yields v) : m = m' := by
  -- a course leaves a goal behind only when it has yielded, so neither can come after the other
  induction h with
  | now =>
    cases h' with
    | now => rfl
    | later hn _ => exact absurd ⟨_, hn⟩ hm
  | later hn _ ih =>
    cases h' with
    | now => exact absurd ⟨_, hn⟩ hm'
    | later hn' hnext' =>
      cases Goal.yields_unique hn hn'
      exact ih hnext' hm

/-- The first goal asks for the second one, which yields nothing: this is where its evaluation
goes on forever. -/
def Goal.StuckAt (n m : Goal) : Prop :=
  n.Asks m ∧ ¬∃ v, m.Yields v

/-- So there is one way at most along which goals are stuck. -/
theorem Goal.stuckAt_rightUnique : Relator.RightUnique Goal.StuckAt :=
  fun _ _ _ h h' => Course.asks_unique h.1 h'.1 h.2 h'.2

/-- On the way to a loop every goal is stuck. -/
theorem Goal.stuck_of_reaches {n l : Goal} (h : ReflTransGen Goal.Asks n l)
    (hloop : TransGen Goal.Asks l l) : ReflTransGen Goal.StuckAt n l := by
  induction h using ReflTransGen.head_induction_on with
  | refl => exact .refl
  | head hask hreach ih => exact .head ⟨hask, Loops.not_yields ⟨l, hreach, hloop, rfl⟩⟩ ih

/-- Every goal of a loop is stuck. -/
theorem Goal.stuck_loop {l : Goal} (hloop : TransGen Goal.Asks l l) :
    TransGen Goal.StuckAt l l := by
  obtain ⟨m, hask, hback⟩ := TransGen.head'_iff.1 hloop
  exact .head' ⟨hask, Loops.not_yields ⟨l, hback, hloop, rfl⟩⟩ (stuck_of_reaches hback hloop)

/-- Where every goal has at most one successor, all that a loop reaches lies on it. -/
theorem Goal.reaches_back {l m : Goal} (hloop : TransGen Goal.StuckAt l l)
    (h : ReflTransGen Goal.StuckAt l m) : ReflTransGen Goal.StuckAt m l := by
  induction h with
  | refl => exact .refl
  | tail _ hstep ih =>
    -- the last goal before has a successor on its way back to `l`, and it has only one
    rcases ReflTransGen.cases_head ih with heq | ⟨next, hnext, hback⟩
    · subst heq
      obtain ⟨next, hnext, hback⟩ := TransGen.head'_iff.1 hloop
      rw [stuckAt_rightUnique hstep hnext]
      exact hback
    · rw [stuckAt_rightUnique hstep hnext]
      exact hback

/-- Being stuck at a goal is having asked for it. -/
theorem Goal.StuckAt.asks {n m : Goal} (h : ReflTransGen Goal.StuckAt n m) :
    ReflTransGen Goal.Asks n m := by
  induction h with
  | refl => exact .refl
  | tail _ hstep ih => exact ih.tail hstep.1

/-- **The place of a loop is unique.** Both loops lie on the one way of stuck goals, so one reaches
the other and is reached back; and places only ever move on. -/
theorem Goal.Loops.rest_unique {n : Goal} {rest rest' : List Char} (h : n.Loops rest)
    (h' : n.Loops rest') : rest = rest' := by
  obtain ⟨l, hreach, hloop, rfl⟩ := h
  obtain ⟨l', hreach', hloop', rfl⟩ := h'
  have antisymm {a b : Goal} (hab : ReflTransGen Goal.StuckAt a b)
      (hba : ReflTransGen Goal.StuckAt b a) : a.rest = b.rest := by
    have h1 := rest_suffix_of_reaches (StuckAt.asks hab)
    have h2 := rest_suffix_of_reaches (StuckAt.asks hba)
    exact (h1.eq_of_length (Nat.le_antisymm h1.length_le h2.length_le)).symm
  rcases ReflTransGen.total_of_right_unique stuckAt_rightUnique
      (stuck_of_reaches hreach hloop) (stuck_of_reaches hreach' hloop') with hto | hto
  · exact antisymm hto (reaches_back (stuck_loop hloop) hto)
  · exact (antisymm hto (reaches_back (stuck_loop hloop') hto)).symm

/-! ## Plain goals

A blueprint and its plain form mean the same: a cache or a counter only passes the question on, and
an operator level asks for its chain, which is what its plain form is. For all other blueprints the
course of the plain form is the course of the blueprint with every goal in it made plain. -/

/-- The rules with plain bodies. -/
def Context.plain (Γ : Context) : Context :=
  Γ.map fun (name, body) => (name, body.plain)

/-- The goal with everything in it made plain. -/
def Goal.plain : Goal → Goal
  | .parse Γ p cs => .parse Γ.plain p.plain cs
  | .again Γ p values cs => .again Γ.plain p.plain values cs

/-- The course with every goal that it asks for made plain. -/
def Course.plain : Course → Course
  | .done v => .done v
  | .ask n next => .ask n.plain fun v => (next v).plain

/-- Names are looked up alike in plain rules: only the names matter. -/
theorem Context.find?_plain (name : String) (Γ : Context) :
    Γ.plain.find? name = (Γ.find? name).map fun x => (x.1.plain, Context.plain x.2) := by
  induction Γ with
  | nil => rfl
  | cons e Γ ih =>
    show (if name == e.1 then some (e.2.plain, Context.plain Γ) else find? name (plain Γ)) = _
    rw [find?]
    split
    · rfl
    · exact ih

/-- Making a course plain does not change where it goes on. -/
theorem Course.plain_onMatch (n : Goal) (next : Value → List Char → Course) :
    (Course.onMatch n next).plain = .onMatch n.plain fun v ds => (next v ds).plain := by
  unfold Course.onMatch
  rw [Course.plain]
  congr 1
  funext u
  cases u <;> rfl

theorem Course.plain_onNoMatch (n : Goal) (next : Course) :
    (Course.onNoMatch n next).plain = .onNoMatch n.plain next.plain := by
  unfold Course.onNoMatch
  rw [Course.plain]
  congr 1
  funext u
  cases u <;> rfl

/-- The rounds of a repetition pass nothing on, so their courses correspond. -/
theorem Goal.course_again_plain (Γ : Context) (p : Blueprint) (values : List Value)
    (cs : List Char) :
    (Goal.again Γ p values cs).plain.course = (Goal.again Γ p values cs).course.plain := by
  simp only [Goal.plain, Goal.course, Course.plain]
  congr 1
  funext u
  cases u with
  | matched v ds =>
    show (if ds = cs then _ else _) = Course.plain (if ds = cs then _ else _)
    split
    · rfl
    · rfl
  | noMatch => rfl
  | failed message ds => rfl
  | stalled ds => rfl

/-- Whether the blueprint only passes the question on. -/
def Blueprint.passesOn : Blueprint → Bool
  | .memo _ _ => true
  | .count _ _ => true
  | .level _ _ _ _ => true
  | _ => false

/-- Of a blueprint that asks for its own parts the plain form asks for the plain parts. -/
theorem Goal.course_parse_plain (Γ : Context) {p : Blueprint} (hp : p.passesOn = false)
    (cs : List Char) :
    (Goal.parse Γ p cs).plain.course = (Goal.parse Γ p cs).course.plain := by
  cases p with
  | map f p =>
    simp only [Goal.plain, Blueprint.plain, Goal.course, Course.plain_onMatch]
    rfl
  | tryMap f p =>
    simp only [Goal.plain, Blueprint.plain, Goal.course, Course.plain_onMatch]
    rfl
  | seq a b =>
    simp only [Goal.plain, Blueprint.plain, Goal.course, Course.plain_onMatch]
    rfl
  | alt a b =>
    simp only [Goal.plain, Blueprint.plain, Goal.course, Course.plain_onNoMatch]
    rfl
  | required message p =>
    simp only [Goal.plain, Blueprint.plain, Goal.course, Course.plain_onNoMatch]
    rfl
  | self name =>
    simp only [Goal.plain, Blueprint.plain, Goal.course, Context.find?_plain]
    cases Γ.find? name <;> rfl
  | memo name p => cases hp
  | count name p => cases hp
  | level assoc ops cached operand => cases hp
  | _ => rfl

/-- A level and its chain have one plain form. -/
theorem Goal.plain_level (Γ : Context) (assoc : Assoc) (ops : List Operator) (cached : Bool)
    (operand : Blueprint) (cs : List Char) :
    (Goal.parse Γ (assoc.chain operand (Operator.longestFirst ops)) cs).plain
      = (Goal.parse Γ (.level assoc ops cached operand) cs).plain := by
  rw [Goal.plain, Goal.plain, Blueprint.plain_chain, Blueprint.plain]

/-- A goal that passes the question on has the plain form of the goal that it asks for. -/
theorem Goal.plain_yields {n : Goal} {v : Verdict} (h : n.course.plain.Yields v) :
    n.plain.Yields v := by
  cases n with
  | again Γ p values cs =>
    rw [Goal.Yields, course_again_plain]
    exact h
  | parse Γ p cs =>
    cases p with
    | memo name p => exact Course.yields_ask_done.1 h
    | count name p => exact Course.yields_ask_done.1 h
    | level assoc ops cached operand =>
      rw [← plain_level]
      exact Course.yields_ask_done.1 h
    | _ =>
      rw [Goal.Yields, course_parse_plain Γ rfl]
      exact h

/-- What a course yields its plain form yields. Induction on the derivation. -/
theorem Course.Yields.plain {k : Course} {v : Verdict} (h : k.Yields v) : k.plain.Yields v := by
  induction h with
  | done v => exact .done v
  | ask _ _ ihn ihnext => exact .ask (Goal.plain_yields ihn) ihnext

/-- A goal yields what is yielded by every course with the plain form that the goal has. Induction
on the blueprint: one that passes the question on leads to one that does not. -/
theorem Goal.yields_of_plain {n : Goal} {v : Verdict}
    (h : ∀ k : Course, k.plain = n.plain.course → k.Yields v) : n.Yields v := by
  cases n with
  | again Γ p values cs => exact h _ (course_again_plain Γ p values cs).symm
  | parse Γ p cs =>
    induction p with
    | memo name p ih => exact Course.yields_ask_done.2 (ih h)
    | count name p ih => exact Course.yields_ask_done.2 (ih h)
    | level assoc ops cached operand =>
      refine Course.yields_ask_done.2 (h _ ?_)
      rw [← plain_level]
      exact (course_parse_plain Γ rfl cs).symm
    | _ => exact h _ (course_parse_plain Γ rfl cs).symm

/-- What the plain form of a course yields the course yields. Induction on the derivation, for every
course with this plain form. -/
theorem Course.Yields.of_plain {k k' : Course} {v : Verdict} (h : k'.Yields v)
    (hk : k.plain = k') : k.Yields v := by
  induction h generalizing k with
  | done v =>
    cases k with
    | done u => cases hk; exact .done v
    | ask n next => cases hk
  | ask _ _ ihn ihnext =>
    cases k with
    | done u => cases hk
    | ask n next =>
      cases hk
      exact .ask (Goal.yields_of_plain fun k hk => ihn hk) (ihnext rfl)

/-- **A goal and its plain form yield the same.** -/
theorem Goal.yields_plain {n : Goal} {v : Verdict} : n.plain.Yields v ↔ n.Yields v := by
  constructor
  · intro h
    exact yields_of_plain fun k hk => Course.Yields.of_plain h hk
  · intro h
    exact plain_yields (Course.Yields.plain h)

end Packrat
