import Packrat.Proofs.Engine.Building

/-!
# Runs follow courses

In a workspace that a legend explains, running a grammar does what its blueprint means. The same
is shown of the engine without its guard against left recursion, which has nothing else to stop it
than the depth that it is given.

* **`Rule.parseUnguarded`** — how a rule is parsed without the guard; a `Mode` says which of the
  two is meant, and to which depth.
* **`Ready`** — the situation in which a goal is run: a coherent workspace, rules entered only on
  the way to this goal, and, with the guard, enough depth left.
* **`Performs`** — what the run comes to. Either the course of the goal yields a verdict, and that
  is the outcome; or the run breaks off. With the guard it does so because the course asks for a
  goal that loops, and the outcome is the report of that loop, the only alarm raised. Without the
  guard it does so because goals are asked for inside each other to the depth that was given. In
  all cases the workspace stays coherent and keeps its markers.
* One lemma for each way in which runs are put together (`Performs.andThen`, `Performs.orElse`,
  `performs_repeatFrom`, `performs_viaCache`), one for rules (`performs_rule`), and from these, by
  induction on the grammar and on the depth, **`run_performs`**.

A rule refuses for left recursion only where it is entered at this very place. Being entered means
that its body is on the way to the present goal, and the present goal asks for that body again: so
the body comes back to itself. That is all the guard needs to be right about. It misses nothing
because every run ends: a rule that is not entered at this place uses up headroom.
-/

namespace Packrat

open Relation

/-! ## Modes

The engine without its guard differs in one place only, so both are followed at once, and what is
said of either is said for a mode. -/

/-- Parse a rule at a cursor to the given depth, whether or not it is entered there already. In all
else this is `Rule.parse`. -/
def Rule.parseUnguarded : Nat → Hold → RuleId → Cursor → Run
  | 0, _, _, _ => .done (.fault .exhausted)
  | depth + 1, hold, id, c => fun w =>
    match w.rule? hold id with
    | none => (c.fail Refusal.dropped.message, w)
    | some _ =>
      let before := w.marker id
      match (w.enter id c.position).definition id with
      | (.ok (some g), w) =>
        let (outcome, w) := g.run (Rule.parseUnguarded depth) c w
        (outcome, w.leave id before)
      | (.ok none, w) => (c.fail Refusal.underConstruction.message, w.leave id before)
      | (.error fault, w) => (.fault fault, w.leave id before)

/-- How rules are parsed. -/
structure Mode where
  guarded : Bool
  -- how many rules can be inside each other
  depth : Nat

/-- How rules are parsed in this mode. -/
def Mode.parseRule : Mode → Hold → RuleId → Cursor → Run
  | ⟨true, depth⟩ => Rule.parse depth
  | ⟨false, depth⟩ => Rule.parseUnguarded depth

/-! ## Situations

What a run needs to know is kept from goal to goal: going down to a goal that is asked for keeps it,
and so does every stretch of a run. -/

/-- Every rule that is entered is so in this source, and its body leads to the goal. -/
def Legend.OnPath (L : Legend) (s : Source) (w : Workspace) (n : Goal) : Prop :=
  ∀ id plan p, L.plan id = some plan → w.marker id = some p →
    ∃ Γ cs, L.Scoped plan.scope Γ ∧ cs <:+ s.text ∧ p = (s.before cs).position
      ∧ ReflTransGen Goal.Asks (.body plan.label.name plan.body.plain Γ cs) n

/-- The goal can be run in the workspace, inside the rules of the scope. -/
structure Ready (mode : Mode) (L : Legend) (s : Source) (scope : Scope) (Γ : Context) (n : Goal)
    (w : Workspace) : Prop where
  coherent : L.Coherent w
  known : L.text s.id = some s.text
  inside : n.rest <:+ s.text
  context : L.Scoped scope Γ
  -- a weak handle is good while its rule is being parsed, whoever else may own the rule
  active : ∀ e ∈ scope, e.2 ∈ w.active
  onPath : L.OnPath s w n
  -- the guard bounds the nesting of rules; without it any depth may turn out too small
  enough : mode.guarded = true →
    w.headroom (s.before n.rest).position n.rest.length < mode.depth

section

variable {mode : Mode} {L L' : Legend} {s : Source} {w w' : Workspace} {scope : Scope}
  {Γ : Context} {n m : Goal}

/-- Headroom does not come back on the way to a goal that is asked for. -/
theorem headroom_asks (s : Source) (w : Workspace) (hask : n.Asks m) :
    w.headroom (s.before m.rest).position m.rest.length
      ≤ w.headroom (s.before n.rest).position n.rest.length := by
  have hsuffix := hask.rest_suffix
  by_cases hrest : m.rest = n.rest
  · rw [hrest]
  · refine w.headroom_le_of_lt _ _ (Nat.lt_of_le_of_ne hsuffix.length_le fun hlen => ?_)
    exact hrest (hsuffix.eq_of_length hlen)

/-- What leads to a goal leads to what the goal asks for. -/
theorem Legend.OnPath.asks (h : L.OnPath s w n) (hask : n.Asks m) : L.OnPath s w m := by
  intro id plan p hid hp
  obtain ⟨Γ, cs, hΓ, hcs, hpos, hreach⟩ := h id plan p hid hp
  exact ⟨Γ, cs, hΓ, hcs, hpos, hreach.tail hask⟩

/-- A run leaves the markers as they were, and its new rules without one. -/
theorem Legend.OnPath.passes (h : L.OnPath s w n) (hpass : L.Passes w L' w') :
    L'.OnPath s w' n := by
  intro id plan p hid hp
  rw [hpass.keeps.marker] at hp
  rcases hpass.fresh hid with hold | hge
  · obtain ⟨Γ, cs, hΓ, hcs, hpos, hreach⟩ := h id plan p hold hp
    exact ⟨Γ, cs, hΓ.mono hpass.toLe, hcs, hpos, hreach⟩
  · -- a rule that is new has not been entered yet
    exact absurd (w.lt_size_of_marker hp) (Nat.not_lt.2 hge)

/-- Where a goal is ready to be run, so is every goal that it asks for. -/
theorem Ready.asks (h : Ready mode L s scope Γ n w) (hask : n.Asks m) :
    Ready mode L s scope Γ m w where
  coherent := h.coherent
  known := h.known
  inside := hask.rest_suffix.trans h.inside
  context := h.context
  active := h.active
  onPath := h.onPath.asks hask
  enough hguarded := Nat.lt_of_le_of_lt (headroom_asks s w hask) (h.enough hguarded)

/-- A goal is still ready after a stretch of a run. -/
theorem Ready.passes (h : Ready mode L s scope Γ n w) (hpass : L.Passes w L' w') :
    Ready mode L' s scope Γ n w' where
  coherent := hpass.coherent
  known := hpass.text h.known
  inside := h.inside
  context := h.context.mono hpass.toLe
  active := by
    rw [hpass.keeps.active]
    exact h.active
  onPath := h.onPath.passes hpass
  enough := by
    rw [hpass.keeps.headroom_eq]
    exact h.enough

end

/-! ## What runs come to

A run either settles with a verdict or breaks off. Whatever breaks off is let stand by everything
around it, like a failure. -/

/-- The outcome that reports a loop at a place. -/
def Source.loopReport (s : Source) (rest : List Char) : Outcome :=
  (s.before rest).fail Refusal.leftRecursion.message

/-- The ways for a run to break off. -/
inductive Breaks (s : Source) (w : Workspace) (k : Course) : Mode → Outcome × Workspace → Prop where
  /-- The guard reports a loop that the course leads to. -/
  | loop {depth : Nat} {m : Goal} {rest : List Char} {id : RuleId} {w' : Workspace} (hm : k.Asks m)
      (hloops : m.Loops rest)
      (halarms : w'.alarms = w.alarms ++ [(id, (s.before rest).position)]) :
      Breaks s w k ⟨true, depth⟩ (s.loopReport rest, w')
  /-- Without the guard, the course is too deep. -/
  | deep {depth : Nat} {w' : Workspace} (hdeep : k.Deep depth) :
      Breaks s w k ⟨false, depth⟩ (.fault .exhausted, w')

/-- The result of following the course from the workspace: a verdict without an alarm, unless the
run breaks off. -/
def Settles (mode : Mode) (s : Source) (w : Workspace) (k : Course) (x : Outcome × Workspace) :
    Prop :=
  (∃ v, k.Yields v ∧ x.1 = v.outcome s ∧ x.2.alarms = w.alarms) ∨ Breaks s w k mode x

/-- The result of a run that follows the course from the workspace. -/
def Performs (mode : Mode) (L : Legend) (s : Source) (w : Workspace) (k : Course)
    (x : Outcome × Workspace) : Prop :=
  ∃ L', L.Passes w L' x.2 ∧ Settles mode s w k x

section

variable {mode : Mode} {L : Legend} {s : Source} {w : Workspace} {n : Goal}

/-- What breaks off is neither a match nor the lack of one, so nothing goes on after it. -/
theorem Breaks.outcome {k : Course} {o : Outcome} {w' : Workspace}
    (h : Breaks s w k mode (o, w')) : (∃ f, o = .failed f) ∨ ∃ f, o = .fault f := by
  cases h with
  | loop => exact Or.inl ⟨_, rfl⟩
  | deep => exact Or.inr ⟨_, rfl⟩

theorem Settles.of_alarms_eq {w' : Workspace} {k : Course} {x : Outcome × Workspace}
    (halarms : w'.alarms = w.alarms) (h : Settles mode s w' k x) : Settles mode s w k x := by
  rcases h with ⟨v, hv, hout, hsame⟩ | hbreaks
  · exact Or.inl ⟨v, hv, hout, hsame.trans halarms⟩
  · cases hbreaks with
    | loop hm hloops hraised => exact Or.inr (.loop hm hloops (by rw [hraised, halarms]))
    | deep hdeep => exact Or.inr (.deep hdeep)

/-- A run that breaks off in a goal breaks off in what has asked for it. -/
theorem Breaks.ask {next : Verdict → Course} {x : Outcome × Workspace}
    (h : Breaks s w n.course mode x) : Breaks s w (.ask n next) mode x := by
  cases h with
  | loop hm hloops halarms => exact .loop .now (hloops.of_asks hm) halarms
  | deep hdeep =>
    -- even one level deeper, but that is more than is needed
    exact .deep (hdeep.ask.anti (Nat.le_succ _))

/-- The same where other goals have been asked for first. -/
theorem Breaks.later {w' : Workspace} {next : Verdict → Course} {u : Verdict}
    {x : Outcome × Workspace} (hn : n.Yields u) (halarms : w'.alarms = w.alarms)
    (h : Breaks s w' (next u) mode x) : Breaks s w (.ask n next) mode x := by
  cases h with
  | loop hm hloops halarms' => exact .loop (.later hn hm) hloops (by rw [halarms', halarms])
  | deep hdeep => exact .deep (.later hn hdeep)

theorem performs_done (hw : L.Coherent w) (v : Verdict) :
    Performs mode L s w (.done v) (v.outcome s, w) :=
  ⟨L, .refl hw, Or.inl ⟨v, .done v, rfl, rfl⟩⟩

/-- Going on after the run of a goal: what the sequel follows, the whole follows. -/
theorem Performs.sequel {L' : Legend} {w' : Workspace} {next : Verdict → Course} {u : Verdict}
    {x : Outcome × Workspace} (hpass : L.Passes w L' w') (halarms : w'.alarms = w.alarms)
    (hn : n.Yields u) (h : Performs mode L' s w' (next u) x) :
    Performs mode L s w (.ask n next) x := by
  obtain ⟨L'', hpass', hsettles⟩ := h
  refine ⟨L'', hpass.trans hpass', ?_⟩
  rcases hsettles with ⟨v, hv, hout, halarms'⟩ | hbreaks
  · exact Or.inl ⟨v, .ask hn hv, hout, halarms'.trans halarms⟩
  · exact Or.inr (hbreaks.later hn halarms)

theorem Performs.tail {x : Outcome × Workspace} (h : Performs mode L s w n.course x) :
    Performs mode L s w (.ask n .done) x := by
  obtain ⟨L', hpass, hsettles⟩ := h
  rcases hsettles with ⟨v, hv, hout⟩ | hbreaks
  · exact ⟨L', hpass, Or.inl ⟨v, Course.yields_ask_done.2 hv, hout⟩⟩
  · exact ⟨L', hpass, Or.inr hbreaks.ask⟩

/-- What happens aside before a run makes no difference to what it performs. -/
theorem Performs.after {w' : Workspace} {k : Course} {x : Outcome × Workspace}
    (hw : L.Coherent w) (haside : w.Aside w') (h : Performs mode L s w' k x) :
    Performs mode L s w k x := by
  obtain ⟨L', hpass, hsettles⟩ := h
  exact ⟨L', (hw.passes_aside haside).trans hpass, hsettles.of_alarms_eq haside.alarms⟩

/-- **Going on after a match** performs what the course does that goes on after one. -/
theorem Performs.andThen {r : Run} {next : Value → Cursor → Run}
    {k : Value → List Char → Course} (h : Performs mode L s w n.course (r w))
    (hnext : ∀ L' w' v rest, L.Passes w L' w' → n.Yields (.matched v rest) →
      Performs mode L' s w' (k v rest) (next v (s.before rest) w')) :
    Performs mode L s w (.onMatch n k) (r.andThen next w) := by
  obtain ⟨L', hpass, hsettles⟩ := h
  rw [Run.andThen]
  generalize r w = x at hpass hsettles ⊢
  obtain ⟨o, w'⟩ := x
  rcases hsettles with ⟨v, hv, rfl, halarms⟩ | hbreaks
  · refine .sequel hpass halarms hv ?_
    cases v with
    | matched v rest => exact hnext L' w' v rest hpass hv
    | noMatch => exact performs_done hpass.coherent .noMatch
    | failed message rest => exact performs_done hpass.coherent (.failed message rest)
    | stalled rest => exact performs_done hpass.coherent (.stalled rest)
  · rcases hbreaks.outcome with ⟨f, rfl⟩ | ⟨f, rfl⟩
    · exact ⟨L', hpass, Or.inr hbreaks.ask⟩
    · exact ⟨L', hpass, Or.inr hbreaks.ask⟩

/-- **Going on after no match** likewise. -/
theorem Performs.orElse {r next : Run} {k : Course} (h : Performs mode L s w n.course (r w))
    (hnext : ∀ L' w', L.Passes w L' w' → n.Yields .noMatch →
      Performs mode L' s w' k (next w')) :
    Performs mode L s w (.onNoMatch n k) (r.orElse next w) := by
  obtain ⟨L', hpass, hsettles⟩ := h
  rw [Run.orElse]
  generalize r w = x at hpass hsettles ⊢
  obtain ⟨o, w'⟩ := x
  rcases hsettles with ⟨v, hv, rfl, halarms⟩ | hbreaks
  · refine .sequel hpass halarms hv ?_
    cases v with
    | noMatch => exact hnext L' w' hpass hv
    | matched v rest => exact performs_done hpass.coherent (.matched v rest)
    | failed message rest => exact performs_done hpass.coherent (.failed message rest)
    | stalled rest => exact performs_done hpass.coherent (.stalled rest)
  · rcases hbreaks.outcome with ⟨f, rfl⟩ | ⟨f, rfl⟩
    · exact ⟨L', hpass, Or.inr hbreaks.ask⟩
    · exact ⟨L', hpass, Or.inr hbreaks.ask⟩

end

/-! ## Leaves

Tokens and classes are read by the engine with offsets and by their meaning without. Positions tell
places apart, so the two agree. -/

/-- Tokens are matched by the engine where the meaning has them matched, -/
theorem Source.literal_before {s : Source} {cs : List Char} (h : cs <:+ s.text) (token : String) :
    (s.before cs).literal token = (Verdict.literal token cs).outcome s := by
  unfold Cursor.literal Verdict.literal Cursor.startsWith
  rw [Source.before_rest]
  split
  next hprefix =>
    obtain ⟨rest, rfl⟩ := List.isPrefixOf_iff_prefix.1 hprefix
    rw [List.drop_left, Cursor.matchTo, s.advance_before h]
    rfl
  next => rfl

/-- Classes are matched by the engine where the meaning has them matched. -/
theorem Source.chars_before {s : Source} {cs : List Char} (h : cs <:+ s.text) (cls : CharClass) :
    (s.before cs).chars cls = (Verdict.chars cls cs).outcome s := by
  unfold Verdict.chars
  rw [Cursor.chars_eq, Source.before_rest]
  split
  next => rfl
  next =>
    have hadvance := @Source.advance_before s (cls.leadingRun cs) (cls.afterRun cs)
    rw [cls.leadingRun_append_afterRun] at hadvance
    rw [Cursor.matchTo, hadvance h]
    rfl

/-! ## Repetitions

The engine gives a repetition as many rounds as it can need, and the course has no such bound. -/

section

variable {mode : Mode} {L : Legend} {s : Source} {w : Workspace} {scope : Scope} {Γ : Context}
  {b : Blueprint}

/-- Repeating a run. Each round either ends the repetition or moves on, so there are fewer rounds
than characters ahead; induction on the rounds that are provided for. -/
theorem performs_repeatFrom {parser : Cursor → Run}
    (hparser : ∀ L' w cs, L.Le L' → Ready mode L' s scope Γ (.parse Γ b cs) w →
      Performs mode L' s w (Goal.parse Γ b cs).course (parser (s.before cs) w))
    {rounds : Nat} {values : List Value} {cs : List Char} (hrounds : cs.length < rounds)
    (h : Ready mode L s scope Γ (.again Γ b values cs) w) :
    Performs mode L s w (Goal.again Γ b values cs).course
      (repeatFrom parser rounds values (s.before cs) w) := by
  induction rounds generalizing L w values cs with
  | zero => exact absurd hrounds (Nat.not_lt_zero _)
  | succ rounds ih =>
    have hround : (Goal.again Γ b values cs).Asks (.parse Γ b cs) := .now
    obtain ⟨L', hpass, hsettles⟩ := hparser L w cs (.refl L) (h.asks hround)
    simp only [repeatFrom]
    generalize parser (s.before cs) w = x at hpass hsettles ⊢
    obtain ⟨o, w'⟩ := x
    rcases hsettles with ⟨v, hv, rfl, halarms⟩ | hbreaks
    · refine .sequel hpass halarms hv ?_
      cases v with
      | matched v rest =>
        have hrest : rest <:+ cs := Goal.Yields.within hv
        have hmoved : ((s.before rest).position = (s.before cs).position) ↔ rest = cs :=
          Source.position_before_inj (hrest.trans h.inside) h.inside
        -- positions are compared by the run, places by the course
        by_cases hstalled : rest = cs
        · simp only [Verdict.outcome, if_pos hstalled, if_pos (hmoved.2 hstalled)]
          exact performs_done hpass.coherent (.stalled cs)
        · simp only [Verdict.outcome, if_neg hstalled, if_neg (hmoved.not.2 hstalled)]
          have hlen : rest.length < rounds := by
            have hlt : rest.length < cs.length := Nat.lt_of_le_of_ne hrest.length_le
              fun hlen => hstalled (hrest.eq_of_length hlen)
            omega
          -- the operand performs in every later legend too
          have hlater := fun L'' w cs hle => hparser L'' w cs (hpass.toLe.trans hle)
          exact (ih hlater hlen ((h.passes hpass).asks (Goal.asks_again hv hstalled))).tail
      | noMatch =>
        show Performs mode L' s w' (.done (.collected values cs)) (if values.isEmpty then _ else _)
        rw [Verdict.collected]
        split
        · exact performs_done hpass.coherent .noMatch
        · exact performs_done hpass.coherent (.matched (.list values.reverse) cs)
      | failed message rest => exact performs_done hpass.coherent (.failed message rest)
      | stalled rest => exact performs_done hpass.coherent (.stalled rest)
    · rcases hbreaks.outcome with ⟨f, rfl⟩ | ⟨f, rfl⟩
      · exact ⟨L', hpass, Or.inr hbreaks.ask⟩
      · exact ⟨L', hpass, Or.inr hbreaks.ask⟩

end

/-! ## Caches

What a cache remembers is a verdict of its blueprint inside its rules, so an answer from the cache
is the answer that running would give. -/

section

variable {mode : Mode} {L : Legend} {s : Source} {w : Workspace} {scope : Scope} {Γ : Context}
  {b : Blueprint} {cs : List Char} {k : CacheId}

/-- Remembering what has been yielded. -/
theorem Legend.Passes.remember {L' : Legend} {w' : Workspace} {v : Verdict} {r : Remembered}
    (hpass : L.Passes w L' w') (h : Ready mode L s scope Γ (.parse Γ b cs) w)
    (hk : L.parser k = some (scope, b)) (hv : (Goal.parse Γ b cs).Yields v)
    (hr : v.remembered s = some r) : L.Passes w L'
      ((w'.log (.cacheMiss k (s.before cs).position)).remember k (s.before cs).position r) := by
  have hlog := @Workspace.aside_log w' (.cacheMiss k (s.before cs).position) rfl
  have hpass' := hpass.trans (hpass.coherent.passes_aside hlog)
  have hrecalls : L'.Recalls scope b (s.before cs).position r :=
    ⟨s, cs, Γ, v, hpass.text h.known, h.inside, rfl, h.context.mono hpass.toLe, hv, hr⟩
  refine ⟨hpass.toExtends, ?_, ?_⟩
  · exact hpass'.coherent.remember (hpass.parser hk) hrecalls
  · exact hpass'.keeps.trans ⟨fun _ => rfl, rfl, rfl, Nat.le_refl _, Nat.le_refl _⟩

theorem performs_remember {L' : Legend} {w' : Workspace} {v : Verdict} {r : Remembered}
    (h : Ready mode L s scope Γ (.parse Γ b cs) w) (hk : L.parser k = some (scope, b))
    (hpass : L.Passes w L' w') (halarms : w'.alarms = w.alarms)
    (hv : (Goal.parse Γ b cs).Yields v) (hr : v.remembered s = some r) :
    Performs mode L s w (Goal.parse Γ b cs).course (v.outcome s,
      (w'.log (.cacheMiss k (s.before cs).position)).remember k (s.before cs).position r) := by
  have hlog := @Workspace.aside_log w' (.cacheMiss k (s.before cs).position) rfl
  exact ⟨L', hpass.remember h hk hv hr, Or.inl ⟨v, hv, rfl, hlog.alarms.trans halarms⟩⟩

/-- A cached run performs what the run itself would. On a hit, the entry is a verdict that this very
goal yields, so no question that the run would have asked is left open. -/
theorem performs_viaCache {r : Run} (h : Ready mode L s scope Γ (.parse Γ b cs) w)
    (hk : L.parser k = some (scope, b))
    (hr : Performs mode L s w (Goal.parse Γ b cs).course (r w)) :
    Performs mode L s w (Goal.parse Γ b cs).course (viaCache k (s.before cs) r w) := by
  unfold viaCache
  cases hcached : w.cachedAt? k (s.before cs).position with
  | some remembered =>
    obtain ⟨v, hv, hremembered⟩ := h.coherent.entry_at h.known h.inside h.context hk hcached
    have hlog := @Workspace.aside_log w (.cacheHit k (s.before cs).position) rfl
    have hhit : Performs mode L s w (Goal.parse Γ b cs).course
        (v.outcome s, w.log (.cacheHit k (s.before cs).position)) :=
      ⟨L, h.coherent.passes_aside hlog, Or.inl ⟨v, hv, rfl, hlog.alarms⟩⟩
    cases v with
    | matched value rest => cases hremembered; exact hhit
    | noMatch => cases hremembered; exact hhit
    | failed message rest => cases hremembered
    | stalled rest => cases hremembered
  | none =>
    obtain ⟨L', hpass, hsettles⟩ := hr
    generalize r w = x at hpass hsettles ⊢
    obtain ⟨o, w'⟩ := x
    rcases hsettles with ⟨v, hv, rfl, halarms⟩ | hbreaks
    · cases v with
      | matched value rest => exact performs_remember h hk hpass halarms hv rfl
      | noMatch => exact performs_remember h hk hpass halarms hv rfl
      -- failures and faults are not remembered
      | failed message rest => exact ⟨L', hpass, Or.inl ⟨_, hv, rfl, halarms⟩⟩
      | stalled rest => exact ⟨L', hpass, Or.inl ⟨_, hv, rfl, halarms⟩⟩
    · rcases hbreaks.outcome with ⟨f, rfl⟩ | ⟨f, rfl⟩
      · exact ⟨L', hpass, Or.inr hbreaks⟩
      · exact ⟨L', hpass, Or.inr hbreaks⟩

end

/-! ## Rules

Here the guard comes in. A rule that is entered at this place is on the way to this goal, so if it
is asked for again here, its body loops. -/

namespace Legend

variable {L : Legend} {w : Workspace} {scope : Scope} {Γ : Context} {b : Blueprint}

/-- A reference to a rule, owned or weak, asks for the body of that rule in its own scope. -/
theorem Reads.rule_course {hold : Hold} {id : RuleId} (h : L.Reads scope (.rule hold id) b)
    (hΓ : L.Scoped scope Γ) :
    ∃ plan outer, L.plan id = some plan ∧ L.Scoped plan.scope outer ∧ plan.scope <:+ scope
      ∧ (∀ cs, (Goal.parse Γ b cs).course
        = .ask (.body plan.label.name plan.body.plain outer cs) .done)
      ∧ (hold = .weak → ∃ e ∈ scope, e.2 = id) := by
  cases h with
  | @rule _ plan hid hscope =>
    subst hscope
    exact ⟨plan, Γ, hid, hΓ, List.suffix_rfl, fun _ => rfl, fun h => nomatch h⟩
  | @self name _ hid =>
    obtain ⟨plan, outer, hplan, hname, houter, hsuffix, hfind⟩ := hΓ.lookup hid
    refine ⟨plan, outer, hplan, houter, hsuffix, fun cs => ?_, fun _ => ?_⟩
    · simp only [Goal.course, hfind, hname]
    · obtain ⟨l₁, l₂, rfl, _⟩ := List.lookup_eq_some_iff.1 hid
      exact ⟨(name, id), by simp, rfl⟩

theorem Coherent.refusal? (hw : L.Coherent w) {hold : Hold} {id : RuleId} {plan : Plan}
    (hid : L.plan id = some plan) (hactive : hold = .weak → id ∈ w.active) (c : Cursor) :
    w.refusal? hold id c = if w.marker id = some c.position then some .leftRecursion else none := by
  obtain ⟨r, hr, hretired, _⟩ := hw.rule hid
  exact Workspace.refusal?_eq hr hretired hactive c

end Legend

section

variable {mode : Mode} {guarded : Bool} {depth : Nat} {L : Legend} {s : Source} {w : Workspace}
  {scope : Scope} {Γ : Context} {b : Blueprint} {cs : List Char} {id : RuleId} {plan : Plan}
  {outer : Context} {n : Goal}

/-- What a reference to a rule asks for, where it is ready to run: its body. The rule is alive, also
if the reference does not keep it. -/
theorem Ready.rule_course {hold : Hold} (h : Ready mode L s scope Γ (.parse Γ b cs) w)
    (hreads : L.Reads scope (.rule hold id) b) :
    ∃ plan outer, L.plan id = some plan ∧ L.Scoped plan.scope outer ∧ plan.scope <:+ scope
      ∧ (Goal.parse Γ b cs).course
        = .ask (.body plan.label.name plan.body.plain outer cs) .done
      ∧ (Goal.parse Γ b cs).Asks (.body plan.label.name plan.body.plain outer cs)
      ∧ (hold = .weak → id ∈ w.active) := by
  obtain ⟨plan, outer, hid, houter, hsuffix, hcourse, hweak⟩ := hreads.rule_course h.context
  refine ⟨plan, outer, hid, houter, hsuffix, hcourse cs, ?_, fun hhold => ?_⟩
  · rw [Goal.Asks, hcourse]
    exact .now
  · obtain ⟨e, he, rfl⟩ := hweak hhold
    exact h.active e he

/-- A rule that has just been entered, at any place, finds its definition or comes by it. -/
theorem Ready.definition (h : Ready mode L s scope Γ n w) (hid : L.plan id = some plan)
    (cs : List Char) :
    ∃ L' g w', (w.enter id (s.before cs).position).definition id = (.ok (some g), w')
      ∧ L.Passes (w.enter id (s.before cs).position) L' w' ∧ w'.alarms = w.alarms
      ∧ L'.Reads ((plan.label.name, id) :: plan.scope) g plan.body.plain := by
  obtain ⟨r, hr, _⟩ := h.coherent.rule hid
  have hentered : L.Coherent (w.enter id (s.before cs).position) :=
    h.coherent.mark rfl rfl (Nat.le_refl _)
  -- the marker is that of the place where the rule is entered, so its source has been made
  refine hentered.definition hid fun p hp => ?_
  rw [w.marker_enter id _ hr, if_pos rfl] at hp
  cases hp
  exact h.coherent.source h.known

/-- A rule that is entered at the place where its body is asked for again comes back to itself
there. -/
theorem Ready.loops (h : Ready mode L s scope Γ n w) (hid : L.plan id = some plan)
    (houter : L.Scoped plan.scope outer)
    (hask : n.Asks (.body plan.label.name plan.body.plain outer n.rest))
    (hmarker : w.marker id = some (s.before n.rest).position) :
    (Goal.body plan.label.name plan.body.plain outer n.rest).Loops n.rest := by
  obtain ⟨Γ', ds, hΓ', hds, hpos, hreach⟩ := h.onPath id plan _ hid hmarker
  obtain rfl : n.rest = ds := (Source.position_before_inj h.inside hds).1 hpos
  obtain rfl : outer = Γ' := houter.unique hΓ'
  exact ⟨_, .refl, .tail' hreach hask, rfl⟩

/-- When a rule is entered, its body is ready to run one level deeper, once its definition is at
hand. With the guard, the rule must not be entered at the place already. -/
theorem Ready.enter {L' : Legend} {w' : Workspace}
    (h : Ready ⟨guarded, depth + 1⟩ L s scope Γ n w) (hid : L.plan id = some plan)
    (houter : L.Scoped plan.scope outer) (hsuffix : plan.scope <:+ scope)
    (hask : n.Asks (.body plan.label.name plan.body.plain outer n.rest))
    (hmarker : guarded = true → w.marker id ≠ some (s.before n.rest).position)
    (hpass : L.Passes (w.enter id (s.before n.rest).position) L' w') :
    Ready ⟨guarded, depth⟩ L' s ((plan.label.name, id) :: plan.scope)
      ((plan.label.name, plan.body.plain) :: outer)
      (.body plan.label.name plan.body.plain outer n.rest) w' where
  coherent := hpass.coherent
  known := hpass.text h.known
  inside := h.inside
  context := .cons (hpass.plan hid) (houter.mono hpass.toLe)
  active := by
    rw [hpass.keeps.active]
    intro e he
    rcases List.mem_cons.1 he with rfl | he
    · exact List.mem_cons_self
    · exact List.mem_cons_of_mem _ (h.active e (hsuffix.subset he))
  onPath := by
    obtain ⟨r, hr, _⟩ := h.coherent.rule hid
    intro i q p hi hp
    rw [hpass.keeps.marker, w.marker_enter id _ hr] at hp
    split at hp
    next heq =>
      -- the rule itself: its body has just been reached
      subst heq
      obtain rfl : plan = q := Option.some.inj ((hpass.plan hid).symm.trans hi)
      exact ⟨outer, n.rest, houter.mono hpass.toLe, h.inside, (Option.some.inj hp).symm, .refl⟩
    next =>
      rcases hpass.fresh hi with hold | hge
      · obtain ⟨Γ', ds, hΓ', hds, hpos, hreach⟩ := h.onPath i q p hold hp
        exact ⟨Γ', ds, hΓ'.mono hpass.toLe, hds, hpos, hreach.tail hask⟩
      · have hlt := w.lt_size_of_marker hp
        rw [show (w.enter id _).rules.size = w.rules.size from Array.size_modify] at hge
        exact absurd hlt (Nat.not_lt.2 hge)
  enough hguarded := by
    obtain ⟨r, hr, _⟩ := h.coherent.rule hid
    have hless := w.headroom_enter_lt hr (hmarker hguarded) n.rest.length
    have henough : w.headroom (s.before n.rest).position n.rest.length < depth + 1 :=
      h.enough hguarded
    show w'.headroom (s.before n.rest).position n.rest.length < depth
    rw [hpass.keeps.headroom_eq]
    omega

/-- Every grammar that reads as a blueprint performs what the blueprint means. -/
def RunsPerform (mode : Mode) (s : Source) (parseRule : Hold → RuleId → Cursor → Run) : Prop :=
  ∀ {L : Legend} {scope : Scope} {Γ : Context} {g : Grammar} {b : Blueprint} {cs : List Char}
    {w : Workspace}, L.Reads scope g b → Ready mode L s scope Γ (.parse Γ b cs) w →
    Performs mode L s w (Goal.parse Γ b cs).course (g.run parseRule (s.before cs) w)

/-- Entering a rule, running its definition one level deeper, and leaving it again performs what
asking for the body of the rule means. -/
theorem performs_enter (hrun : RunsPerform ⟨guarded, depth⟩ s (Mode.parseRule ⟨guarded, depth⟩))
    (h : Ready ⟨guarded, depth + 1⟩ L s scope Γ n w) (hid : L.plan id = some plan)
    (houter : L.Scoped plan.scope outer) (hsuffix : plan.scope <:+ scope)
    (hask : n.Asks (.body plan.label.name plan.body.plain outer n.rest))
    (hmarker : guarded = true → w.marker id ≠ some (s.before n.rest).position) :
    ∃ g w₁, (w.enter id (s.before n.rest).position).definition id = (.ok (some g), w₁)
      ∧ Performs ⟨guarded, depth + 1⟩ L s w
        (.ask (.body plan.label.name plan.body.plain outer n.rest) .done)
        ((g.run (Mode.parseRule ⟨guarded, depth⟩) (s.before n.rest) w₁).1,
          (g.run (Mode.parseRule ⟨guarded, depth⟩) (s.before n.rest) w₁).2.leave id
            (w.marker id)) := by
  obtain ⟨r, hr, _⟩ := h.coherent.rule hid
  obtain ⟨L₁, g, w₁, hdefinition, hpass₁, hquiet, hg⟩ := h.definition hid n.rest
  obtain ⟨L₂, hpass₂, hsettles⟩ := hrun hg (h.enter hid houter hsuffix hask hmarker hpass₁)
  refine ⟨g, w₁, hdefinition, L₂, (hpass₁.trans hpass₂).leave hr, ?_⟩
  -- the rule and its body have the same verdict, and break off together
  rcases hsettles with ⟨v, hv, hout, halarms⟩ | hbreaks
  · exact Or.inl ⟨v, Course.yields_ask_done.2 hv, hout, halarms.trans hquiet⟩
  · right
    generalize g.run (Mode.parseRule ⟨guarded, depth⟩) (s.before n.rest) w₁ = x at hbreaks
    cases hbreaks with
    | loop hm hloops halarms =>
      exact .loop .now (hloops.of_asks hm) (halarms.trans (by rw [hquiet]))
    | deep hdeep => exact .deep hdeep.ask

/-- **Rules.** With the guard, a rule refuses where its body comes back to itself. Elsewhere, and
everywhere without the guard, it is entered, its definition is run, and it is left again. -/
theorem performs_rule {hold : Hold}
    (hrun : RunsPerform ⟨guarded, depth⟩ s (Mode.parseRule ⟨guarded, depth⟩))
    (hreads : L.Reads scope (.rule hold id) b)
    (h : Ready ⟨guarded, depth + 1⟩ L s scope Γ (.parse Γ b cs) w) :
    Performs ⟨guarded, depth + 1⟩ L s w (Goal.parse Γ b cs).course
      (Mode.parseRule ⟨guarded, depth + 1⟩ hold id (s.before cs) w) := by
  obtain ⟨plan, outer, hid, houter, hsuffix, hcourse, hask, hactive⟩ := h.rule_course hreads
  rw [hcourse]
  cases guarded with
  | true =>
    have hrefusal := h.coherent.refusal? hid hactive (s.before cs)
    show Performs _ L s w _ (Rule.parse (depth + 1) hold id (s.before cs) w)
    rw [Rule.parse]
    by_cases hmarker : w.marker id = some (s.before cs).position
    · rw [if_pos hmarker] at hrefusal
      simp only [hrefusal]
      -- it is entered here already, so it is on the way from its own body
      have hloops := h.loops hid houter hask hmarker
      refine ⟨L, ⟨.refl L w, ?_, ?_⟩, Or.inr (.loop .now hloops (w.alarms_leftRecursion id _))⟩
      · exact h.coherent.congr (fun _ r hr => ⟨r, hr, rfl, rfl⟩) rfl (Nat.le_refl _)
      · exact ⟨fun _ => rfl, rfl, rfl, Nat.le_refl _, Nat.le_refl _⟩
    · rw [if_neg hmarker] at hrefusal
      obtain ⟨g, w₁, hdefinition, hperforms⟩ :=
        performs_enter hrun h hid houter hsuffix hask fun _ => hmarker
      simp only [hrefusal]
      rw [show (w.enter id (s.before cs).position).definition id = _ from hdefinition]
      exact hperforms
  | false =>
    obtain ⟨r, hr, hretired, _⟩ := h.coherent.rule hid
    obtain ⟨g, w₁, hdefinition, hperforms⟩ :=
      performs_enter hrun h hid houter hsuffix hask fun hguarded => nomatch hguarded
    show Performs _ L s w _ (Rule.parseUnguarded (depth + 1) hold id (s.before cs) w)
    rw [Rule.parseUnguarded]
    simp only [Workspace.rule?_eq_some hr hretired hactive]
    rw [show (w.enter id (s.before cs).position).definition id = _ from hdefinition]
    exact hperforms

end

/-! ## Grammars

All is put together by two inductions: on the grammar for runs in which rules are taken for granted,
and on the depth for rules. -/

/-- A grammar performs what its blueprint means if its rules do. Induction on the grammar; each
case takes the run apart in the way the course is put together. -/
theorem runsPerform_of_rules {mode : Mode} {s : Source}
    {parseRule : Hold → RuleId → Cursor → Run}
    (hrule : ∀ {hold : Hold} {id : RuleId} {L : Legend} {scope : Scope} {Γ : Context}
      {b : Blueprint} {cs : List Char} {w : Workspace}, L.Reads scope (.rule hold id) b →
      Ready mode L s scope Γ (.parse Γ b cs) w →
      Performs mode L s w (Goal.parse Γ b cs).course (parseRule hold id (s.before cs) w)) :
    RunsPerform mode s parseRule := by
  intro L scope Γ g b cs w hreads h
  induction g generalizing L b cs w with
  | literal token =>
    cases hreads
    have hinside : cs <:+ s.text := h.inside
    rw [Grammar.run, Source.literal_before hinside]
    exact performs_done h.coherent _
  | chars cls =>
    cases hreads
    have hinside : cs <:+ s.text := h.inside
    rw [Grammar.run, Source.chars_before hinside]
    exact performs_done h.coherent _
  | accept value =>
    cases hreads
    exact performs_done h.coherent (.matched value cs)
  | map f g ih =>
    cases hreads with
    | map hg =>
      refine (ih hg (h.asks .now)).andThen fun L' w' v rest hpass _ => ?_
      exact performs_done hpass.coherent (.matched (f v) rest)
  | tryMap f g ih =>
    cases hreads with
    | tryMap hg =>
      refine (ih hg (h.asks .now)).andThen fun L' w' v rest hpass _ => ?_
      unfold Verdict.transformed
      cases f v with
      | ok u => exact performs_done hpass.coherent (.matched u rest)
      | error message => exact performs_done hpass.coherent (.failed message cs)
  | seq g g' ih ih' =>
    cases hreads with
    | seq hg hg' =>
      refine (ih hg (h.asks .now)).andThen fun L' w' u ds hpass hu => ?_
      -- the second part is asked for only now that the first one has yielded a match
      have hnext := (h.passes hpass).asks (.later hu .now)
      refine (ih' (hg'.mono hpass.toLe) hnext).andThen fun L'' w'' v es hpass' _ => ?_
      exact performs_done hpass'.coherent (.matched (.pair u v) es)
  | alt g g' ih ih' =>
    cases hreads with
    | alt hg hg' =>
      refine (ih hg (h.asks .now)).orElse fun L' w' hpass hno => ?_
      have hnext := (h.passes hpass).asks (.later hno .now)
      exact (ih' (hg'.mono hpass.toLe) hnext).tail
  | rep g ih =>
    cases hreads with
    | rep hg =>
      have hround := fun L' w ds hle hready => @ih L' _ ds w (hg.mono hle) hready
      exact (performs_repeatFrom hround (Nat.lt_succ_self _) (h.asks .now)).tail
  | required message g ih =>
    cases hreads with
    | required hg =>
      refine (ih hg (h.asks .now)).orElse fun L' w' hpass _ => ?_
      have hlog := @Workspace.aside_log w' (.requirementFailed (s.before cs).offset message) rfl
      refine .after hpass.coherent hlog ?_
      exact performs_done (hpass.coherent.aside hlog) (.failed message cs)
  | memo k g ih =>
    cases hreads with
    | memo hk hg => exact performs_viaCache h hk (ih hg h)
  | count name g ih =>
    cases hreads with
    | count hg =>
      have hcount := w.aside_countCall name
      exact (ih hg (h.passes (h.coherent.passes_aside hcount))).after h.coherent hcount
  | rule hold id => exact hrule hreads h

/-- **Runs follow courses.** Whatever is ready to run performs what it means, with the guard and
without it. Induction on the depth: without any left, nothing is ready with the guard, and without
the guard every course is that deep; with one more level left, rules can be entered. -/
theorem run_performs (s : Source) (guarded : Bool) (depth : Nat) :
    RunsPerform ⟨guarded, depth⟩ s (Mode.parseRule ⟨guarded, depth⟩) := by
  induction depth with
  | zero =>
    refine runsPerform_of_rules fun {hold id L scope Γ b cs w} _ h => ?_
    cases guarded with
    | true => exact absurd (h.enough rfl) (Nat.not_lt_zero _)
    | false => exact ⟨L, .refl h.coherent, Or.inr (.deep trivial)⟩
  | succ depth ih => exact runsPerform_of_rules (performs_rule ih)

end Packrat
