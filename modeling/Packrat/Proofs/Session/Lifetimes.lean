import Packrat.Proofs.Session.RuleChanges

/-!
# The life of a rule

A rule waits with its plan until it is first parsed. Then its body is built: while that goes on the
rule is underway, and if it breaks off the rule stays underway forever; otherwise it is built from
then on, and its definition does not change any more.

* **`Definition.Becomes`** — what may become of a definition. Whatever is not waiting stays what it
  is; and what is waiting is built if the construction of its body has succeeded
  (**`Plan.Comes`**), and underway if that has broken off.
* **`Workspace.Ages`** — the definitions of all rules become something, and a construction has begun
  once for each rule that does not wait any more, and not for the others.
* **`Workspace.ages_construct`** — building the body of a rule is such a change.
* **`Workspace.parse_underway`** — as long as a rule is underway it refuses to be parsed, and the
  workspace stays as it is.
* **`Session.rule_life_cycle`** — all this over the steps of any session.
-/

namespace Packrat

namespace Workspace

/-- The definition of a rule that there is. -/
def stage? (w : Workspace) (id : RuleId) : Option Definition :=
  w.rules[id]?.map Rule.definition

end Workspace

/-- Building the body of the rule, as planned, came to this result. The rule was waiting before, and
it was underway from the beginning to the end of it. -/
def Plan.Comes (plan : Plan) (id : RuleId) (result : Except Fault Grammar) : Prop :=
  ∃ w w' : Workspace, w.stage? id = some (.pending plan)
    ∧ (plan.body.build ((plan.label.name, id) :: plan.scope)).run (w.beginning id plan)
      = (result, w')
    ∧ (w.beginning id plan).stage? id = some .underway ∧ w'.stage? id = some .underway

namespace Definition

/-- What may become of the definition of a rule. -/
inductive Becomes (id : RuleId) : Definition → Definition → Prop where
  | same (d : Definition) : Becomes id d d
  | broken {plan : Plan} {fault : Fault} (h : plan.Comes id (.error fault)) :
      Becomes id (.pending plan) .underway
  | built {plan : Plan} {g : Grammar} (h : plan.Comes id (.ok g)) :
      Becomes id (.pending plan) (.built g)

/-- How often the construction of a rule with the definition has begun. -/
def begun : Definition → Nat
  | .pending _ => 0
  | .underway => 1
  | .built _ => 1

variable {id : RuleId} {d d' d'' : Definition}

/-- What becomes of a definition later has become of it from the beginning. -/
theorem Becomes.trans (h : Becomes id d d') (h' : Becomes id d' d'') : Becomes id d d'' := by
  cases h with
  | same => exact h'
  | broken h =>
    cases h'
    exact .broken h
  | built h =>
    cases h'
    exact .built h

/-- What is underway stays so. -/
theorem Becomes.eq_underway (h : Becomes id .underway d) : d = .underway := by
  cases h
  rfl

end Definition

namespace Workspace

variable {w w' w'' : Workspace} {id : RuleId} {plan : Plan} {d : Definition}

/-- How often the construction of the rule has begun, by its definition. -/
def begun (w : Workspace) (id : RuleId) : Nat :=
  ((w.stage? id).map Definition.begun).getD 0

/-- Every definition has become what it may become, and what has begun is what the log tells. -/
structure Ages (w w' : Workspace) : Prop where
  becomes : ∀ {id : RuleId} {d : Definition}, w.stage? id = some d →
    ∃ d', w'.stage? id = some d' ∧ d.Becomes id d'
  constructions : ∀ id, w'.constructions id + w.begun id = w.constructions id + w'.begun id

theorem Ages.trans (h : w.Ages w') (h' : w'.Ages w'') : w.Ages w'' where
  becomes hd := by
    obtain ⟨d', hd', hbecomes⟩ := h.becomes hd
    obtain ⟨d'', hd'', hbecomes'⟩ := h'.becomes hd'
    exact ⟨d'', hd'', hbecomes.trans hbecomes'⟩
  constructions id := by
    have hbefore := h.constructions id
    have hafter := h'.constructions id
    omega

/-- The definitions stay as they are, whatever else happens to the rules. -/
theorem ages_same (hstage : w'.stage? = w.stage?) (hevents : w'.constructions = w.constructions) :
    w.Ages w' := by
  refine ⟨fun {i d} hd => ⟨d, ?_, .same d⟩, fun i => ?_⟩
  · rw [hstage, hd]
  · unfold begun
    rw [hstage, hevents]

theorem stage?_newRule (w : Workspace) (plan : Plan) (i : RuleId) :
    (w.newRule plan).2.stage? i
      = if i = w.rules.size then some (.pending plan) else w.stage? i := by
  unfold stage? newRule
  simp only [Array.getElem?_push]
  split
  next => rfl
  next => rfl

theorem ages_newRule (w : Workspace) (plan : Plan) : w.Ages (w.newRule plan).2 := by
  have hnone : w.stage? w.rules.size = none := by
    unfold stage?
    simp
  refine ⟨fun {i d} hd => ⟨d, ?_, .same d⟩, fun i => ?_⟩
  · rw [stage?_newRule, if_neg, hd]
    rintro rfl
    rw [hnone] at hd
    cases hd
  · show w.constructions i + _ = _
    unfold begun
    rw [stage?_newRule]
    split
    next hi =>
      rw [hi, hnone]
      rfl
    next => rfl

theorem lenient_ages : Lenient Ages where
  trans h h' := h.trans h'
  same hrules hevents := ages_same (by unfold stage?; rw [hrules]) hevents
  newRule := ages_newRule
  settle w := by
    refine ages_same (funext fun i => ?_) rfl
    unfold stage? settle
    simp only [Array.getElem?_mapIdx]
    cases w.rules[i]? with
    | none => rfl
    | some r => rfl

theorem stage?_define (hd : w.stage? id = some d) (d' : Definition) (i : RuleId) :
    (w.define id d').stage? i = if id = i then some d' else w.stage? i := by
  obtain ⟨r, hr, _⟩ := Option.map_eq_some_iff.1 hd
  unfold stage? define
  simp only [Array.getElem?_modify]
  split
  next hi =>
    rw [← hi, hr]
    rfl
  next => rfl

theorem stage?_underway (hd : w.stage? id = some d) (i : RuleId) :
    (w.underway id).stage? i = if id = i then some .underway else w.stage? i :=
  @stage?_define (w.log (.constructing id)) id d hd .underway i

theorem begun_of_stage? (hd : w.stage? id = some d) : w.begun id = d.begun := by
  unfold begun
  rw [hd]
  rfl

theorem begun_congr (h : w'.stage? id = w.stage? id) : w'.begun id = w.begun id := by
  unfold begun
  rw [h]

/-- Something has been done with the rule underway, and now the rule that waited before is what its
construction came to. -/
theorem Ages.of_underway (h : (w.underway id).Ages w')
    (hwaiting : w.stage? id = some (.pending plan))
    (hbecomes : (Definition.pending plan).Becomes id d) (hbegun : d.begun = 1)
    (hstage : ∀ i, w''.stage? i = if id = i then some d else w'.stage? i)
    (hevents : w''.constructions = w'.constructions) : w.Ages w'' := by
  have hunderway := stage?_underway hwaiting
  refine ⟨fun {i e} he => ?_, fun i => ?_⟩
  · rw [hstage]
    by_cases hi : id = i
    · subst hi
      rw [hwaiting] at he
      rw [if_pos rfl, ← Option.some.inj he]
      exact ⟨d, rfl, hbecomes⟩
    · rw [if_neg hi]
      exact h.becomes (by rw [hunderway, if_neg hi, he])
  · have hcount := h.constructions i
    have hlog : (w.underway id).constructions i = _ := constructions_log w (.constructing id) i
    rw [hlog] at hcount
    rw [hevents]
    by_cases hi : id = i
    · -- the log has one entry more, and the rule does not wait any more
      subst hi
      have hstart : (w.underway id).stage? id = some .underway := by rw [hunderway, if_pos rfl]
      obtain ⟨_, hend, hsame⟩ := h.becomes hstart
      -- a rule that is underway stays so, whatever else has been done
      obtain rfl := hsame.eq_underway
      have hd : w''.stage? id = some d := by rw [hstage, if_pos rfl]
      rw [begun_of_stage? hstart, begun_of_stage? hend, if_pos rfl] at hcount
      rw [begun_of_stage? hwaiting, begun_of_stage? hd, hbegun]
      simp only [Definition.begun] at hcount ⊢
      omega
    · have hstart : (w.underway id).stage? i = w.stage? i := by rw [hunderway, if_neg hi]
      have hend : w''.stage? i = w'.stage? i := by rw [hstage, if_neg hi]
      rw [begun_congr hstart, if_neg (by simpa using hi)] at hcount
      rw [begun_congr hend]
      omega

/-- **Building the body of a rule that waits** takes the rule to what the construction comes to, and
is logged once. -/
theorem ages_construct (hwaiting : w.stage? id = some (.pending plan)) :
    w.Ages (w.construct id plan).2 := by
  have hbegun : (w.underway id).Ages (w.beginning id plan) :=
    beginning_within lenient_ages w id plan
  have hbuild := plan.body.build_within lenient_ages ((plan.label.name, id) :: plan.scope)
    (w.beginning id plan)
  generalize hrun : (plan.body.build ((plan.label.name, id) :: plan.scope)).run
    (w.beginning id plan) = y at hbuild
  obtain ⟨result, w'⟩ := y
  -- the rule is underway from the beginning to the end
  have hstart : (w.underway id).stage? id = some .underway := by
    rw [stage?_underway hwaiting, if_pos rfl]
  obtain ⟨_, hbefore, hsame⟩ := hbegun.becomes hstart
  obtain rfl := hsame.eq_underway
  obtain ⟨_, hafter, hsame⟩ := hbuild.becomes hbefore
  obtain rfl := hsame.eq_underway
  have hcomes : plan.Comes id result := ⟨w, w', hwaiting, hrun, hbefore, hafter⟩
  have hages := hbegun.trans hbuild
  rw [construct_eq_build, hrun]
  cases result with
  | ok g =>
    exact hages.of_underway hwaiting (.built hcomes) rfl (stage?_define hafter (.built g)) rfl
  | error fault =>
    have hstage : ∀ i, w'.stage? i = if id = i then some .underway else w'.stage? i := by
      intro i
      split
      next hi => rw [← hi, hafter]
      next => rfl
    exact hages.of_underway hwaiting (.broken hcomes) rfl hstage rfl

/-- Entering a rule and leaving it again has no part in the definitions. -/
theorem Ages.leave {p : Position} {before : Option Position} (h : (w.enter id p).Ages w') :
    w.Ages (w'.leave id before) := by
  have hmark (v : Workspace) (entered : Option Position) (i : RuleId) :
      (v.rules.modify id fun r => { r with entered := entered })[i]?.map Rule.definition
        = v.rules[i]?.map Rule.definition := by
    rw [Array.getElem?_modify]
    split
    next hi => simp [Function.comp_def]
    next => rfl
  have henter : w.Ages (w.enter id p) := ages_same (funext (hmark w (some p))) rfl
  have hleave : w'.Ages (w'.leave id before) := ages_same (funext (hmark w' before)) rfl
  exact (henter.trans h).trans hleave

theorem ages_parse (w : Workspace) (g : Grammar) (c : Cursor) : w.Ages (w.parse g c).2 := by
  refine g.run_within lenient_ages (fun hold id c => ?_) c w
  refine Rule.parse_within lenient_ages (fun hr hplan => ?_) (fun _ h => h.leave) _ hold id c
  refine ages_construct ?_
  unfold stage?
  rw [hr, ← hplan]
  rfl

/-! ## A rule that is underway

A rule that is found while it is underway cannot be parsed, for either of two reasons. Where it is
entered already the guard refuses; everywhere else it is entered, found to have no definition, and
left again. -/

variable {r : Rule} {hold : Hold}

theorem subset_ownedAfter (w : Workspace) (rounds : Nat) (ids : List RuleId) :
    w.ownedAfter rounds ids ⊆ ids := by
  induction rounds generalizing ids with
  | zero => exact List.Subset.refl ids
  | succ rounds ih =>
    unfold ownedAfter
    simp only
    split
    · exact List.Subset.refl ids
    · exact List.Subset.trans (ih _) List.filter_sublist.subset

/-- A new source is nobody's owner. -/
theorem living_newSource (w : Workspace) (text : String) :
    (w.newSource text).2.living = w.living := by
  have h : ∀ rounds ids, (w.newSource text).2.ownedAfter rounds ids = w.ownedAfter rounds ids := by
    intro rounds
    induction rounds with
    | zero => exact fun _ => rfl
    | succ rounds ih =>
      intro ids
      have howner : (w.newSource text).2.withOwner ids = w.withOwner ids := rfl
      unfold ownedAfter
      simp only [howner, ih]
  exact h _ _

/-- A rule that has an owner is found by every handle. -/
theorem rule?_of_living (hr : w.rules[id]? = some r) (hliving : hold = .weak → id ∈ w.living) :
    w.rule? hold id = some r := by
  unfold rule?
  rw [hr]
  cases hold with
  | owned => rfl
  | weak =>
    have hliving := hliving rfl
    have hpresent := subset_ownedAfter _ _ _ hliving
    rw [List.mem_filter, hr] at hpresent
    cases hunsettled : w.unsettled with
    | true => simp [hliving]
    | false => simpa using hpresent.2

theorem isReady_of_living (hr : w.rules[id]? = some r) (hliving : hold = .weak → id ∈ w.living) :
    w.isReady hold id = r.definition.isBuilt := by
  unfold isReady
  rw [rule?_of_living hr hliving]

/-- Such a rule refuses to be entered where it is entered already. -/
theorem refusal?_of_living (hr : w.rules[id]? = some r) (hliving : hold = .weak → id ∈ w.living)
    (c : Cursor) :
    w.refusal? hold id c = if r.entered = some c.position then some .leftRecursion else none := by
  rw [refusal?, rule?_of_living hr hliving]

/-- A rule that is underway has no definition, whether or not it is entered. -/
theorem definition_underway (hr : w.rules[id]? = some r) (hunderway : r.definition = .underway)
    (p : Position) : (w.enter id p).definition id = (.ok none, w.enter id p) := by
  have hentered : (w.enter id p).rules[id]? = some { r with entered := some p } := by
    rw [enter, Array.getElem?_modify, if_pos rfl, hr]
    rfl
  obtain ⟨d, entered, retired⟩ := r
  obtain rfl : d = .underway := hunderway
  rw [definition, hentered]

/-- **A rule that is underway cannot be parsed**, by whatever handle: it refuses to be entered where
it is entered already, and everywhere else it has no definition. Then nothing has changed, for it is
left as it was found. -/
theorem parse_underway (hr : w.rules[id]? = some r) (hunderway : r.definition = .underway)
    (hliving : hold = .weak → id ∈ w.living) (c : Cursor) :
    w.parse (.rule hold id) c
      = if r.entered = some c.position then
          (c.fail Refusal.leftRecursion.message, w.log (.leftRecursion id c.position))
        else (c.fail Refusal.underConstruction.message, w) := by
  have hrefusal := refusal?_of_living hr hliving c
  show Rule.parse (_ + 1) hold id c w = _
  rw [Rule.parse]
  by_cases hentered : r.entered = some c.position
  · rw [if_pos hentered] at hrefusal ⊢
    simp only [hrefusal]
    rfl
  · rw [if_neg hentered] at hrefusal ⊢
    simp only [hrefusal, definition_underway hr hunderway]
    exact congrArg (Prod.mk _) (w.leave_enter id c.position)

/-- Trying out a rule in its own construction is a parse like any other, with a record of what it
was told. -/
theorem probe_underway (hr : w.rules[id]? = some r) (hunderway : r.definition = .underway)
    (hliving : id ∈ w.living) (text : String) :
    ∃ message, (w.parseText (.rule .weak id) text).1 = .failed ⟨message, 0⟩
      ∧ w.probe id text = { (w.parseText (.rule .weak id) text).2 with
          probes := w.probes.push ⟨false, message, 0⟩ } := by
  have hready : w.isReady .weak id = false := by
    rw [isReady_of_living hr (fun _ => hliving), hunderway]
    rfl
  have hr' : (w.newSource text).2.rules[id]? = some r := hr
  have hliving' : id ∈ (w.newSource text).2.living := by rwa [living_newSource]
  have hrefusal := refusal?_of_living hr' (fun _ : Hold.weak = .weak => hliving')
    (w.newSource text).1.start
  have hparse : w.parseText (.rule .weak id) text = _ :=
    parse_underway hr' hunderway (fun _ => hliving') (w.newSource text).1.start
  unfold probe
  -- the two reasons for a refusal; the attempt and the parse name the same one
  by_cases hentered : r.entered = some (w.newSource text).1.start.position
  · rw [if_pos hentered] at hrefusal hparse
    refine ⟨Refusal.leftRecursion.message, by rw [hparse]; rfl, ?_⟩
    simp only [hrefusal, hready, hparse, Option.getD_some]
    rfl
  · rw [if_neg hentered] at hrefusal hparse
    refine ⟨Refusal.underConstruction.message, by rw [hparse]; rfl, ?_⟩
    simp only [hrefusal, hready, hparse, Option.getD_none]
    rfl

/-- A rule that is under construction, or was when that broke off. It is not ready, and a parse of
it fails and leaves all markers, definitions and caches as they are, also a parse by which the rule
is tried out in its own construction. -/
structure Shut (w : Workspace) (id : RuleId) : Prop where
  ready : ∀ hold, (hold = .weak → id ∈ w.living) → w.isReady hold id = false
  parse : ∀ hold c, (hold = .weak → id ∈ w.living) →
    w.parse (.rule hold id) c
      = if w.marker id = some c.position then
          (.failed ⟨"Left-recursive grammar detected", c.offset⟩,
            w.log (.leftRecursion id c.position))
        else
          (.failed ⟨"Recursive grammar was parsed while it was still being constructed", c.offset⟩,
            w)
  probe : id ∈ w.living → ∀ text, ∃ message,
    (w.parseText (.rule .weak id) text).1 = .failed ⟨message, 0⟩
      ∧ w.probe id text = { (w.parseText (.rule .weak id) text).2 with
          probes := w.probes.push ⟨false, message, 0⟩ }

theorem shut_of_underway (h : w.stage? id = some .underway) : w.Shut id := by
  obtain ⟨r, hr, hunderway⟩ := Option.map_eq_some_iff.1 h
  refine ⟨fun hold hliving => ?_, fun hold c hliving => ?_, probe_underway hr hunderway⟩
  · rw [isReady_of_living hr hliving, hunderway]
    rfl
  · have hmarker : w.marker id = r.entered := by
      unfold marker
      rw [hr]
      rfl
    rw [parse_underway hr hunderway hliving, hmarker]
    rfl

end Workspace

/-! ## Sessions

What a rule may become holds from step to step, so it holds from any point of a session to any later
one. Whether the rule is shut is read off the workspace of the moment. -/

namespace Session

/-- **The life of a rule**, from any point of a session to any later one. Its construction has begun
once, or not at all if it still waits. It counts as ready if the construction has succeeded, and its
definition is what that came to; before, it waited, and afterwards nothing changes it any more. And
in whatever workspace it is underway, from the beginning of the construction to its end or forever
if it broke off, the rule is shut. -/
theorem rule_life_cycle (past future : List Step) {id : RuleId} {r : Rule}
    (hr : (run past .empty).2.workspace.rules[id]? = some r) :
    (∃ r', (run future (run past .empty).2).2.workspace.rules[id]? = some r'
        ∧ r.definition.Becomes id r'.definition
        ∧ (run future (run past .empty).2).2.workspace.constructions id = r'.definition.begun
        ∧ ∀ hold, (hold = .weak → id ∈ (run future (run past .empty).2).2.workspace.living) →
          (run future (run past .empty).2).2.workspace.isReady hold id = r'.definition.isBuilt)
      ∧ ∀ w : Workspace, w.stage? id = some .underway → w.Shut id := by
  have hages := run_within Workspace.ages_parse Workspace.lenient_ages
  have hpast := hages past .empty
  have hfuture := hages future (run past .empty).2
  refine ⟨?_, fun w => Workspace.shut_of_underway⟩
  generalize (run past .empty).2 = s at hr hpast hfuture
  generalize (run future s).2 = s' at hfuture
  have hstage : s.workspace.stage? id = some r.definition := by
    unfold Workspace.stage?
    rw [hr]
    rfl
  obtain ⟨d, hd, hbecomes⟩ := hfuture.becomes hstage
  obtain ⟨r', hr', rfl⟩ := Option.map_eq_some_iff.1 hd
  refine ⟨r', hr', hbecomes, ?_, fun hold => Workspace.isReady_of_living hr'⟩
  -- nothing has begun in the empty workspace
  have hcount := (hpast.trans hfuture).constructions id
  have hnone : Session.empty.workspace.begun id = 0 := rfl
  have hempty : Session.empty.workspace.constructions id = 0 := rfl
  rw [Workspace.begun_of_stage? hd, hnone, hempty] at hcount
  omega

/-- A rule that is tried out while its body is built, which cannot be done: an operator has no
token. -/
def broken : List Step :=
  [.defineRule "n" (some "x") (.level .left [⟨"", fun lhs _ => lhs⟩] true (.self "n")),
    .parse (.registered "n") (.ok "1")]

/-- It stays broken when it is parsed again, by either kind of handle. -/
theorem rule_life_cycle_broken :
    (run broken .empty).2.workspace.rules[0]? = some ⟨.underway, none, false⟩
      ∧ (run [.parse (.exposed "n") (.ok "1"), .parse (.registered "n") (.ok "")]
          (run broken .empty).2).2.workspace.constructions 0 = 1
      ∧ ((run broken .empty).2.workspace.stage? 0 = some .underway
        ∧ (run broken .empty).2.workspace.Shut 0) := by
  have hr : (run broken .empty).2.workspace.rules[0]? = some ⟨.underway, none, false⟩ := rfl
  have hstage : (run broken .empty).2.workspace.stage? 0 = some .underway := rfl
  obtain ⟨⟨r', _, hbecomes, hbegun, _⟩, hshut⟩ := rule_life_cycle broken
    [.parse (.exposed "n") (.ok "1"), .parse (.registered "n") (.ok "")] hr
  rw [hbecomes.eq_underway] at hbegun
  exact ⟨hr, hbegun, hstage, hshut _ hstage⟩

end Session

end Packrat
