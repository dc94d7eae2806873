import Packrat.Proofs.Engine.Frame
import Packrat.Session.Step

/-!
# What can happen to rules

A parse, a construction or a step of a session is put together from many small actions on the
workspace. What the small ones do to the rules, they do together.

* **`Workspace.Lenient`** — a relation between an earlier and a later workspace that allows whatever
  leaves the rules alone, new rules, and the retirement of rules that have lost their owners.
* **`Blueprint.build_within`**, **`Grammar.run_within`** — such a relation holds between the
  workspaces before and after any construction, and any run if it does for the rules that the run
  asks for. Induction on the blueprint, and on the grammar.
* **`Rule.parse_within`** — so what is left to look at is how a rule is begun to be built, and how
  it is entered and left again.
* **`Session.run_within`** — then the relation holds over any number of steps of a session.

Nothing is assumed of the workspace, and outcomes do not matter.
-/

namespace Packrat

namespace Workspace

/-- How often the construction of a rule has been begun. -/
def constructions (w : Workspace) (id : RuleId) : Nat :=
  w.events.toList.count (.constructing id)

/-- A construction is counted by the event that begins it. -/
theorem constructions_log (w : Workspace) (e : Event) (id : RuleId) :
    (w.log e).constructions id = w.constructions id + if e = .constructing id then 1 else 0 := by
  show List.count _ (w.events.push e).toList = _
  rw [Array.toList_push, List.count_append, List.count_singleton]
  simp [constructions]

/-- A relation between workspaces that does not object to anything done apart from the definitions
and the markers of the rules that there are. -/
structure Lenient (R : Workspace → Workspace → Prop) : Prop where
  trans : ∀ {w w' w''}, R w w' → R w' w'' → R w w''
  same : ∀ {w w'}, w'.rules = w.rules → w'.constructions = w.constructions → R w w'
  newRule : ∀ (w : Workspace) (plan : Plan), R w (w.newRule plan).2
  settle : ∀ w : Workspace, R w w.settle

variable {R : Workspace → Workspace → Prop}

/-- Nothing happening is one of the things that leave the rules alone. -/
theorem Lenient.refl (hR : Lenient R) (w : Workspace) : R w w :=
  hR.same rfl rfl

/-- Logging leaves the rules alone, but for the beginning of a construction. -/
theorem Lenient.log (hR : Lenient R) (w : Workspace) {e : Event}
    (he : ∀ id, e ≠ .constructing id) : R w (w.log e) := by
  refine hR.same rfl (funext fun id => ?_)
  rw [constructions_log, if_neg (he id), Nat.add_zero]

/-- A refusal is logged at most. -/
theorem Lenient.logRefusal (hR : Lenient R) (w : Workspace) (id : RuleId) (c : Cursor)
    (refusal : Refusal) : R w (w.logRefusal id c refusal) := by
  cases refusal with
  | dropped => exact hR.refl w
  | leftRecursion => exact hR.log w (by simp)
  | underConstruction => exact hR.refl w

/-- Trying a rule out makes a source and a record. -/
theorem Lenient.probe (hR : Lenient R) (w : Workspace) (id : RuleId) (text : String) :
    R w (w.probe id text) := by
  have hsource : R w (w.newSource text).2 := hR.same rfl rfl
  exact hR.trans hsource (hR.trans (hR.logRefusal _ _ _ _) (hR.same rfl rfl))

end Workspace

open Workspace (Lenient)

variable {R : Workspace → Workspace → Prop}

/-! ## Constructions

An action of a construction takes a workspace to another one, whether it gives a result or a fault;
the relation has to hold between the two in either case. -/

/-- The relation holds between the workspaces before and after the action. -/
def Build.Within {α : Type} (R : Workspace → Workspace → Prop) (x : Build α) : Prop :=
  ∀ w, R w (x.run w).2

namespace Build

variable {α β : Type} {x : Build α}

/-- A result is given without doing anything. -/
theorem within_pure (hR : Lenient R) (a : α) : Within R (pure a : Build α) :=
  fun w => hR.refl w

/-- What both parts of a sequence may do, the sequence may do. If the first one breaks off, the
second one is not run. -/
theorem Within.bind {f : α → Build β} (hR : Lenient R) (hx : Within R x)
    (hf : ∀ a, Within R (f a)) : Within R (x >>= f) := by
  intro w
  have h := hx w
  show R w (match x.run w with
    | (r, w') => (ExceptT.bindCont f r : StateM Workspace (Except Fault β)) w').2
  generalize x.run w = y at h ⊢
  rcases y with ⟨fault | a, w'⟩
  · exact h
  · exact hR.trans h (hf a w')

/-- An action on the workspace does what its function does. -/
theorem within_modifyGet {f : Workspace → α × Workspace} (h : ∀ w, R w (f w).2) :
    Within R (modifyGet f : Build α) :=
  h

end Build

/-- Caches are no rules. -/
theorem Workspace.newCaches_within (hR : Lenient R) (n : Nat) (w : Workspace) :
    R w (w.newCaches n).2 := by
  induction n generalizing w with
  | zero => exact hR.refl w
  | succ n ih =>
    have hnew : R w w.newCache.2 := hR.same rfl rfl
    exact hR.trans hnew (ih w.newCache.2)

/-- **What a construction does to the rules**, whatever the blueprint, closed or not, and whether it
succeeds or not: it makes new ones. -/
theorem Blueprint.build_within (hR : Lenient R) (scope : List (String × RuleId)) (b : Blueprint) :
    Build.Within R (b.build scope) := by
  have hnew : ∀ w : Workspace, R w w.newCache.2 := fun w => hR.same rfl rfl
  induction b with
  | literal | chars | accept | self => exact Build.within_pure hR _
  | map f p ih | tryMap f p ih | required message p ih =>
    exact ih.bind hR fun _ => Build.within_pure hR _
  | rep p ih => exact ih.bind hR fun _ => Build.within_pure hR _
  | seq a b iha ihb | alt a b iha ihb =>
    exact iha.bind hR fun _ => ihb.bind hR fun _ => Build.within_pure hR _
  | memo name p ih =>
    refine ih.bind hR fun g => Build.Within.bind hR (Build.within_modifyGet hnew) fun cache => ?_
    cases name with
    | none => exact Build.within_pure hR _
    | some name =>
      refine Build.Within.bind hR (Build.within_modifyGet fun w => ?_) fun _ =>
        Build.within_pure hR _
      exact hR.same rfl rfl
  | count name p ih =>
    refine Build.Within.bind hR (Build.within_modifyGet fun w => ?_) fun _ =>
      ih.bind hR fun _ => Build.within_pure hR _
    show R w (w.openCounter name)
    unfold Workspace.openCounter
    split
    · exact hR.refl w
    · exact hR.same rfl rfl
  | level assoc ops cached operand ih =>
    have hlevel (g : Grammar) : Build.Within R (do
        let caches ← modifyGet (Workspace.newCaches ops.length)
        return assoc.level g (Operator.longestFirst ops) caches) :=
      Build.Within.bind hR (Build.within_modifyGet (Workspace.newCaches_within hR _)) fun _ =>
        Build.within_pure hR _
    unfold Blueprint.build
    cases ops.any fun op => op.token.isEmpty with
    | true => exact fun w => hR.refl w
    | false =>
      refine ih.bind hR fun g => ?_
      cases cached with
      | false => exact hlevel g
      | true =>
        exact Build.Within.bind hR (Build.within_modifyGet hnew) fun cache => hlevel (.memo cache g)
  | rule label body _ =>
    exact Build.Within.bind hR (Build.within_modifyGet fun w => hR.newRule w _) fun _ =>
      Build.within_pure hR _
  | «exposed» | registered | registeredMemo =>
    exact Build.Within.bind hR (fun w => hR.refl w) fun _ => Build.within_pure hR _
  | unreadable reason => exact fun w => hR.refl w

/-! ## Runs

The same for runs, with one lemma for each way in which they are put together. -/

/-- The relation holds between the workspaces before and after the run. -/
def Run.Within (R : Workspace → Workspace → Prop) (r : Run) : Prop :=
  ∀ w, R w (r w).2

namespace Run

variable {r : Run}

/-- A known outcome leaves the workspace alone. -/
theorem within_done (hR : Lenient R) (o : Outcome) : Within R (done o) :=
  fun w => hR.refl w

/-- What a run and its sequel may do, they may do one after the other. -/
theorem Within.andThen {next : Value → Cursor → Run} (hR : Lenient R) (hr : Within R r)
    (hnext : ∀ v c, Within R (next v c)) : Within R (r.andThen next) := by
  intro w
  have h := hr w
  unfold Run.andThen
  split
  next v c w' heq =>
    rw [heq] at h
    exact hR.trans h (hnext v c w')
  next => exact h

theorem Within.orElse {next : Run} (hR : Lenient R) (hr : Within R r) (hnext : Within R next) :
    Within R (r.orElse next) := by
  intro w
  have h := hr w
  unfold Run.orElse
  split
  next w' heq =>
    rw [heq] at h
    exact hR.trans h (hnext w')
  next => exact h

/-- Any number of rounds may do what one round may. Induction on the rounds that are provided for.
-/
theorem within_repeatFrom {parser : Cursor → Run} (hR : Lenient R)
    (hparser : ∀ c, Within R (parser c)) (rounds : Nat) (values : List Value) (c : Cursor) :
    Within R (repeatFrom parser rounds values c) := by
  induction rounds generalizing values c with
  | zero => exact within_done hR _
  | succ rounds ih =>
    intro w
    have h := hparser c w
    unfold repeatFrom
    split
    next v next w' heq =>
      rw [heq] at h
      split
      · exact h
      · exact hR.trans h (ih (v :: values) next w')
    next w' heq =>
      rw [heq] at h
      split
      · exact h
      · exact h
    next => exact h

/-- A cache logs, remembers, and runs its parser at most. -/
theorem Within.viaCache (hR : Lenient R) (hr : Within R r) (cache : CacheId) (c : Cursor) :
    Within R (viaCache cache c r) := by
  have hstore : ∀ (w : Workspace) (answer : Remembered),
      R w ((w.log (.cacheMiss cache c.position)).remember cache c.position answer) :=
    fun w answer => hR.trans (hR.log w (by simp)) (hR.same rfl rfl)
  intro w
  have h := hr w
  unfold Packrat.viaCache
  split
  · exact hR.log w (by simp)
  · exact hR.log w (by simp)
  · split
    next heq =>
      rw [heq] at h
      exact hR.trans h (hstore _ _)
    next heq =>
      rw [heq] at h
      exact hR.trans h (hstore _ _)
    next => exact h

end Run

/-- **What a run does to the rules is what the rules that it asks for do.** -/
theorem Grammar.run_within {parseRule : Hold → RuleId → Cursor → Run} (hR : Lenient R)
    (hrule : ∀ hold id c, Run.Within R (parseRule hold id c)) (g : Grammar) (c : Cursor) :
    Run.Within R (g.run parseRule c) := by
  induction g generalizing c with
  | literal | chars | accept => exact Run.within_done hR _
  | map f p ih => exact (ih c).andThen hR fun _ _ => Run.within_done hR _
  | tryMap f p ih =>
    refine (ih c).andThen hR fun v next => ?_
    split
    · exact Run.within_done hR _
    · exact Run.within_done hR _
  | seq a b iha ihb =>
    exact (iha c).andThen hR fun _ middle => (ihb middle).andThen hR fun _ _ => Run.within_done hR _
  | alt a b iha ihb => exact (iha c).orElse hR (ihb c)
  | rep p ih => exact Run.within_repeatFrom hR ih _ _ c
  | required message p ih => exact (ih c).orElse hR fun w => hR.log w (by simp)
  | memo cache p ih => exact (ih c).viaCache hR cache c
  | count name p ih =>
    intro w
    have hcount : R w (w.countCall name) := hR.same rfl rfl
    exact hR.trans hcount (ih c (w.countCall name))
  | rule hold id => exact hrule hold id c

/-! ## Rules

Parsing a rule is where rules are entered, left and built. A relation has to be asked about these
three only; what is done apart from that, and to get a rule ready for being built, it allows. -/

namespace Workspace

/-- What is done to get ready leaves the rules alone, once the rule is underway. -/
theorem beginning_within (hR : Lenient R) (w : Workspace) (id : RuleId) (plan : Plan) :
    R (w.underway id) (w.beginning id plan) := by
  have hexposed : ∀ w₀ : Workspace, R w₀ (if plan.label.exposed then
      { w₀ with exposed := w₀.exposed.put plan.label.name id } else w₀) := by
    intro w₀
    split
    · exact hR.same rfl rfl
    · exact hR.refl _
  cases hprobe : plan.label.probe with
  | none =>
    simp only [beginning, hprobe]
    exact hexposed _
  | some text =>
    simp only [beginning, hprobe]
    exact hR.trans (hexposed _) (hR.probe _ id text)

/-- Asking for a definition does nothing to the rules, or constructs the one rule. -/
theorem definition_within (hR : Lenient R)
    (hconstruct : ∀ {w : Workspace} {id : RuleId} {r : Rule} {plan : Plan},
      w.rules[id]? = some r → r.definition = .pending plan → R w (w.construct id plan).2)
    (w : Workspace) (id : RuleId) : R w (w.definition id).2 := by
  unfold definition
  split
  · exact hR.refl w
  next plan entered retired hr =>
    have h := hconstruct hr rfl
    split
    next heq => rwa [heq] at h
    next heq => rwa [heq] at h
  · exact hR.refl w

end Workspace

/-- **What a parse of a rule does to the rules.** It is enough to know what becomes of a rule that
is built, and of one that is entered and left again. -/
theorem Rule.parse_within (hR : Lenient R)
    (hconstruct : ∀ {w : Workspace} {id : RuleId} {r : Rule} {plan : Plan},
      w.rules[id]? = some r → r.definition = .pending plan → R w (w.construct id plan).2)
    (hvisit : ∀ {w w' : Workspace} {id : RuleId} {r : Rule} {p : Position},
      w.rules[id]? = some r → R (w.enter id p) w' → R w (w'.leave id (w.marker id)))
    (depth : Nat) (hold : Hold) (id : RuleId) (c : Cursor) :
    Run.Within R (Rule.parse depth hold id c) := by
  induction depth generalizing hold id c with
  | zero => exact Run.within_done hR _
  | succ depth ih =>
    intro w
    unfold Rule.parse
    split
    next refusal hrefusal => exact hR.logRefusal w id c refusal
    next hrefusal =>
      -- a rule that does not refuse is there
      obtain ⟨r, hr⟩ : ∃ r, w.rules[id]? = some r := by
        unfold Workspace.refusal? at hrefusal
        split at hrefusal
        next => cases hrefusal
        next r hr => exact ⟨r, Workspace.rules_of_rule? hr⟩
      have hdefinition := Workspace.definition_within hR hconstruct (w.enter id c.position) id
      dsimp only
      split
      next g w' heq =>
        rw [heq] at hdefinition
        exact hvisit hr (hR.trans hdefinition (g.run_within hR ih c w'))
      next w' heq =>
        rw [heq] at hdefinition
        exact hvisit hr hdefinition
      next fault w' heq =>
        rw [heq] at hdefinition
        exact hvisit hr hdefinition

/-! ## Sessions

Steps build grammars, parse, and change what is known by name. Names own rules, but what becomes of
a rule without an owner is only decided when the step is over. -/

namespace Workspace

theorem buildFor_within (hR : Lenient R) (w : Workspace) (p : Blueprint) :
    R w (w.buildFor p).2 := by
  have h : R w (w.build p).2 := p.build_within hR [] w
  unfold buildFor
  split
  next heq =>
    rw [heq] at h
    exact hR.trans h (hR.same rfl rfl)
  next heq => rwa [heq] at h

/-- Ending an operation retires rules, and does nothing else to them. -/
theorem finish_within (hR : Lenient R) (w : Workspace) : R w w.finish := by
  have hgo : R w { w with scratch := [] } := hR.same rfl rfl
  exact hR.trans hgo (hR.settle _)

theorem parseText_within (hR : Lenient R) (hparse : ∀ (w : Workspace) g c, R w (w.parse g c).2)
    (w : Workspace) (g : Grammar) (text : String) : R w (w.parseText g text).2 := by
  have hsource : R w (w.newSource text).2 := hR.same rfl rfl
  exact hR.trans hsource (hparse (w.newSource text).2 g _)

/-- Making a report of an outcome logs at most. -/
theorem readWhole_within (hR : Lenient R) (hparse : ∀ (w : Workspace) g c, R w (w.parse g c).2)
    (w : Workspace) (g : Grammar) (name text : String) : R w (w.readWhole g name text).2 := by
  have h := parseText_within hR hparse w g text
  unfold readWhole
  split
  next v next w' heq =>
    rw [heq] at h
    split
    · exact h
    · exact hR.trans h (hR.log w' (by simp))
  next w' heq =>
    rw [heq] at h
    refine hR.trans h ?_
    unfold reportNoMatch
    simp only
    split
    · exact hR.log w' (by simp)
    · split
      · exact hR.log w' (by simp)
      · exact hR.log w' (by simp)
  next f w' heq =>
    rw [heq] at h
    refine hR.trans h ?_
    unfold reportFailure
    simp only
    split
    · exact hR.log w' (by simp)
    · exact hR.log w' (by simp)
  next fault w' heq => rwa [heq] at h

end Workspace

namespace Session

/-- Arguments and cursors are looked at, and the rest is done with them. -/
theorem withArgument_within {α : Type} (hR : Lenient R) (s : Session) (x : Argument α)
    {f : α → Answer × Session} (hf : ∀ a, R s.workspace (f a).2.workspace) :
    R s.workspace (s.withArgument x f).2.workspace := by
  cases x with
  | ok a => exact hf a
  | error reason => exact hR.refl _

theorem withCursor_within (hR : Lenient R) (s : Session) (name : String)
    {f : Cursor → Answer × Session} (hf : ∀ c, R s.workspace (f c).2.workspace) :
    R s.workspace (s.withCursor name f).2.workspace := by
  unfold withCursor
  split
  · exact hf _
  · exact hR.refl _

theorem buildFor_within (hR : Lenient R) (s : Session) (p : Blueprint) :
    R s.workspace (s.buildFor p).2.workspace :=
  Workspace.buildFor_within hR s.workspace p

variable (hparse : ∀ (w : Workspace) g c, R w (w.parse g c).2)

include hparse in
/-- **What a step does to the rules is what its parse does**, if it makes one. -/
theorem perform_within (hR : Lenient R) (s : Session) (x : Step) :
    R s.workspace (s.perform x).2.workspace := by
  have hsame : ∀ {w w' : Workspace}, w'.rules = w.rules → w'.events = w.events → R w w' :=
    fun hrules hevents => hR.same hrules (by unfold Workspace.constructions; rw [hevents])
  -- steps that take a grammar go on where its building leaves off, the others with the session
  cases x with
  | define name p =>
    have h := buildFor_within hR s p
    unfold perform
    simp only
    split
    next heq =>
      rw [heq] at h
      exact hR.trans h (hsame rfl rfl)
    next heq => rwa [heq] at h
  | defineRule name probe body => exact hR.trans (hR.newRule _ _) (hsame rfl rfl)
  | drop name => exact hsame rfl rfl
  | parse p text =>
    have h := buildFor_within hR s p
    unfold perform
    simp only
    split
    next g s' heq =>
      rw [heq] at h
      refine hR.trans h (withArgument_within hR s' text fun text => ?_)
      exact Workspace.parseText_within hR hparse s'.workspace g text
    next heq => rwa [heq] at h
  | parseAt p cursor =>
    have h := buildFor_within hR s p
    unfold perform
    simp only
    split
    next g s' heq =>
      rw [heq] at h
      refine hR.trans h (withArgument_within hR s' cursor fun cursor => ?_)
      exact withCursor_within hR s' cursor fun c => hparse _ g c
    next heq => rwa [heq] at h
  | readWhole p name text =>
    have h := buildFor_within hR s p
    unfold perform
    simp only
    split
    next g s' heq =>
      rw [heq] at h
      refine hR.trans h (withArgument_within hR s' name fun name => ?_)
      refine withArgument_within hR s' text fun text => ?_
      have hread := Workspace.readWhole_within hR hparse s'.workspace g name text
      split
      next heq' => rwa [heq'] at hread
      next heq' => rwa [heq'] at hread
    next heq => rwa [heq] at h
  | constructed | cached | calls | probes | unreadable => exact hR.refl _
  | tokens tokens =>
    unfold perform
    simp only
    split
    · exact hR.refl _
    · exact hR.refl _
  | source name text => exact hsame rfl rfl
  | start name source =>
    unfold perform
    simp only
    split
    · exact hR.refl _
    · exact hR.refl _
  | advance name cursor bytes =>
    refine withCursor_within hR s cursor fun c => withArgument_within hR s bytes fun bytes => ?_
    split
    · exact hR.refl _
    · exact hR.refl _
  | startsWith cursor token =>
    exact withCursor_within hR s cursor fun c => withArgument_within hR s token fun _ => hR.refl _
  | same first second =>
    exact withCursor_within hR s first fun c => withArgument_within hR s second fun second =>
      withCursor_within hR s second fun _ => hR.refl _

include hparse in
/-- **What a session does to the rules**, over any number of steps, is what its parses do. -/
theorem run_within (hR : Lenient R) (xs : List Step) (s : Session) :
    R s.workspace (run xs s).2.workspace := by
  induction xs generalizing s with
  | nil => exact hR.refl _
  | cons x xs ih =>
    have hstep : R s.workspace (s.step x).2.workspace :=
      hR.trans (perform_within hparse hR s x) (Workspace.finish_within hR _)
    exact hR.trans hstep (ih (s.step x).2)

end Session

end Packrat
