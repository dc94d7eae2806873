import Mathlib.Data.Finset.Card
import Mathlib.Data.Finset.Range
import Packrat.Engine.Run

/-!
# Markers, budgets and alarms

What a run shows of itself in the workspace, apart from its caches, and how the operations on a
workspace act on it:

* the **marker** of a rule, the position at which it is entered;
* the **rule budget**, which counts the rules that there are or can come to be and which entering,
  leaving and building a rule do not change;
* the **alarms**, the reports of left recursion in the log.

`Workspace.beginning` is the workspace that the body of a rule is built in.

`Workspace.Keeps` collects what every run leaves as it was, `Workspace.Aside` what does not concern
runs at all. A rule that has an owner refuses to be entered exactly where it is entered already
(`refusal?_eq`).

`Workspace.headroom` bounds how many rules can still be entered inside each other from a place on:
the rules not yet entered there, and all of them for each character ahead. Entering a rule uses up
some of it (`headroom_enter_lt`), and neither moving on (`headroom_le_of_lt`) nor a run that keeps
the workspace (`Keeps.headroom_eq`) gives any back.
-/

namespace Packrat

/-- The rule and position of a report of left recursion. -/
def Event.alarm? : Event → Option (RuleId × Position)
  | .leftRecursion id p => some (id, p)
  | _ => none

namespace Workspace

/-- Where a rule is entered and not yet left. -/
def marker (w : Workspace) (id : RuleId) : Option Position :=
  w.rules[id]?.bind Rule.entered

/-- The reports of left recursion, oldest first. -/
def alarms (w : Workspace) : List (RuleId × Position) :=
  w.events.toList.filterMap Event.alarm?

/-! ## Markers

The marker of one rule is changed by entering and by leaving this rule, and by nothing else that
happens in a run. -/

/-- What is no rule is not entered. -/
theorem marker_eq_none {w : Workspace} {id : RuleId} (h : w.rules.size ≤ id) :
    w.marker id = none := by
  rw [marker, Array.getElem?_eq_none h]
  rfl

/-- What is entered is a rule. -/
theorem lt_size_of_marker {w : Workspace} {id : RuleId} {p : Position}
    (h : w.marker id = some p) : id < w.rules.size := by
  refine Nat.lt_of_not_le fun hge => ?_
  rw [marker_eq_none hge] at h
  cases h

/-- Entering marks one rule. -/
theorem marker_enter (w : Workspace) (id : RuleId) (p : Position) {r : Rule}
    (hr : w.rules[id]? = some r) (i : RuleId) :
    (w.enter id p).marker i = if id = i then some p else w.marker i := by
  unfold marker enter
  rw [Array.getElem?_modify]
  split
  next h => rw [← h, hr]; rfl
  next => rfl

/-- Leaving puts the earlier marker of one rule back. -/
theorem marker_leave (w : Workspace) (id : RuleId) (before : Option Position) {r : Rule}
    (hr : w.rules[id]? = some r) (i : RuleId) :
    (w.leave id before).marker i = if id = i then before else w.marker i := by
  unfold marker leave
  rw [Array.getElem?_modify]
  split
  next h => rw [← h, hr]; rfl
  next => rfl

/-- Leaving a rule that has just been entered undoes it. -/
theorem leave_enter (w : Workspace) (id : RuleId) (p : Position) :
    (w.enter id p).leave id (w.marker id) = w := by
  have hrules : ((w.enter id p).leave id (w.marker id)).rules = w.rules := by
    refine Array.ext_getElem? fun i => ?_
    rw [leave, enter, Array.getElem?_modify, Array.getElem?_modify]
    by_cases hi : id = i
    · subst hi
      cases hr : w.rules[id]? with
      | none => simp
      | some r => simp [marker, hr]
    · simp only [if_neg hi]
  show ({ w with rules := ((w.enter id p).leave id (w.marker id)).rules } : Workspace) = w
  rw [hrules]

/-- Definitions and markers have nothing to do with each other. -/
theorem marker_define (w : Workspace) (id : RuleId) (d : Definition) (i : RuleId) :
    (w.define id d).marker i = w.marker i := by
  unfold marker define
  rw [Array.getElem?_modify]
  split
  next => cases w.rules[i]? <;> rfl
  next => rfl

/-! ## Budgets

The budget of a workspace is the sum of those of its rules. A pending rule has the rules of its body
in its budget, and gives them up when they are made: so building a body keeps the sum. -/

/-- Changing one rule changes the sum of budgets by as much as it changes that rule's. -/
theorem budget_modify (rs : List Rule) (id : RuleId) (f : Rule → Rule) {r : Rule}
    (hr : rs[id]? = some r) :
    (rs.modify id f).foldr (fun r n => r.budget + n) 0 + r.budget
      = rs.foldr (fun r n => r.budget + n) 0 + (f r).budget := by
  induction rs generalizing id with
  | nil => simp at hr
  | cons q rs ih =>
    cases id with
    | zero =>
      obtain rfl : q = r := by simpa using hr
      rw [List.modify_zero_cons]
      simp only [List.foldr_cons]
      omega
    | succ id =>
      have ih := ih id (by simpa using hr)
      rw [List.modify_succ_cons]
      simp only [List.foldr_cons]
      omega

/-- Another definition changes the budget by as much as it changes that of its rule. -/
theorem ruleBudget_define (w : Workspace) (id : RuleId) (d : Definition) {r : Rule}
    (hr : w.rules[id]? = some r) :
    (w.define id d).ruleBudget + r.budget
      = w.ruleBudget + ({ r with definition := d } : Rule).budget := by
  unfold ruleBudget define
  rw [Array.toList_modify]
  exact budget_modify _ id _ (by rw [Array.getElem?_toList, hr])

/-- Markers have no part in budgets. -/
theorem ruleBudget_enter (w : Workspace) (id : RuleId) (p : Position) {r : Rule}
    (hr : w.rules[id]? = some r) : (w.enter id p).ruleBudget = w.ruleBudget := by
  unfold ruleBudget enter
  rw [Array.toList_modify]
  have h := budget_modify w.rules.toList id (fun r => { r with entered := some p })
    (r := r) (by rw [Array.getElem?_toList, hr])
  exact Nat.add_right_cancel h

theorem ruleBudget_leave (w : Workspace) (id : RuleId) (before : Option Position) {r : Rule}
    (hr : w.rules[id]? = some r) : (w.leave id before).ruleBudget = w.ruleBudget := by
  unfold ruleBudget leave
  rw [Array.toList_modify]
  have h := budget_modify w.rules.toList id (fun r => { r with entered := before })
    (r := r) (by rw [Array.getElem?_toList, hr])
  exact Nat.add_right_cancel h

/-- A rule that waits for its body brings itself and the rules that the body describes. -/
theorem ruleBudget_newRule (w : Workspace) (plan : Plan) :
    (w.newRule plan).2.ruleBudget = w.ruleBudget + (1 + plan.body.ruleCount) := by
  have hfoldr : ∀ (rs : List Rule) (a : Nat),
      rs.foldr (fun r n => r.budget + n) a = rs.foldr (fun r n => r.budget + n) 0 + a := by
    intro rs a
    induction rs with
    | nil => simp
    | cons r rs ih => rw [List.foldr_cons, List.foldr_cons, ih, Nat.add_assoc]
  show List.foldr _ 0 (w.rules.push _).toList = _
  rw [Array.toList_push, List.foldr_append, hfoldr]
  rfl

/-- Every rule that there is counts for one at least. -/
theorem size_le_ruleBudget (w : Workspace) : w.rules.size ≤ w.ruleBudget := by
  have h : ∀ rs : List Rule, rs.length ≤ rs.foldr (fun r n => r.budget + n) 0 := by
    intro rs
    induction rs with
    | nil => simp
    | cons r rs ih =>
      have hpos : 1 ≤ r.budget := by
        unfold Rule.budget
        split <;> omega
      rw [List.length_cons, List.foldr_cons]
      omega
  exact h w.rules.toList

/-! ## What a run keeps

Runs change caches, the log and definitions. What is listed here they leave alone, and the lists of
two runs one after the other agree. -/

/-- What every run leaves as it was, whatever its outcome. -/
structure Keeps (w w' : Workspace) : Prop where
  /-- Every rule is entered where it was. -/
  marker : ∀ id, w'.marker id = w.marker id
  /-- The same rules are being parsed. -/
  active : w'.active = w.active
  /-- No more rules can come to be. -/
  budget : w'.ruleBudget = w.ruleBudget
  /-- Rules do not go away. -/
  size : w.rules.size ≤ w'.rules.size
  /-- Sources do not go away. -/
  sources : w.sources ≤ w'.sources

theorem Keeps.refl (w : Workspace) : w.Keeps w :=
  ⟨fun _ => rfl, rfl, rfl, Nat.le_refl _, Nat.le_refl _⟩

/-- What is kept over two stretches is kept over both of them. -/
theorem Keeps.trans {w w' w'' : Workspace} (h : w.Keeps w') (h' : w'.Keeps w'') :
    w.Keeps w'' where
  marker id := (h'.marker id).trans (h.marker id)
  active := h'.active.trans h.active
  budget := h'.budget.trans h.budget
  size := h.size.trans h'.size
  sources := h.sources.trans h'.sources

/-- Entering a rule, doing something that keeps the workspace, and leaving the rule again. -/
theorem Keeps.leave {w w' : Workspace} {id : RuleId} {p : Position} {r : Rule}
    (hr : w.rules[id]? = some r) (h : (w.enter id p).Keeps w') :
    w.Keeps (w'.leave id (w.marker id)) := by
  have hsize : w.rules.size ≤ w'.rules.size := by
    have hsize := h.size
    rwa [show (w.enter id p).rules.size = w.rules.size from Array.size_modify] at hsize
  -- the rule is still there when it is left, since no rule ever goes away
  have hlt : id < w'.rules.size :=
    Nat.lt_of_lt_of_le (Array.getElem?_eq_some_iff.1 hr).1 hsize
  obtain ⟨r', hr'⟩ : ∃ r', w'.rules[id]? = some r' := ⟨_, Array.getElem?_eq_getElem hlt⟩
  refine ⟨fun i => ?_, ?_, ?_, ?_, h.sources⟩
  · -- leaving puts back what entering has overwritten, for this one rule
    rw [marker_leave w' id _ hr', h.marker, marker_enter w id p hr]
    split
    next hi => rw [hi]
    next => rfl
  · show w'.active.tail = w.active
    rw [h.active]
    rfl
  · rw [ruleBudget_leave w' id _ hr', h.budget, ruleBudget_enter w id p hr]
  · rwa [show (w'.leave id _).rules.size = w'.rules.size from Array.size_modify]

/-! ## What is aside from a run

Logging and counting concern no parser. Only an alarm is something to be remembered, since it tells
of a rule that has refused. -/

/-- Only reports of left recursion are alarms. -/
theorem alarms_log {w : Workspace} {e : Event} (he : e.alarm? = none) :
    (w.log e).alarms = w.alarms := by
  show List.filterMap _ (w.events.push e).toList = _
  rw [Array.toList_push, List.filterMap_append]
  simp [he, alarms]

theorem alarms_leftRecursion (w : Workspace) (id : RuleId) (p : Position) :
    (w.log (.leftRecursion id p)).alarms = w.alarms ++ [(id, p)] := by
  show List.filterMap _ (w.events.push _).toList = _
  rw [Array.toList_push, List.filterMap_append]
  rfl

/-- Neither rules nor caches are touched, and no alarm is raised; a source may be made. -/
structure Aside (w w' : Workspace) : Prop where
  rules : w'.rules = w.rules
  caches : w'.caches = w.caches
  active : w'.active = w.active
  sources : w.sources ≤ w'.sources
  alarms : w'.alarms = w.alarms

theorem Aside.trans {w w' w'' : Workspace} (h : w.Aside w') (h' : w'.Aside w'') : w.Aside w'' where
  rules := h'.rules.trans h.rules
  caches := h'.caches.trans h.caches
  active := h'.active.trans h.active
  sources := h.sources.trans h'.sources
  alarms := h'.alarms.trans h.alarms

/-- What does not concern runs is kept like everything else. -/
theorem Aside.keeps {w w' : Workspace} (h : w.Aside w') : w.Keeps w' where
  marker id := by rw [marker, marker, h.rules]
  active := h.active
  budget := by rw [ruleBudget, ruleBudget, h.rules]
  size := by rw [h.rules]
  sources := h.sources

theorem aside_log (w : Workspace) {e : Event} (he : e.alarm? = none) : w.Aside (w.log e) :=
  ⟨rfl, rfl, rfl, Nat.le_refl _, alarms_log he⟩

theorem aside_countCall (w : Workspace) (name : String) : w.Aside (w.countCall name) :=
  ⟨rfl, rfl, rfl, Nat.le_refl _, rfl⟩

/-! ## Constructions

Before the body of a rule is built the rule is got ready for it. What is known of a construction is
known of what is done for that and of the body. -/

/-- The rule is about to be built. -/
def underway (w : Workspace) (id : RuleId) : Workspace :=
  (w.log (.constructing id)).define id .underway

/-- The workspace that the body of a rule is built in: the rule is underway, its handle has been
made known, and it has been tried out, if that is asked for. -/
def beginning (w : Workspace) (id : RuleId) (plan : Plan) : Workspace :=
  let w := w.underway id
  let w :=
    if plan.label.exposed then { w with exposed := w.exposed.put plan.label.name id } else w
  match plan.label.probe with
  | some text => w.probe id text
  | none => w

/-- Constructing a rule is building its body in the workspace that has been got ready, and marking
the rule as built. -/
theorem construct_eq_build (w : Workspace) (id : RuleId) (plan : Plan) :
    w.construct id plan
      = match (plan.body.build ((plan.label.name, id) :: plan.scope)).run (w.beginning id plan) with
        | (.ok g, w') => (.ok g, w'.define id (.built g))
        | (.error fault, w') => (.error fault, w') :=
  rfl

/-- Trying a rule out leaves the rules alone. -/
theorem rules_probe (w : Workspace) (id : RuleId) (text : String) :
    (w.probe id text).rules = w.rules := by
  have hlog (v : Workspace) (c : Cursor) (refusal : Refusal) :
      (v.logRefusal id c refusal).rules = v.rules := by
    cases refusal <;> rfl
  exact hlog _ _ _

/-- Of the rules, only the one that is got ready is changed: it is underway. -/
theorem rules_beginning (w : Workspace) (id : RuleId) (plan : Plan) :
    (w.beginning id plan).rules = (w.define id .underway).rules := by
  have hnamed : (if plan.label.exposed then
      { w.underway id with exposed := (w.underway id).exposed.put plan.label.name id }
        else w.underway id).rules = (w.define id .underway).rules := by
    split <;> rfl
  unfold beginning
  simp only
  split
  · exact (rules_probe _ _ _).trans hnamed
  · exact hnamed

/-! ## References and refusals

A rule of a closed grammar always has an owner when it is asked for: either the reference owns it,
or the rule is being parsed. So it is alive, and refuses for left recursion or not at all. -/

/-- A reference never leads to anything but its rule. -/
theorem rules_of_rule? {w : Workspace} {hold : Hold} {id : RuleId} {r : Rule}
    (h : w.rule? hold id = some r) : w.rules[id]? = some r := by
  unfold rule? at h
  cases hr : w.rules[id]? with
  | none => rw [hr] at h; cases h
  | some r' =>
    rw [hr] at h
    cases hold with
    | owned => exact h
    | weak => exact (Option.ite_none_right_eq_some.1 h).2

/-- A rule reports left recursion only where it is entered. -/
theorem marker_of_refusal? {w : Workspace} {hold : Hold} {id : RuleId} {c : Cursor}
    (h : w.refusal? hold id c = some .leftRecursion) : w.marker id = some c.position := by
  unfold refusal? at h
  split at h
  next => cases h
  next r hr =>
    rw [marker, rules_of_rule? hr]
    split at h
    next hentered => exact hentered
    next => cases h

/-- All other refusals leave the log alone. -/
theorem logRefusal_of_ne {w : Workspace} {id : RuleId} {c : Cursor} {refusal : Refusal}
    (h : refusal ≠ .leftRecursion) : w.logRefusal id c refusal = w := by
  cases refusal with
  | dropped => rfl
  | leftRecursion => exact absurd rfl h
  | underConstruction => rfl

/-- A rule with an owner outside the rules survives a round. -/
theorem mem_withOwner {w : Workspace} {id : RuleId} {ids : List RuleId} (hid : id ∈ ids)
    (hrooted : id ∈ w.rootedRules) : id ∈ w.withOwner ids := by
  unfold withOwner
  rw [List.mem_filter]
  exact ⟨hid, by simp [hrooted]⟩

/-- A rule with an owner outside the rules survives every round. -/
theorem mem_ownedAfter {w : Workspace} {id : RuleId} (hrooted : id ∈ w.rootedRules) (rounds : Nat)
    {ids : List RuleId} (hid : id ∈ ids) : id ∈ w.ownedAfter rounds ids := by
  induction rounds generalizing ids with
  | zero => exact hid
  | succ rounds ih =>
    unfold ownedAfter
    simp only
    split
    · exact hid
    · -- a round drops only what has no owner, and the roots are owners in every round
      exact ih (mem_withOwner hid hrooted)

/-- A rule that is being parsed is alive. -/
theorem mem_living {w : Workspace} {id : RuleId} {r : Rule} (hr : w.rules[id]? = some r)
    (hretired : r.retired = false) (hactive : id ∈ w.active) : id ∈ w.living := by
  refine mem_ownedAfter ?_ _ ?_
  · simp [rootedRules, hactive]
  · rw [List.mem_filter, List.mem_range]
    exact ⟨(Array.getElem?_eq_some_iff.1 hr).1, by simp [hr, hretired]⟩

/-- A reference leads to a rule that has not lost its owners; a weak one, to a rule that is being
parsed. -/
theorem rule?_eq_some {w : Workspace} {hold : Hold} {id : RuleId} {r : Rule}
    (hr : w.rules[id]? = some r) (hretired : r.retired = false)
    (hactive : hold = .weak → id ∈ w.active) : w.rule? hold id = some r := by
  unfold rule?
  rw [hr]
  cases hold with
  | owned => rfl
  | weak =>
    have hliving := mem_living hr hretired (hactive rfl)
    cases hunsettled : w.unsettled with
    | true => simp [hliving]
    | false => simp [hretired]

/-- Such a rule refuses exactly where it is entered. -/
theorem refusal?_eq {w : Workspace} {hold : Hold} {id : RuleId} {r : Rule}
    (hr : w.rules[id]? = some r) (hretired : r.retired = false)
    (hactive : hold = .weak → id ∈ w.active) (c : Cursor) :
    w.refusal? hold id c = if w.marker id = some c.position then some .leftRecursion else none := by
  have hmarker : w.marker id = r.entered := by rw [marker, hr]; rfl
  rw [refusal?, rule?_eq_some hr hretired hactive, hmarker]

/-! ## Headroom

The measure that makes runs end. It is a sum of a product and of a difference: the product goes down
when the cursor moves, and the difference when a rule is entered without a move. -/

/-- The rules that are entered at a position. -/
def enteredAt (w : Workspace) (p : Position) : Finset RuleId :=
  (Finset.range w.rules.size).filter fun id => w.marker id = some p

/-- The rules entered at a position are those with this marker; being rules, they are finitely many.
-/
theorem mem_enteredAt {w : Workspace} {p : Position} {id : RuleId} :
    id ∈ w.enteredAt p ↔ w.marker id = some p := by
  rw [enteredAt, Finset.mem_filter, Finset.mem_range]
  exact ⟨fun h => h.2, fun h => ⟨lt_size_of_marker h, h⟩⟩

/-- There are no more of them than the budget allows for. -/
theorem card_enteredAt_le_ruleBudget (w : Workspace) (p : Position) :
    (w.enteredAt p).card ≤ w.ruleBudget := by
  have hcard : (w.enteredAt p).card ≤ w.rules.size := by
    have := Finset.card_filter_le (Finset.range w.rules.size) fun id => w.marker id = some p
    rwa [Finset.card_range] at this
  exact hcard.trans w.size_le_ruleBudget

/-- Entering a rule that is not entered there makes them one more. -/
theorem card_enteredAt_enter (w : Workspace) {id : RuleId} {p : Position} {r : Rule}
    (hr : w.rules[id]? = some r) (hp : w.marker id ≠ some p) :
    ((w.enter id p).enteredAt p).card = (w.enteredAt p).card + 1 := by
  have hset : (w.enter id p).enteredAt p = insert id (w.enteredAt p) := by
    ext i
    rw [mem_enteredAt, Finset.mem_insert, mem_enteredAt, marker_enter w id p hr]
    by_cases h : id = i
    · simp [h]
    · simp [h, Ne.symm h]
  rw [hset, Finset.card_insert_of_notMem (fun h => hp (mem_enteredAt.1 h))]

/-- How many rules can still be entered inside each other at a position with the given number of
characters ahead. -/
def headroom (w : Workspace) (p : Position) (ahead : Nat) : Nat :=
  w.ruleBudget * ahead + (w.ruleBudget - (w.enteredAt p).card)

/-- Headroom depends on nothing that a run changes. -/
theorem Keeps.headroom_eq {w w' : Workspace} (h : w.Keeps w') (p : Position) (ahead : Nat) :
    w'.headroom p ahead = w.headroom p ahead := by
  have hset : w'.enteredAt p = w.enteredAt p := by
    ext id
    rw [mem_enteredAt, mem_enteredAt, h.marker id]
  rw [headroom, headroom, h.budget, hset]

/-- Moving on gives up the headroom of at least one character, which is more than all the rules that
were entered behind it. -/
theorem headroom_le_of_lt (w : Workspace) (p q : Position) {ahead ahead' : Nat}
    (h : ahead' < ahead) : w.headroom q ahead' ≤ w.headroom p ahead := by
  have hmul : w.ruleBudget * (ahead' + 1) ≤ w.ruleBudget * ahead := Nat.mul_le_mul_left _ h
  rw [Nat.mul_add, Nat.mul_one] at hmul
  unfold headroom
  omega

/-- **Entering a rule uses up headroom**, if the rule is not entered there already. -/
theorem headroom_enter_lt (w : Workspace) {id : RuleId} {p : Position} {r : Rule}
    (hr : w.rules[id]? = some r) (hp : w.marker id ≠ some p) (ahead : Nat) :
    (w.enter id p).headroom p ahead < w.headroom p ahead := by
  have hbudget := ruleBudget_enter w id p hr
  have hcard := card_enteredAt_enter w hr hp
  -- the subtraction in `headroom` does not run out: even now there are no more rules than budget
  have hle := card_enteredAt_le_ruleBudget (w.enter id p) p
  unfold headroom
  rw [hbudget] at hle ⊢
  omega

/-- The depth that a parse provides for is enough. -/
theorem headroom_lt_depthBudget (w : Workspace) (p : Position) (c : Cursor) :
    w.headroom p c.rest.length < w.depthBudget c := by
  unfold headroom depthBudget
  rw [Nat.mul_add, Nat.mul_one]
  omega

end Workspace

end Packrat
