import Packrat.Proofs.Session.RuleChanges

/-!
# Markers are put back

A rule that is entered has a marker, and the marker that it had before is put back when the rule is
left, in whatever way: with a match, with none, with a hard failure or with a fault.

* **`Workspace.Restores`** — every rule that was there is entered where it was, and no rule that has
  been made since is entered at all.
* **`Workspace.Restores.leave`** — entering a rule, something that restores the markers, and leaving
  the rule again restore the markers.
* **`Workspace.parse_restores_markers`** — so every run restores them, from any workspace and with
  any grammar, and between the steps of a session no rule is entered.
-/

namespace Packrat

namespace Workspace

/-- The markers are as they were. A rule that was not there before had none. -/
structure Restores (w w' : Workspace) : Prop where
  size : w.rules.size ≤ w'.rules.size
  marker : ∀ id, w'.marker id = w.marker id

theorem Restores.trans {w w' w'' : Workspace} (h : w.Restores w') (h' : w'.Restores w'') :
    w.Restores w'' where
  size := h.size.trans h'.size
  marker id := (h'.marker id).trans (h.marker id)

/-- A new rule is not entered. -/
theorem restores_newRule (w : Workspace) (plan : Plan) : w.Restores (w.newRule plan).2 := by
  refine ⟨?_, fun id => ?_⟩
  · show w.rules.size ≤ (w.rules.push _).size
    simp
  · show ((w.rules.push _)[id]?).bind Rule.entered = w.rules[id]?.bind Rule.entered
    rw [Array.getElem?_push]
    split
    next h => simp [h]
    next => rfl

theorem restores_settle (w : Workspace) : w.Restores w.settle := by
  unfold settle
  refine ⟨by simp, fun id => ?_⟩
  simp only [marker, Array.getElem?_mapIdx]
  cases w.rules[id]? with
  | none => rfl
  | some r => rfl

theorem restores_define (w : Workspace) (id : RuleId) (d : Definition) :
    w.Restores (w.define id d) := by
  refine ⟨?_, marker_define w id d⟩
  show w.rules.size ≤ (w.rules.modify id _).size
  simp

theorem lenient_restores : Lenient Restores where
  trans h h' := h.trans h'
  same hrules _ := ⟨by rw [hrules], fun id => by unfold marker; rw [hrules]⟩
  newRule := restores_newRule
  settle := restores_settle

/-- The definition of a rule changes, and nothing about markers. -/
theorem restores_construct (w : Workspace) (id : RuleId) (plan : Plan) :
    w.Restores (w.construct id plan).2 := by
  have hbegun : w.Restores (w.beginning id plan) := by
    have hlog : w.Restores (w.log (.constructing id)) := ⟨Nat.le_refl _, fun _ => rfl⟩
    have hdefine := restores_define (w.log (.constructing id)) id .underway
    exact (hlog.trans hdefine).trans (beginning_within lenient_restores w id plan)
  have hbuild := plan.body.build_within lenient_restores ((plan.label.name, id) :: plan.scope)
    (w.beginning id plan)
  rw [construct_eq_build]
  split
  next g w' heq =>
    rw [heq] at hbuild
    exact (hbegun.trans hbuild).trans (restores_define w' id _)
  next fault w' heq =>
    rw [heq] at hbuild
    exact hbegun.trans hbuild

/-- Leaving a rule puts back the one marker that entering it has overwritten. -/
theorem Restores.leave {w w' : Workspace} {id : RuleId} {r : Rule} {p : Position}
    (hr : w.rules[id]? = some r) (h : (w.enter id p).Restores w') :
    w.Restores (w'.leave id (w.marker id)) := by
  have hsize : w.rules.size ≤ w'.rules.size := by
    have hsize := h.size
    unfold enter at hsize
    simpa using hsize
  have hlt : id < w'.rules.size := by
    obtain ⟨hlt, _⟩ := Array.getElem?_eq_some_iff.1 hr
    exact Nat.lt_of_lt_of_le hlt hsize
  refine ⟨?_, fun i => ?_⟩
  · show w.rules.size ≤ (w'.rules.modify id _).size
    simpa using hsize
  · rw [marker_leave w' id _ (Array.getElem?_eq_getElem hlt), h.marker, marker_enter w id p hr]
    by_cases hi : id = i
    · simp [hi]
    · simp [hi]

/-- Every run restores the markers, to whatever depth rules may nest. -/
theorem restores_run (g : Grammar) (c : Cursor) (depth : Nat) (w : Workspace) :
    w.Restores (g.run (Rule.parse depth) c w).2 := by
  refine g.run_within lenient_restores (fun hold id c => ?_) c w
  refine Rule.parse_within lenient_restores (fun {w id r plan} _ _ => ?_) (fun hr h => ?_) depth
    _ _ _
  · exact restores_construct w id plan
  · exact h.leave hr

/-- **Every way out of a parse restores the markers.** Whatever the state of the workspace, the
grammar, the cursor and the outcome: a rule that was there is entered where it was before, and a
rule that has been made since is not entered. So between the steps of a session no rule is. -/
theorem parse_restores_markers (w : Workspace) (g : Grammar) (c : Cursor) :
    (∀ (id : RuleId) (r : Rule), w.rules[id]? = some r →
        ∃ r', (w.parse g c).2.rules[id]? = some r' ∧ r'.entered = r.entered)
      ∧ (∀ (id : RuleId) (r' : Rule), w.rules.size ≤ id →
        (w.parse g c).2.rules[id]? = some r' → r'.entered = none)
      ∧ ∀ (xs : List Step) (id : RuleId) (r : Rule),
        (Session.run xs .empty).2.workspace.rules[id]? = some r → r.entered = none := by
  have hparse : ∀ (w : Workspace) g c, w.Restores (w.parse g c).2 :=
    fun w g c => restores_run g c (w.depthBudget c) w
  obtain ⟨hsize, hmarker⟩ := hparse w g c
  refine ⟨fun id r hr => ?_, fun id r' hid hr' => ?_, fun xs id r hr => ?_⟩
  · obtain ⟨hlt, _⟩ := Array.getElem?_eq_some_iff.1 hr
    refine ⟨_, Array.getElem?_eq_getElem (hlt.trans_le hsize), ?_⟩
    have h := hmarker id
    rwa [marker, marker, hr, Array.getElem?_eq_getElem (hlt.trans_le hsize)] at h
  · have h := hmarker id
    rwa [marker_eq_none hid, marker, hr'] at h
  · have h := (Session.run_within hparse lenient_restores xs .empty).marker id
    rw [marker, hr] at h
    exact h.trans (marker_eq_none (Nat.zero_le id))

end Workspace

end Packrat
