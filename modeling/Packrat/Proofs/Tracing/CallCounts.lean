import Packrat.Proofs.Tracing.FailurePropagation
import Packrat.Proofs.Tracing.ProperGrammars

/-!
# Calls that are counted

A counter counts the calls of the parsers that carry its name. Where there is only one such parser
and it stands right behind a cache, it is called as often as the cache calls the parser behind it.

* **`Grammar.CountedBy`** — in the grammar, a name stands for the calls of the parser behind one
  cache and for no others.
* **`Grammar.traced_counts`** — if this holds of the grammar and of every definition there is in
  the end, a run counts as many calls under the name as the cache makes. And every run upholds
  what the workspace has in order.
-/

namespace Packrat

/-- How many calls under the name are counted when the parser is called, before it does anything
else. -/
def Grammar.callsFor (name : String) : Grammar → Nat
  | .count m _ => if m = name then 1 else 0
  | _ => 0

/-- What is counted under the name is the parser right behind the cache, and nothing below the
root besides. -/
def Grammar.CountedBy (name : String) (k : CacheId) : Grammar → Prop
  | .literal _ => True
  | .chars _ => True
  | .accept _ => True
  | .map _ p => p.callsFor name = 0 ∧ p.CountedBy name k
  | .tryMap _ p => p.callsFor name = 0 ∧ p.CountedBy name k
  | .seq a b => (a.callsFor name = 0 ∧ a.CountedBy name k) ∧ b.callsFor name = 0
    ∧ b.CountedBy name k
  | .alt a b => (a.callsFor name = 0 ∧ a.CountedBy name k) ∧ b.callsFor name = 0
    ∧ b.CountedBy name k
  | .rep p => p.callsFor name = 0 ∧ p.CountedBy name k
  | .required _ p => p.callsFor name = 0 ∧ p.CountedBy name k
  | .memo i p => (p.callsFor name = if i = k then 1 else 0) ∧ p.CountedBy name k
  | .count _ p => p.callsFor name = 0 ∧ p.CountedBy name k
  | .rule _ _ => True

/-- What is counted under the name, wherever in the grammar, is the parser right behind the
cache. -/
def Grammar.CountsOnly (name : String) (k : CacheId) (g : Grammar) : Prop :=
  g.callsFor name = 0 ∧ g.CountedBy name k

/-- This holds of every rule that has been built. -/
def Workspace.CountsOnly (name : String) (k : CacheId) (w : Workspace) : Prop :=
  ∀ id g, w.Has id g → g.CountsOnly name k

theorem Workspace.Upholds.countsOnly {w w' : Workspace} (h : w.Upholds w') {name : String}
    {k : CacheId} (h' : w'.CountsOnly name k) : w.CountsOnly name k :=
  fun id g hg => h' id g (h.built hg)

/-- The second workspace upholds what the first one has; and under the condition, the calls counted
in between are those that the cache makes, and `extra` ones. -/
structure Workspace.Tracks (name : String) (k : CacheId) (condition : Prop) (w : Workspace)
    (ms : List Mark) (extra : Nat) (w' : Workspace) : Prop where
  upholds : w.Upholds w'
  calls : condition → w'.CountsOnly name k →
    calls name ms = (evaluations k ms).length + extra

section

variable {name : String} {k : CacheId} {condition condition' : Prop} {extra extra' : Nat}
  {w w' w'' : Workspace} {ms ms' : List Mark}

theorem Workspace.Upholds.tracks (h : w.Upholds w') : w.Tracks name k condition [] 0 w' :=
  ⟨h, fun _ _ => rfl⟩

/-- Stretches add up. -/
theorem Workspace.Tracks.trans (h : w.Tracks name k condition ms extra w')
    (h' : w'.Tracks name k condition ms' extra' w'') :
    w.Tracks name k condition (ms ++ ms') (extra + extra') w'' where
  upholds := h.upholds.trans h'.upholds
  calls hcond hcounts := by
    have hbefore := h.calls hcond (h'.upholds.countsOnly hcounts)
    have hafter := h'.calls hcond hcounts
    rw [calls_append, evaluations_append, List.length_append]
    omega

/-- What happens after the last mark. -/
theorem Workspace.Tracks.then (h : w.Tracks name k condition ms extra w') (h' : w'.Upholds w'') :
    w.Tracks name k condition ms extra w'' where
  upholds := h.upholds.trans h'
  calls hcond hcounts := h.calls hcond (h'.countsOnly hcounts)

/-- A cache that calls the parser behind it. -/
theorem Workspace.Tracks.evaluated {i : CacheId}
    (h : w.Tracks name k condition ms (if i = k then 1 else 0) w') (p : Position) :
    w.Tracks name k condition (.evaluated i p :: ms) 0 w' where
  upholds := h.upholds
  calls hcond hcounts := by
    have hms := h.calls hcond hcounts
    rw [calls_evaluated, evaluations_evaluated]
    split
    next hi =>
      rw [if_pos hi] at hms
      exact hms
    next hi =>
      rw [if_neg hi] at hms
      exact hms

/-- Storing the answer is no call. -/
theorem Workspace.Tracks.stored (h : w.Tracks name k condition ms extra w') (i : CacheId)
    (p : Position) : w.Tracks name k condition (ms ++ [.stored i p]) extra w' where
  upholds := h.upholds
  calls hcond hcounts := by
    have hms := h.calls hcond hcounts
    rw [calls_append, evaluations_append, calls_stored, evaluations_stored, List.append_nil]
    exact hms

end

/-- Every run tracks the calls, from a proper workspace on. -/
def Traced.Counts (name : String) (k : CacheId) (condition : Prop) (extra : Nat) (r : Traced) :
    Prop :=
  ∀ w : Workspace, w.Proper → w.Tracks name k condition (r w).2 extra (r w).1.2

namespace Traced

variable {name : String} {k : CacheId} {condition condition' : Prop} {extra extra' : Nat}
  {r next : Traced}

theorem Counts.mono (h : r.Counts name k condition extra) (hc : condition' → condition)
    (he : condition' → extra = extra') : r.Counts name k condition' extra' := by
  refine fun w hw => ⟨(h w hw).upholds, fun hcond hcounts => ?_⟩
  rw [← he hcond]
  exact (h w hw).calls (hc hcond) hcounts

theorem counts_done (o : Outcome) : (done o).Counts name k condition 0 :=
  fun _ hw => hw.upholds.tracks

theorem Counts.andThen {next : Value → Cursor → Traced} (h : r.Counts name k condition 0)
    (hnext : ∀ v c, (next v c).Counts name k condition 0) :
    (r.andThen next).Counts name k condition 0 := by
  intro w hw
  have hfirst := h w hw
  unfold Traced.andThen
  generalize r w = x at hfirst ⊢
  obtain ⟨⟨o, w'⟩, ms⟩ := x
  cases o with
  | matched v c => exact hfirst.trans (hnext v c w' hfirst.upholds.proper)
  | noMatch => exact hfirst
  | failed f => exact hfirst
  | fault f => exact hfirst

theorem Counts.orElse (h : r.Counts name k condition 0) (hnext : next.Counts name k condition 0) :
    (r.orElse next).Counts name k condition 0 := by
  intro w hw
  have hfirst := h w hw
  unfold Traced.orElse
  generalize r w = x at hfirst ⊢
  obtain ⟨⟨o, w'⟩, ms⟩ := x
  cases o with
  | noMatch => exact hfirst.trans (hnext w' hfirst.upholds.proper)
  | matched v c => exact hfirst
  | failed f => exact hfirst
  | fault f => exact hfirst

theorem Counts.repeatFrom {parser : Cursor → Traced}
    (h : ∀ c, (parser c).Counts name k condition 0) (rounds : Nat) (values : List Value)
    (c : Cursor) : (Traced.repeatFrom parser rounds values c).Counts name k condition 0 := by
  induction rounds generalizing values c with
  | zero => exact counts_done _
  | succ rounds ih =>
    intro w hw
    have hfirst := h c w hw
    unfold Traced.repeatFrom
    generalize parser c w = x at hfirst ⊢
    obtain ⟨⟨o, w'⟩, ms⟩ := x
    cases o with
    | matched v next =>
      simp only
      split
      · exact hfirst
      · exact hfirst.trans (ih (v :: values) next w' hfirst.upholds.proper)
    | noMatch =>
      simp only
      split <;> exact hfirst
    | failed f => exact hfirst
    | fault f => exact hfirst

/-- A cache makes a call whenever it has no answer. -/
theorem Counts.viaCache {i : CacheId} (h : r.Counts name k condition (if i = k then 1 else 0))
    (c : Cursor) : (Traced.viaCache i c r).Counts name k condition 0 := by
  intro w hw
  have hinner := h w hw
  unfold Traced.viaCache
  cases w.cachedAt? i c.position with
  | some remembered =>
    cases remembered with
    | some answer => exact (hw.upholds_log _).tracks
    | none => exact (hw.upholds_log _).tracks
  | none =>
    simp only
    generalize r w = x at hinner ⊢
    obtain ⟨⟨o, w'⟩, ms⟩ := x
    -- the call is made for the evaluation that is marked, so nothing is left over
    have hmiss := hinner.upholds.proper.upholds_log (.cacheMiss i c.position)
    have hremember := fun r => hmiss.trans (hmiss.proper.upholds_remember i c.position r)
    cases o with
    | matched v next =>
      exact ((hinner.stored i c.position).evaluated c.position).then (hremember _)
    | noMatch =>
      exact ((hinner.stored i c.position).evaluated c.position).then (hremember _)
    | failed f => exact hinner.evaluated c.position
    | fault f => exact hinner.evaluated c.position

theorem Counts.around (h : r.Counts name k condition extra) (g : Grammar) (c : Cursor) :
    (around g c r).Counts name k condition extra := by
  refine fun w hw => ⟨(h w hw).upholds, fun hcond hcounts => ?_⟩
  show calls name (_ :: (_ ++ _)) = (evaluations k (_ :: (_ ++ _))).length + extra
  rw [calls_around, evaluations_around]
  exact (h w hw).calls hcond hcounts

/-- A call that is counted. -/
theorem Counts.counted (h : r.Counts name k condition 0) (m : String) :
    Counts name k condition (if m = name then 1 else 0) fun w =>
      ((r (w.countCall m)).1, .counted m :: (r (w.countCall m)).2) := by
  intro w hw
  have hcount := hw.upholds_countCall m
  have hinner := h _ hcount.proper
  refine ⟨hcount.trans hinner.upholds, fun hcond hcounts => ?_⟩
  have hms := hinner.calls hcond hcounts
  rw [calls_counted, evaluations_counted]
  omega

end Traced

/-! ## Runs

A call of the parser behind the cache is counted once, right after the cache has made it. So calls
are tracked through every combinator, with one that is still to be counted in between. -/

section

variable {name : String} {k : CacheId}

/-- The calls of a grammar are tracked if those of its rules are. Induction on the grammar. -/
theorem Grammar.traced_counts {tracedRule : Hold → RuleId → Cursor → Traced}
    (hrule : ∀ hold id c, (tracedRule hold id c).Counts name k True 0) (g : Grammar) (c : Cursor) :
    (g.traced tracedRule c).Counts name k (g.CountedBy name k) (g.callsFor name) := by
  have hleaf : ∀ {condition : Prop} (o : Outcome), (Traced.done o).Counts name k condition 0 :=
    fun o => Traced.counts_done o
  induction g generalizing c with
  | literal token => exact (hleaf _).around _ c
  | chars cls => exact (hleaf _).around _ c
  | accept value => exact (hleaf _).around _ c
  | map f p ih =>
    exact (((ih c).mono And.right And.left).andThen fun _ _ => hleaf _).around _ c
  | tryMap f p ih =>
    refine Traced.Counts.around (((ih c).mono And.right And.left).andThen fun v next => ?_) _ c
    cases f v with
    | ok u => exact hleaf _
    | error message => exact hleaf _
  | seq a b iha ihb =>
    refine Traced.Counts.around (((iha c).mono (fun h => h.1.2) fun h => h.1.1).andThen
      fun u middle => ?_) _ c
    exact ((ihb middle).mono (fun h => h.2.2) fun h => h.2.1).andThen fun _ _ => hleaf _
  | alt a b iha ihb =>
    exact (((iha c).mono (fun h => h.1.2) fun h => h.1.1).orElse
      ((ihb c).mono (fun h => h.2.2) fun h => h.2.1)).around _ c
  | rep p ih =>
    exact (Traced.Counts.repeatFrom (fun c => (ih c).mono And.right And.left) _ _ c).around _ c
  | required message p ih =>
    refine Traced.Counts.around (((ih c).mono And.right And.left).orElse fun w hw => ?_) _ c
    exact (hw.upholds_log _).tracks
  | memo i p ih => exact (((ih c).mono And.right And.left).viaCache c).around _ c
  | count m p ih => exact (((ih c).mono And.right And.left).counted m).around _ c
  | rule hold id => exact ((hrule hold id c).mono (fun _ => trivial) fun _ => rfl).around _ c

/-- A rule runs its definition, which is there in the end. -/
theorem Rule.traced_counts (depth : Nat) (hold : Hold) (id : RuleId) (c : Cursor) :
    (Rule.traced depth hold id c).Counts name k True 0 := by
  induction depth generalizing hold id c with
  | zero => exact Traced.counts_done _
  | succ depth ih =>
    intro w hw
    simp only [Rule.traced]
    cases w.refusal? hold id c with
    | some refusal =>
      refine (hw.upholds_same ?_ fun {m} hm => ?_).tracks
      · cases refusal <;> rfl
      · cases refusal <;> exact hm
    | none =>
      have henter : w.Upholds (w.enter id c.position) := hw.upholds_mark rfl rfl
      obtain ⟨_, hdefinition, hhas⟩ := henter.proper.definition id
      simp only
      generalize (w.enter id c.position).definition id = x at hdefinition hhas ⊢
      obtain ⟨d, w₁⟩ := x
      have hstart : w.Upholds w₁ := henter.trans hdefinition
      have hleave : ∀ {w₂ : Workspace}, w₂.Proper → w₂.Upholds (w₂.leave id (w.marker id)) :=
        fun hproper => hproper.upholds_mark rfl rfl
      cases d with
      | error fault => exact (hstart.trans (hleave hstart.proper)).tracks
      | ok d =>
        cases d with
        | none => exact (hstart.trans (hleave hstart.proper)).tracks
        | some g =>
          have hbody := Grammar.traced_counts ih g c w₁ hstart.proper
          have hend := hleave hbody.upholds.proper
          refine ⟨(hstart.trans hbody.upholds).trans hend, fun _ hcounts => ?_⟩
          -- the definition is there in the end, and is one of those that the counter is used in
          obtain ⟨hroot, hbelow⟩ := hcounts id g ((hbody.upholds.trans hend).built (hhas g rfl))
          have hcalls := hbody.calls hbelow (hend.countsOnly hcounts)
          rwa [hroot] at hcalls

/-- **Calls are counted as often as the cache makes them.** -/
theorem Workspace.Proper.calls_trace {w : Workspace} (h : w.Proper) {g : Grammar} (c : Cursor)
    (hg : g.CountsOnly name k) (hcounts : (w.parse g c).2.CountsOnly name k) :
    calls name (w.trace g c) = (evaluations k (w.trace g c)).length := by
  have htracks := Grammar.traced_counts (@Rule.traced_counts name k (w.depthBudget c)) g c w h
  rw [← w.traced_fst] at hcounts
  have hcalls := htracks.calls hg.2 hcounts
  rwa [hg.1] at hcalls

/-- Every parse upholds the workspace. -/
theorem Workspace.Proper.parse {w : Workspace} (h : w.Proper) (g : Grammar) (c : Cursor) :
    w.Upholds (w.parse g c).2 := by
  rw [← w.traced_fst]
  exact (Grammar.traced_counts (@Rule.traced_counts "" 0 (w.depthBudget c)) g c w h).upholds

end

end Packrat
