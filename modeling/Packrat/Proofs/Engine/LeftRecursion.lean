import Packrat.Proofs.Engine.Use

/-!
# The guard against left recursion is exact

Without the guard, a rule at a cursor comes to whatever its definition comes to there, and nothing
stops a rule that comes back to itself. The engine with the guard comes to the same outcome
wherever the engine without it comes to one, and raises the alarm everywhere else.

* **`Workspace.Derives`** — the outcome of a grammar at a cursor without the guard: what is come to
  when rules may nest deeply enough, however deep that is.
* **`InUse.derives_iff`** — it is what the blueprint yields in the big-step relation of blueprints.
* **`Workspace.RaisesGuard`** — the guard stops the parse: its failure is the outcome, and the log
  has one alarm more, at the place of the failure.
* **`InUse.raisesGuard_iff`** — that happens exactly where a rule comes back to itself, through any
  number of other rules, without anything being read in between.
* **`guard_exact`** — so the guard stops a parse exactly when it would not end without the guard.
  A rule that is entered again further on, or again at the same place after it was left, is not
  reported; a loop through any number of rules is.
-/

namespace Packrat.Workspace

/-- The engine without the guard comes to the outcome. -/
def Derives (w : Workspace) (g : Grammar) (c : Cursor) (o : Outcome) : Prop :=
  o ≠ .fault .exhausted ∧ ∃ depth, (g.run (Rule.parseUnguarded depth) c w).1 = o

/-- The guard stops the parse. -/
def RaisesGuard (w : Workspace) (g : Grammar) (c : Cursor) : Prop :=
  ∃ id p, (w.parse g c).1 = .failed ⟨Refusal.leftRecursion.message, p.offset⟩
    ∧ (w.parse g c).2.alarms = w.alarms ++ [(id, p)]

variable {pool : List (Blueprint × Grammar)} {known : List Source} {w : Workspace} {b : Blueprint}
  {g : Grammar} {c : Cursor}

namespace InUse

theorem settles_unguarded (h : InUse pool known w) (hg : (b, g) ∈ pool) (hc : c.Valid)
    (hs : c.source ∈ known) (depth : Nat) :
    Settles ⟨false, depth⟩ c.source w (Goal.parse [] b.plain c.rest).course
      (g.run (Rule.parseUnguarded depth) c w) :=
  h.settles hg hc hs ⟨false, depth⟩ fun hguarded => nomatch hguarded

theorem derives_iff_plain (h : InUse pool known w) (hg : (b, g) ∈ pool) (hc : c.Valid)
    (hs : c.source ∈ known) {o : Outcome} :
    w.Derives g c o ↔ ∃ v, (Goal.parse [] b.plain c.rest).Yields v ∧ o = v.outcome c.source := by
  constructor
  · rintro ⟨ho, depth, hrun⟩
    have hsettles := h.settles_unguarded hg hc hs depth
    generalize g.run (Rule.parseUnguarded depth) c w = x at hrun hsettles
    rcases hsettles with ⟨v, hv, hx, _⟩ | hbreaks
    · exact ⟨v, hv, hrun.symm.trans hx⟩
    · cases hbreaks
      exact absurd hrun.symm ho
  · rintro ⟨v, hv, rfl⟩
    refine ⟨?_, ?_⟩
    · cases v <;> exact fun hexhausted => nomatch hexhausted
    · -- the way to the verdict is not deeper than some depth, so the run does not break off there
      obtain ⟨depth, hshallow⟩ := Course.Yields.not_deep hv
      refine ⟨depth, ?_⟩
      have hsettles := h.settles_unguarded hg hc hs depth
      generalize g.run (Rule.parseUnguarded depth) c w = x at hsettles ⊢
      rcases hsettles with ⟨u, hu, hx, _⟩ | hbreaks
      · rw [hx, Goal.yields_unique hu hv]
      · cases hbreaks with
        | deep hdeep => exact absurd hdeep hshallow

/-- **Without the guard, a grammar comes to what its blueprint yields.** -/
theorem derives_iff (h : InUse pool known w) (hg : (b, g) ∈ pool) (hc : c.Valid)
    (hs : c.source ∈ known) {o : Outcome} :
    w.Derives g c o ↔ ∃ v, (Goal.parse [] b c.rest).Yields v ∧ o = v.outcome c.source := by
  have hplain (v : Verdict) :
      (Goal.parse [] b.plain c.rest).Yields v ↔ (Goal.parse [] b c.rest).Yields v :=
    Goal.yields_plain (n := .parse [] b c.rest)
  simp only [h.derives_iff_plain hg hc hs, hplain]

/-- **The guard stops a parse where its blueprint leads to a loop.** -/
theorem raisesGuard_iff (h : InUse pool known w) (hg : (b, g) ∈ pool) (hc : c.Valid)
    (hs : c.source ∈ known) :
    w.RaisesGuard g c ↔ ∃ rest, (Goal.parse [] b.plain c.rest).Loops rest := by
  have hsettles := h.settles_parse hg hc hs
  unfold RaisesGuard
  generalize w.parse g c = x at hsettles ⊢
  rcases hsettles with ⟨v, hv, _, halarms⟩ | ⟨hm, hloops, halarms⟩
  · constructor
    · -- the message alone would not do: a requirement may be worded alike
      rintro ⟨id, p, _, hraised⟩
      rw [halarms] at hraised
      simp at hraised
    · rintro ⟨rest, hloops⟩
      exact absurd ⟨v, hv⟩ hloops.not_yields
  · exact ⟨fun _ => ⟨_, hloops.of_asks hm⟩, fun _ => ⟨_, _, rfl, halarms⟩⟩

theorem parse_of_derives (h : InUse pool known w) (hg : (b, g) ∈ pool) (hc : c.Valid)
    (hs : c.source ∈ known) {o : Outcome} (ho : w.Derives g c o) : (w.parse g c).1 = o := by
  obtain ⟨v, hv, rfl⟩ := (h.derives_iff_plain hg hc hs).1 ho
  have hsettles := h.settles_parse hg hc hs
  generalize w.parse g c = x at hsettles ⊢
  rcases hsettles with ⟨u, hu, hx, _⟩ | ⟨hm, hloops, _⟩
  · rw [hx, Goal.yields_unique hu hv]
  · exact absurd ⟨v, hv⟩ (hloops.of_asks hm).not_yields

theorem raisesGuard_iff_not_derives (h : InUse pool known w) (hg : (b, g) ∈ pool)
    (hc : c.Valid) (hs : c.source ∈ known) :
    w.RaisesGuard g c ↔ ¬∃ o, w.Derives g c o := by
  rw [h.raisesGuard_iff hg hc hs]
  constructor
  · rintro ⟨rest, hloops⟩ ⟨o, ho⟩
    obtain ⟨v, hv, _⟩ := (h.derives_iff_plain hg hc hs).1 ho
    exact hloops.not_yields ⟨v, hv⟩
  · intro hnone
    -- with the guard every parse ends, so what does not come to a verdict leads to a loop
    rcases h.settles_parse hg hc hs with ⟨v, hv, _⟩ | hbreaks
    · exact absurd ⟨_, (h.derives_iff_plain hg hc hs).2 ⟨v, hv, rfl⟩⟩ hnone
    · generalize w.parse g c = x at hbreaks
      obtain ⟨hm, hloops, _⟩ := hbreaks
      exact ⟨_, hloops.of_asks hm⟩

end InUse

/-- **The guard is exact.** The engine without the guard is the big-step relation of blueprints.
Where it comes to an outcome, the engine with the guard comes to the same one; the guard stops a
parse if and only if there is no such outcome; and it does stop every parse that leads to a loop. -/
theorem guard_exact (h : InUse pool known w) (hg : (b, g) ∈ pool) (hc : c.Valid)
    (hs : c.source ∈ known) :
    (∀ o, w.Derives g c o ↔ ∃ v, (Goal.parse [] b c.rest).Yields v ∧ o = v.outcome c.source)
      ∧ (∀ o, w.Derives g c o → (w.parse g c).1 = o)
      ∧ (w.RaisesGuard g c ↔ ¬∃ o, w.Derives g c o)
      ∧ ∀ rest, (Goal.parse [] b c.rest).Loops rest → w.RaisesGuard g c := by
  have hexact := h.raisesGuard_iff_not_derives hg hc hs
  refine ⟨fun o => h.derives_iff hg hc hs, fun o => h.parse_of_derives hg hc hs, hexact, ?_⟩
  intro rest hloops
  refine hexact.2 ?_
  rintro ⟨o, ho⟩
  obtain ⟨v, hv, _⟩ := (h.derives_iff hg hc hs).1 ho
  exact hloops.not_yields ⟨v, hv⟩

theorem guard_exact_sums :
    (∀ o, (withSums "+").Derives (.rule .owned 0) (Source.start ⟨0, ['+']⟩) o
        ↔ ∃ v, (Goal.parse [] .sums ['+']).Yields v ∧ o = v.outcome ⟨0, ['+']⟩)
      ∧ (∀ o, (withSums "+").Derives (.rule .owned 0) (Source.start ⟨0, ['+']⟩) o →
        ((withSums "+").parse (.rule .owned 0) (Source.start ⟨0, ['+']⟩)).1 = o)
      ∧ ((withSums "+").RaisesGuard (.rule .owned 0) (Source.start ⟨0, ['+']⟩)
        ↔ ¬∃ o, (withSums "+").Derives (.rule .owned 0) (Source.start ⟨0, ['+']⟩) o)
      ∧ ∀ rest, (Goal.parse [] .sums ['+']).Loops rest →
        (withSums "+").RaisesGuard (.rule .owned 0) (Source.start ⟨0, ['+']⟩) :=
  guard_exact (inUse_withSums "+") List.mem_cons_self (Cursor.valid_start _) List.mem_cons_self

example : ((withSums "+").parse (.rule .owned 0) (Source.start ⟨0, ['+']⟩)).1
    = .failed ⟨"Left-recursive grammar detected", 0⟩ := by
  rfl

end Packrat.Workspace
