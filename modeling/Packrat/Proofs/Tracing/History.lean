import Packrat.Proofs.Tracing.Caching

/-!
# What happens to caches over a history

A history begins with nothing; then closed blueprints are built, grammars are put together from
copies, sources are made and parsed, in any order, and whatever each parse comes to. What happened
before it may not be forgotten here, as it may where only outcomes are of interest: the caches tell
of it.

* **`Bench.Leads`** — any number of steps from one workspace to a later one.
* **`Bench.Orderly`** — the invariant: the workspace is in use, and proper.
* **`Bench.Step.recorded`** — one step keeps it, and marks account for what the step has changed.
* **`Bench.Leads.packrat`** — over any history a cache logs a miss for a position at most once, and
  has an entry where it did; in a parse that comes to an answer, the parser behind a cache is called
  once for each position that is new to the cache, and not at all for the others.
* **`Bench.Leads.failure_uncaught`** — a hard failure of any parser is that of the parse; nothing is
  called after it, and no cache whose parser was being run stores anything. No parse fails unless
  some parser raises the failure itself.
-/

namespace Packrat

open Relation

/-! ## Histories

Here a history begins with the empty workspace, so that everything a cache holds has been put in by
one of its steps. -/

namespace Bench

/-- The bench on which nothing has happened. -/
def fresh : Bench :=
  ⟨[], [], .empty⟩

/-- A history, in which all parses come to outcomes that are allowed. -/
def Leads (allowed : Outcome → Prop) : Bench → Bench → Prop :=
  ReflTransGen (Step allowed)

/-- Calls are counted under the name in the parser right behind the cache, and nowhere else. -/
def CountsOnly (name : String) (k : CacheId) (u : Bench) : Prop :=
  (∀ b g, (b, g) ∈ u.pool → g.CountsOnly name k) ∧ u.workspace.CountsOnly name k

end Bench

namespace Assembled

variable {pool : List (Blueprint × Grammar)} {b : Blueprint} {g : Grammar}

theorem proper {w : Workspace} (hpool : ∀ {b g}, (b, g) ∈ pool → g.Proper w)
    (h : Assembled pool b g) : g.Proper w := by
  induction h with
  | copy h => exact hpool h
  | literal token => trivial
  | chars cls => trivial
  | accept value => trivial
  | map f _ ih => exact ih
  | tryMap f _ ih => exact ih
  | seq _ _ ih ih' => exact ⟨ih, ih'⟩
  | alt _ _ ih ih' => exact ⟨ih, ih'⟩
  | rep _ ih => exact ih
  | required message _ ih => exact ih

end Assembled

/-! ## The invariant

Outcomes need the legend and caches need the numbering of what has been built. The invariant has
both. -/

namespace Bench

variable {allowed : Outcome → Prop} {u u' : Bench} {b : Blueprint} {g : Grammar} {c : Cursor}

/-- The workspace is in use and proper, and so are the grammars that can be parsed with. -/
structure Orderly (u : Bench) : Prop where
  inUse : Workspace.InUse u.pool u.known u.workspace
  proper : u.workspace.Proper
  grammars : ∀ {b g}, (b, g) ∈ u.pool → g.Proper u.workspace

/-- At the beginning nothing is out of order. -/
theorem orderly_fresh : fresh.Orderly where
  inUse := .start (Workspace.holds_nil .empty)
  proper := Workspace.proper_empty
  grammars h := by cases h

/-- Every parse on the bench has an account. -/
theorem Orderly.accounts (h : u.Orderly) (hg : (b, g) ∈ u.pool) (hc : c.Valid)
    (hs : c.source ∈ u.known) :
    ∃ L : Legend, Account L c.source (.parse [] b.plain c.rest) g.wrappers u.workspace
      (u.workspace.parse g c) (u.workspace.trace g c) := by
  obtain ⟨L, hL⟩ := h.inUse.explained
  have hready : Ready ⟨true, u.workspace.depthBudget c⟩ L c.source [] []
      (.parse [] b.plain c.rest) u.workspace := hL.ready b hc hs fun _ => Nat.le_refl _
  obtain ⟨L', _, haccount⟩ := runs_account c.source (u.workspace.depthBudget c) (hL.reads hg)
    hready h.proper (h.grammars hg)
  rw [hc.eq_before] at haccount
  refine ⟨L', ?_⟩
  rw [← u.workspace.traced_fst]
  exact haccount

/-- From one orderly bench to another: what was in the pool and in order stays so, and marks account
for what has changed. -/
structure Recorded (allowed : Outcome → Prop) (u : Bench) (u' : Bench) : Prop where
  orderly : u'.Orderly
  upholds : u.workspace.Upholds u'.workspace
  pool : u.pool ⊆ u'.pool
  marks : ∃ ms, u.workspace.Records ms u'.workspace
    ∧ ((∀ o, allowed o → o.IsAnswer) → ∀ name k, u'.CountsOnly name k →
      calls name ms = (stores k ms).length)

/-- **One step keeps a bench orderly**, and its marks account for it. -/
theorem Step.recorded (hstep : Step allowed u u') (h : u.Orderly) : Recorded allowed u u' := by
  have hinUse : Workspace.InUse u'.pool u'.known u'.workspace :=
    h.inUse.step (hstep.mono fun _ _ => trivial)
  cases hstep with
  | @build b g w hb hbuild =>
    obtain ⟨hbuilds, hsound⟩ := @ensures_build [] b hb u.workspace
    rw [show (b.build []).run u.workspace = _ from hbuild] at hbuilds hsound
    have hupholds := hbuilds.upholds h.proper
    refine ⟨⟨hinUse, hupholds.proper, fun hmem => ?_⟩, hupholds, List.subset_cons_self _ _, [],
      hbuilds.records, fun _ _ _ _ => rfl⟩
    rcases List.mem_cons.1 hmem with heq | hmem
    · cases heq
      exact (hsound g rfl).1
    · exact (h.grammars hmem).mono hupholds.opened
  | assemble hg =>
    -- a grammar that is put together asks the caches of its copies, and has none of its own
    refine ⟨⟨hinUse, h.proper, fun hmem => ?_⟩, h.proper.upholds, List.subset_cons_self _ _, [],
      .refl _, fun _ _ _ _ => rfl⟩
    rcases List.mem_cons.1 hmem with heq | hmem
    · cases heq
      exact hg.proper h.grammars
    · exact h.grammars hmem
  | source text =>
    have hupholds : u.workspace.Upholds (u.workspace.newSource text).2 :=
      h.proper.upholds_same rfl fun hname => hname
    exact ⟨⟨hinUse, hupholds.proper, fun hmem => (h.grammars hmem).mono hupholds.opened⟩, hupholds,
      List.Subset.refl _, [], .same rfl rfl rfl, fun _ _ _ _ => rfl⟩
  | @parse b g c hg hc hs hallowed =>
    obtain ⟨_, haccount⟩ := h.accounts hg hc hs
    have hupholds := h.proper.parse g c
    refine ⟨⟨hinUse, hupholds.proper, fun hmem => (h.grammars hmem).mono hupholds.opened⟩,
      hupholds, List.Subset.refl _, _, haccount.records, fun hanswers name k hcounts => ?_⟩
    -- as many calls as evaluations, and with an answer each of these is stored
    have hcalls := h.proper.calls_trace c (hcounts.1 b g hg) hcounts.2
    have hbalanced := (u.workspace.traced_orderly g c).balanced (hanswers _ hallowed) k
    rw [hcalls, hbalanced.length_eq]

/-- What is assembled may as well have been assembled before. -/
theorem Orderly.assemble (h : u.Orderly) (hg : Assembled u.pool b g) :
    Orderly ⟨(b, g) :: u.pool, u.known, u.workspace⟩ := by
  have hstep : Step (fun _ => True) u ⟨(b, g) :: u.pool, u.known, u.workspace⟩ := .assemble hg
  exact (hstep.recorded h).orderly

theorem Recorded.countsOnly (h : Recorded allowed u u') {name : String} {k : CacheId}
    (h' : u'.CountsOnly name k) : u.CountsOnly name k :=
  ⟨fun b g hmem => h'.1 b g (h.pool hmem), h.upholds.countsOnly h'.2⟩

theorem Orderly.recorded (h : u.Orderly) : Recorded allowed u u :=
  ⟨h, h.proper.upholds, List.Subset.refl _, [], .refl _, fun _ _ _ _ => rfl⟩

/-- What two steps have recorded is recorded by both together. -/
theorem Recorded.trans {u'' : Bench} (h : Recorded allowed u u') (h' : Recorded allowed u' u'') :
    Recorded allowed u u'' := by
  obtain ⟨ms, hrecords, hcalls⟩ := h.marks
  obtain ⟨ms', hrecords', hcalls'⟩ := h'.marks
  refine ⟨h'.orderly, h.upholds.trans h'.upholds, List.Subset.trans h.pool h'.pool, ms ++ ms',
    hrecords.trans hrecords', fun hanswers name k hcounts => ?_⟩
  rw [calls_append, stores_append, List.length_append,
    hcalls hanswers name k (h'.countsOnly hcounts), hcalls' hanswers name k hcounts]

/-- **A history keeps a bench orderly**, and its marks account for all that it has changed.
Induction on the history. -/
theorem Leads.recorded (h : Leads allowed u u') (hu : u.Orderly) : Recorded allowed u u' := by
  induction h with
  | refl => exact hu.recorded
  | tail _ hstep ih => exact ih.trans (hstep.recorded ih.orderly)

/-! ## Caches are filled once

What the marks of a history account for, taken from the beginning, is all that the caches hold. So
misses and entries can be compared with the calls that were made. -/

/-- What a history has come to, as far as caches go, and what the parses that are still to come
will do. -/
structure CachesOnce (u u' : Bench) : Prop where
  nodup : ∀ k, (u'.workspace.misses k).Nodup
  cached : ∀ k p, p ∈ u'.workspace.misses k ↔ u'.workspace.cachedAt? k p ≠ none
  positions : ∀ k, u'.workspace.cachedPositions k = (u'.workspace.misses k).length
  kept : ∀ {k p r}, u.workspace.cachedAt? k p = some r → u'.workspace.cachedAt? k p = some r
  /-- In a parse with an answer, the parser behind a cache is called once where the cache gets an
  entry, and nowhere else. -/
  evaluated : ∀ {b g c}, Assembled u'.pool b g → c.Valid → c.source ∈ u'.known →
    (u'.workspace.parse g c).1.IsAnswer → ∀ k p,
    (evaluations k (u'.workspace.trace g c)).count p
      = if u'.workspace.cachedAt? k p = none ∧ (u'.workspace.parse g c).2.cachedAt? k p ≠ none
        then 1 else 0
  /-- A counter inside the cache shows how many positions are cached if no parse has broken off. -/
  counted : Leads Outcome.IsAnswer fresh u' → ∀ {name k}, u'.CountsOnly name k →
    u'.workspace.tally name = u'.workspace.cachedPositions k

theorem Orderly.evaluations_count (h : u.Orderly) (hg : Assembled u.pool b g) (hc : c.Valid)
    (hs : c.source ∈ u.known) (ho : (u.workspace.parse g c).1.IsAnswer) (k : CacheId)
    (p : Position) :
    (evaluations k (u.workspace.trace g c)).count p
      = if u.workspace.cachedAt? k p = none ∧ (u.workspace.parse g c).2.cachedAt? k p ≠ none
        then 1 else 0 := by
  obtain ⟨_, haccount⟩ := (h.assemble hg).accounts List.mem_cons_self hc hs
  -- what has been evaluated has been stored, and that is new to the cache
  rw [((u.workspace.traced_orderly g c).balanced ho k).count_eq p]
  exact haccount.records.count_stores k p

theorem Leads.tally (h : Leads Outcome.IsAnswer fresh u) {name : String} {k : CacheId}
    (hcounts : u.CountsOnly name k) : u.workspace.tally name = u.workspace.cachedPositions k := by
  obtain ⟨ms, hrecords, hcalls⟩ := (h.recorded orderly_fresh).marks
  rw [hrecords.tally, hrecords.positions, hcalls (fun _ ho => ho) name k hcounts]
  rfl

/-- **Caches are filled once.** Over any history of parses, whatever they come to, a cache logs a
miss for a position at most once, has an entry exactly where it has logged one, and keeps every
entry as it is. -/
theorem Leads.packrat (h : Leads (fun _ => True) fresh u) (h' : Leads (fun _ => True) u u') :
    CachesOnce u u' := by
  have hrecorded := h.recorded orderly_fresh
  have hrecorded' := h'.recorded hrecorded.orderly
  obtain ⟨ms, hrecords, _⟩ := (hrecorded.trans hrecorded').marks
  obtain ⟨ms', hrecords', _⟩ := hrecorded'.marks
  have hcaches := fun k => Workspace.Records.of_empty hrecords k
  exact ⟨fun k => (hcaches k).1, fun k => (hcaches k).2.2, fun k => (hcaches k).2.1,
    fun hr => hrecords'.cachedAt?_of_mem hr, hrecorded'.orderly.evaluations_count,
    fun hanswers _ _ hcounts => hanswers.tally hcounts⟩

/-- A one, required behind a cache that its calls are counted in. -/
def ones : Blueprint :=
  .memo none (.count "calls" (.required "One expected" (.literal "1")))

def builtOnes : Grammar :=
  .memo 0 (.count "calls" (.required "One expected" (.literal "1")))

def withOnes : Bench :=
  ⟨[(ones, builtOnes)], [⟨0, ['1', '?']⟩], ((Workspace.empty.build ones).2.newSource "1?").2⟩

theorem leads_withOnes : Leads allowed fresh withOnes := by
  have hbuild : fresh.workspace.build ones = (.ok builtOnes, (Workspace.empty.build ones).2) := rfl
  exact (ReflTransGen.refl.tail (.build rfl hbuild)).tail (.source "1?")

theorem packrat_ones : CachesOnce withOnes
    ((withOnes.parsed builtOnes ⟨⟨0, ['1', '?']⟩, 0, ['1', '?']⟩).parsed builtOnes
      ⟨⟨0, ['1', '?']⟩, 1, ['?']⟩) := by
  have hone : (ones, builtOnes) ∈ withOnes.pool := List.mem_cons_self
  have hmatched : Step (fun _ => True) withOnes
      (withOnes.parsed builtOnes ⟨⟨0, ['1', '?']⟩, 0, ['1', '?']⟩) :=
    .parse hone ⟨[], rfl, rfl⟩ List.mem_cons_self trivial
  exact leads_withOnes.packrat ((ReflTransGen.single hmatched).tail
    (.parse hone ⟨['1'], rfl, rfl⟩ List.mem_cons_self trivial))

-- the parse that fails has made a call, but the cache has no entry for it
example :
    let u := (withOnes.parsed builtOnes ⟨⟨0, ['1', '?']⟩, 0, ['1', '?']⟩).parsed builtOnes
      ⟨⟨0, ['1', '?']⟩, 1, ['?']⟩
    (u.workspace.tally "calls", u.workspace.cachedPositions 0) = (2, 1) := by
  rfl

/-! ## Failures are not caught

What was shown of the marks of one run holds at any point of a history. That no cache keeps a
failure is the one thing for which the history matters. -/

/-- What the marks of a parse show of failures. -/
structure FailsAsRaised (u : Bench) (g : Grammar) (c : Cursor) : Prop where
  traced : (u.workspace.traced g c).1 = u.workspace.parse g c
  outcome : ∀ {before p d f after},
    u.workspace.trace g c = before ++ .returned p d (.failed f) :: after →
    (u.workspace.parse g c).1 = .failed f
  returns : ∀ {before p d f after},
    u.workspace.trace g c = before ++ .returned p d (.failed f) :: after →
    ∀ m ∈ after, ∃ q e, m = .returned q e (.failed f)
  /-- The caches that had been asked and had not answered when the failure was returned. -/
  unstored : ∀ {before p d f after k q e},
    u.workspace.trace g c = before ++ .returned p d (.failed f) :: after →
    (.memo k q, e) ∈ unreturned before →
    (u.workspace.parse g c).2.cachedAt? k e.position = none
  raised : ∀ {f}, (u.workspace.parse g c).1 = .failed f → ∃ before m p d after,
    u.workspace.trace g c = before ++ m :: .returned p d (.failed f) :: after ∧ Raises m p d f

/-- Where a parser is called that returns a failure, no cache around it has an entry. -/
theorem Orderly.unstored (h : u.Orderly) (hg : Assembled u.pool b g) (hc : c.Valid)
    (hs : c.source ∈ u.known) {before after : List Mark} {p q : Grammar} {d e : Cursor}
    {f : Failure} {k : CacheId}
    (htrace : u.workspace.trace g c = before ++ .returned p d (.failed f) :: after)
    (hmem : (.memo k q, e) ∈ unreturned before) :
    (u.workspace.parse g c).2.cachedAt? k e.position = none := by
  have horderly := u.workspace.traced_orderly g c
  obtain ⟨_, haccount⟩ := (h.assemble hg).accounts List.mem_cons_self hc hs
  rw [htrace] at horderly haccount
  -- the call that waits returns behind the failure, so with the same one
  obtain ⟨o, ho⟩ := (horderly.nested []).returned_of_unreturned hmem
  have hfailed : (Mark.returned (.memo k q) e o).failure? = some f := by
    rcases List.mem_cons.1 ho with heq | hafter
    · rw [heq]
      rfl
    · exact (horderly.passage.after_failure rfl).2 _ hafter
  obtain ⟨q', e', heq⟩ := Mark.eq_returned hfailed
  cases heq
  exact haccount.barren (List.mem_append_right _ ho)

/-- **Failures are not caught.** After any history, when a parser that is called in a parse fails,
wherever that is, the parse fails with the same message at the same offset, nothing else is called,
and no cache that was waiting for an answer gets an entry. And a parse fails only if a requirement,
a transformation or a rule has raised that failure. -/
theorem Leads.failure_uncaught (h : Leads (fun _ => True) fresh u) (hg : Assembled u.pool b g)
    (hc : c.Valid) (hs : c.source ∈ u.known) : FailsAsRaised u g c where
  traced := u.workspace.traced_fst g c
  outcome htrace := by
    have hpassage := (u.workspace.traced_orderly g c).passage
    rw [htrace] at hpassage
    exact (hpassage.after_failure rfl).1
  returns htrace m hm := by
    have hpassage := (u.workspace.traced_orderly g c).passage
    rw [htrace] at hpassage
    exact Mark.eq_returned ((hpassage.after_failure rfl).2 m hm)
  unstored htrace hmem := (h.recorded orderly_fresh).orderly.unstored hg hc hs htrace hmem
  raised hf := (u.workspace.traced_orderly g c).passage.exists_raises hf

/-- The guard fails behind the cache of the sums, and the cache is left without an entry. -/
theorem failure_uncaught_sums :
    FailsAsRaised ⟨[(.sums, .rule .owned 0)], [⟨0, ['+']⟩], .withSums "+"⟩ (.rule .owned 0)
      ⟨⟨0, ['+']⟩, 0, ['+']⟩ := by
  have hleads : Leads (fun _ => True) fresh
      ⟨[(.sums, .rule .owned 0)], [⟨0, ['+']⟩], .withSums "+"⟩ :=
    (ReflTransGen.refl.tail (.source "+")).tail (.build rfl rfl)
  exact hleads.failure_uncaught (.copy List.mem_cons_self) ⟨[], rfl, rfl⟩ List.mem_cons_self

end Bench

end Packrat
